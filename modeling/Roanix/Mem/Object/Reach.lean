import Roanix.Mem.Object.Write

/-! Runs of an object: reads, writes and resizes between faults, stores through mappings, reclaim and
whatever else happens to its pages. -/
namespace Roanix.Mem
open Lib Lib.File Act

/-- What the hardware and the rest of the kernel do to a page, beside the object's own calls. -/
def PageM.Call.Outside : PageM.Call → Prop
  | .write _ _ _ => False
  | .zero _ _ _ => False
  | .zeroLocked _ _ => False
  | .enter _ => False
  | _ => True

namespace ObjectM
open VmObject PageWorld

variable {w : PageWorld} {index : ℕ} {σ : Session}

structure Session where
  object : VmObject
  history : List (Event UInt8)

inductive Call where
  | readAt (offset total : ℕ) (answers : ℕ → PageInAnswers)
  | writeAt (offset : ℕ) (input : List UInt8) (tail : PageInAnswers) (answers : ℕ → PageAnswers)
  | truncate (size : ℕ) (answers : PageInAnswers)
  | getOrCreatePage (index : ℕ) (answers : PageAnswers)
  | fault (index : ℕ) (writable : Bool) (answers : PageAnswers)
  | page (index : ℕ) (call : PageM.Call)
  /-- Other objects are charged to the same account. -/
  | recharge (used : ℕ)

def Call.Allowed (o : VmObject) : Call → Prop
  | .writeAt offset input _ _ => offset + input.length < 2 ^ 64
  | .page index call => call.Outside ∧ ∃ w, o.pages.get index = some w ∧ call.Allowed w
  | .recharge used => o.pages.entries.length ≤ used
  | _ => True

def pageEvents (index : ℕ) : PageM.Call → List (Event UInt8)
  | .storeThrough _ offset input => [.poke (index * pageSize + offset) input]
  | _ => []

def Call.exec : Call → ObjectM (List (Event UInt8))
  | .readAt offset total answers => do
    let _ ← ObjectM.readAt offset total answers
    return []
  | .writeAt offset input tail answers => do
    let written ← ObjectM.writeAt offset input tail answers
    return [.write offset (input.take written)]
  | .truncate size answers => do
    let _ ← ObjectM.truncate size answers
    return [.resize size]
  | .getOrCreatePage index answers => do
    ObjectM.getOrCreatePage index answers
    return []
  | .fault index writable answers => do
    ObjectM.fault index writable answers
    return []
  | .page index call => do
    onPage index call.exec
    return pageEvents index call
  | .recharge used => do
    modify fun o => { o with account := o.account.map fun account => { account with used := used } }
    return []

inductive Reachable (ok : VmObject → Call → Prop) : Session → Prop
  | new (kind : ObjectKind) (account : Option PageAccount) :
      Reachable ok ⟨.withAccount kind account, []⟩
  | done {σ : Session} {c : Call} {events : List (Event UInt8)} {o : VmObject}
      (hσ : Reachable ok σ) (hc : c.Allowed σ.object) (hok : ok σ.object c)
      (h : c.exec σ.object = .ok events o) : Reachable ok ⟨o, events ++ σ.history⟩
  | failed {σ : Session} {c : Call} {e : Error} {o : VmObject} (hσ : Reachable ok σ)
      (hc : c.Allowed σ.object) (hok : ok σ.object c) (h : c.exec σ.object = .err e o) :
      Reachable ok ⟨o, σ.history⟩

/-- Pages are mapped up to the end; the kernel sees to that for files. -/
def InBounds (o : VmObject) : Call → Prop
  | .fault index _ _ => o.kind = .vnode ∨ index < pagesFor o.length
  | _ => True

structure Good (o : VmObject) (history : List (Event UInt8)) : Prop where
  sound : o.Sound o.length
  shows : Shows o.length o.byteAt history

variable {T : Panic → Prop} {o o' : VmObject} {history : List (Event UInt8)}

theorem Good.same (h : Good o history) (hs : o'.Sound o.length) (hsame : o.Same o') :
    Good o' history := by
  constructor
  · rw [hsame.length]
    exact hs
  · rw [hsame.length]
    exact h.shows.same fun i _ => hsame.byteAt i

theorem Good.unwritten (h : Good o history) (hu : Unwritten o o') : Good o' history := by
  constructor
  · rw [hu.length]
    exact hu.sound
  · rw [hu.length]
    exact h.shows.same hu.byteAt

theorem fault_spec (writable : Bool) (answers : PageAnswers) (h : o.Sound o.length)
    (hin : o.kind = .vnode ∨ index < pagesFor o.length) :
    wp T (fault index writable answers) (fun _ o' => o'.Sound o.length ∧ o.Same o')
      (fun _ o' => o'.Sound o.length ∧ o.Same o') o := by
  unfold fault faultPage withFault
  simp only [wp_bind, wp_get]
  apply wp_post (findOrCreatePage_spec true answers h)
  rintro _ o₁ ⟨hsound₁, hsame₁, ⟨w, hw⟩, hindex⟩
  have hlt : index < pagesFor o.length := hin.elim (hindex rfl) id
  apply wp_imp (onPage_same (P := fun _ w' => ∃ f, w'.page.backing = .resident f)
    (R := fun _ _ => ¬ PageM.Granted answers.pageIn) hsound₁ hw _)
  · rintro _ o₂ ⟨hsound₂, hsame₂, w₂, ho₂, hresident⟩
    have hget : o₂.pages.get index = some w₂ := by
      subst ho₂
      simp [VmObject.setPage]
    have hsame := hsame₁.trans hsame₂
    rw [if_neg (by rw [hsame.length]; omega), if_neg (by simp [hget])]
    apply wp_onPage hget
    have hanon := hsound₂.page _ w₂ hget
    apply wp_post (PageM.enter_spec writable hanon.holds hresident)
    rintro _ w₃ ⟨hholds, hpager⟩
    constructor
    · apply hsound₂.setPage hget ⟨hholds.content_eq.symm ▸ hholds, hpager.trans hanon.pager⟩
      intro hle
      omega
    · refine hsame.trans ⟨rfl, rfl, ?_⟩
      intro i
      rw [byteAt_setPage]
      split_ifs with hi
      · rw [hholds.content_eq, byteAt_of_get hget hi]
      · rfl
  · rintro _ o₂ ⟨hsound₂, hsame₂, _⟩
    exact ⟨hsound₂, hsame₁.trans hsame₂⟩
  · rw [wp_bind]
    apply wp_post (PageM.residentBacking_spec answers.pageIn (hsound₁.page _ w hw).holds)
    rintro f w' ⟨hgives, hb⟩
    exact ⟨hgives, f, hb⟩

theorem safe_of_anonymous (h : w.Anonymous) (c : PageM.Call) : PageM.Safe w c := by
  cases c with
  | reclaimOwned answer =>
    intro hazard
    have := hazard.1
    rw [h.pager] at this
    cases this
  | _ => trivial

theorem quietPage_spec {c : PageM.Call} (h : o.Sound o.length) (hw : o.pages.get index = some w)
    (hc : c.Allowed w) (hout : c.Outside) (hstored : c.stored w.content = w.content) :
    wp (fun _ => False) (onPage index c.exec) (fun _ o' => o'.Sound o.length ∧ o.Same o')
      (fun _ o' => o'.Sound o.length ∧ o.Same o') o := by
  have hanon := h.page _ w hw
  have hexec := PageM.Call.exec_gives hanon.holds hc (safe_of_anonymous hanon c)
    fun b hb => by subst hb; exact hout
  rw [hstored] at hexec
  apply wp_onPage hw
  apply wp_imp hexec
  · intro _ w' hgives
    exact h.setPage_same hw hgives
  · intro _ w' hgives
    exact h.setPage_same hw hgives

theorem storeThrough_spec {mapping offset : ℕ} {input : List UInt8} (h : Good o history)
    (hw : o.pages.get index = some w)
    (hc : (PageM.Call.storeThrough mapping offset input).Allowed w) :
    wp (fun _ => False) (onPage index (PageM.Call.storeThrough mapping offset input).exec)
      (fun _ o' => Good o' (.poke (index * pageSize + offset) input :: history))
      (fun _ o' => Good o' history) o := by
  have hanon := h.sound.page _ w hw
  have hexec := PageM.Call.exec_gives hanon.holds hc trivial fun b hb => by cases hb
  obtain ⟨f, m, hb, hm, -, hfit⟩ := hc
  have hlt : index < pagesFor o.length := by
    by_contra hle
    have hunmapped := (h.sound.hidden index w hw (by omega)).2 f hb
    simp [hunmapped] at hm
  apply wp_onPage hw
  apply wp_imp hexec
  · intro _ w' hgives
    have hcontent : w'.content = w.content.overwrite offset input := hgives.holds.content_eq
    have hsound : (o.setPage index w').Sound o.length :=
      h.sound.setPage hw (hanon.given hgives) fun hle => by omega
    refine ⟨hsound, h.shows.step ⟨rfl, ?_⟩⟩
    intro i hi
    change i < o.length at hi
    unfold Event.cell
    rw [byteAt_setPage, hcontent, if_neg (show ¬ o.length ≤ i by omega)]
    by_cases hdiv : i / pageSize = index
    · rw [if_pos hdiv, Page.byte_overwrite _ hfit, ← byteAt_of_get hw hdiv]
      have hle : index * pageSize + offset ≤ i ↔ offset ≤ i % pageSize := by
        unfold pageSize pageShift at *
        omega
      have hsub : i - (index * pageSize + offset) = i % pageSize - offset := by
        unfold pageSize pageShift at *
        omega
      simp only [Event.stored, hle, hsub]
      by_cases hlo : offset ≤ i % pageSize
      · simp only [if_pos hlo]
        cases input[i % pageSize - offset]? with
        | none | some b => rfl
      · simp only [if_neg hlo]
    · rw [if_neg hdiv]
      have hnone : (Event.poke (index * pageSize + offset) input).stored i = none := by
        simp only [Event.stored]
        split_ifs with hle
        · apply List.getElem?_eq_none
          unfold pageSize pageShift at *
          omega
        · rfl
      rw [hnone]
  · intro _ w' hgives
    obtain ⟨hsound, hsame⟩ := h.sound.setPage_same hw hgives
    exact h.same hsound hsame

theorem Call.exec_spec {c : Call} (h : Good o history) (hc : c.Allowed o) (hin : InBounds o c) :
    wp (fun _ => False) c.exec (fun events o' => Good o' (events ++ history))
      (fun _ o' => Good o' history) o := by
  cases c with
  | readAt offset total answers =>
    simp only [exec, wp_bind]
    apply wp_imp (readAt_spec offset total answers h.sound)
    · intro _ o' hread
      exact h.same hread.1 hread.2.1
    · intro _ o' hread
      exact h.same hread.1 hread.2.1
  | writeAt offset input tail answers =>
    simp only [exec, wp_bind]
    apply wp_imp (writeAt_spec offset input tail answers hc h.sound)
    · rintro n o' ⟨_, hwritten⟩
      exact ⟨hwritten.sound, h.shows.step hwritten.follows⟩
    · intro _ o' hun
      exact h.unwritten hun
  | truncate size answers =>
    simp only [exec, wp_bind]
    apply wp_imp (truncate_spec size answers h.sound)
    · intro n o' hresized
      constructor
      · rw [hresized.length]
        exact hresized.sound
      · rw [hresized.length]
        exact h.shows.step hresized.follows
    · intro _ o' hun
      exact h.unwritten hun
  | getOrCreatePage index answers =>
    simp only [exec, wp_bind]
    apply wp_imp (findOrCreatePage_spec false answers h.sound)
    · intro _ o' hfound
      exact h.same hfound.1 hfound.2.1
    · intro _ o' hfound
      exact h.same hfound.1 hfound.2
  | fault index writable answers =>
    simp only [exec, wp_bind]
    apply wp_imp (fault_spec writable answers h.sound hin)
    · intro _ o' hfault
      exact h.same hfault.1 hfault.2
    · intro _ o' hfault
      exact h.same hfault.1 hfault.2
  | page index call =>
    obtain ⟨hout, w, hw, hallowed⟩ := hc
    simp only [exec, wp_bind]
    have hquiet : ∀ {call : PageM.Call}, call.Allowed w → call.Outside →
        call.stored w.content = w.content →
        wp (fun _ => False) (onPage index call.exec) (fun _ o' => Good o' history)
          (fun _ o' => Good o' history) o := by
      intro call hallowed hout hstored
      apply wp_imp (quietPage_spec h.sound hw hallowed hout hstored)
      · intro _ o' hpage
        exact h.same hpage.1 hpage.2
      · intro _ o' hpage
        exact h.same hpage.1 hpage.2
    cases call with
    | write offset input answers => exact hout.elim
    | zero offset length answers | zeroLocked offset length | enter writable => exact hout.elim
    | storeThrough mapping offset input => exact storeThrough_spec h hw hallowed
    | _ => exact hquiet hallowed hout rfl
  | recharge used =>
    refine ⟨⟨h.sound.page, h.sound.hidden, ?_⟩, h.shows⟩
    intro account ha
    obtain ⟨account', -, rfl⟩ := Option.map_eq_some_iff.mp ha
    exact hc

theorem Reachable.good (h : Reachable InBounds σ) : Good σ.object σ.history := by
  induction h with
  | new kind account =>
    refine ⟨⟨?_, ?_, ?_⟩, rfl, fun i hi => absurd hi (Nat.not_lt_zero i)⟩
    · intro index w hw
      cases hw
    · intro index w hw
      cases hw
    · intro account' _
      exact Nat.zero_le _
  | done hσ hc hok h ih =>
    exact (wp_ok (Call.exec_spec ih hc hok) h :)
  | failed hσ hc hok h ih =>
    exact (wp_err (Call.exec_spec ih hc hok) h :)

/-- The object is the byte array that its history tells. -/
structure Refines (σ : Session) : Prop where
  length : σ.object.length = lengthOf σ.history
  read : ∀ offset total answers bytes o, ObjectM.readAt offset total answers σ.object = .ok bytes o →
    bytes.length ≤ total ∧ ∀ k < bytes.length, offset + k < σ.object.length →
      bytes[k]? = some (visible σ.history (offset + k))
  readable : ∀ offset total, offset + total ≤ 2 ^ 64 → ∃ bytes o,
    ObjectM.readAt offset total (fun _ => ⟨none, none, none⟩) σ.object = .ok bytes o ∧
      bytes.length = total
  written : ∀ offset input tail answers n o, offset + input.length < 2 ^ 64 →
    ObjectM.writeAt offset input tail answers σ.object = .ok n o →
      n ≤ input.length ∧
        o.length = if n = 0 then σ.object.length else max σ.object.length (offset + n)

theorem refines_of_good (h : Good σ.object σ.history) : Refines σ where
  length := h.shows.length
  read := by
    intro offset total answers bytes o hrun
    obtain ⟨-, -, hlen, hagrees, -⟩ :=
      wp_ok (readAt_spec (T := fun _ => True) offset total answers h.sound) hrun
    refine ⟨hlen, ?_⟩
    intro k hk hlt
    rw [hagrees k hk, h.shows.cell _ hlt]
  readable := by
    intro offset total hle
    have hread := readAt_spec (T := fun _ => False) offset total (fun _ => ⟨none, none, none⟩) h.sound
    have hgranted : AllGranted fun _ => ⟨none, none, none⟩ := fun _ => ⟨rfl, rfl, rfl⟩
    obtain ⟨bytes, o, hrun, -, -, -, -, hlen⟩ := wp_returns (wp_imp hread
      (fun _ _ h => h) (fun _ _ h => h.2.2 ⟨hgranted, hle⟩))
    exact ⟨bytes, o, hrun, hlen hgranted⟩
  written := by
    intro offset input tail answers n o hover hrun
    obtain ⟨hn, hwritten⟩ :=
      wp_ok (writeAt_spec (T := fun _ => True) offset input tail answers hover h.sound) hrun
    refine ⟨hn, ?_⟩
    rw [hwritten.follows.length]
    simp only [Event.length, List.length_take, Nat.min_eq_left hn]
    by_cases hzero : n = 0
    · simp [hzero]
    · have hne : input.take n ≠ [] := by
        intro hnil
        have := congrArg List.length hnil
        simp only [List.length_take, List.length_nil] at this
        omega
      rw [if_neg hne, if_neg hzero]

/-- In every run that maps no page wholly past the end, the object is the byte array that its
writes, resizes and stores make, and nothing stops. -/
theorem object_refines_byte_array {σ : Session} (h : Reachable InBounds σ) :
    Refines σ ∧ ∀ c : Call, c.Allowed σ.object → InBounds σ.object c →
      ∀ p, c.exec σ.object ≠ .panic p := by
  have hgood := h.good
  refine ⟨refines_of_good hgood, ?_⟩
  intro c hc hin p hrun
  exact wp_panic (Call.exec_spec hgood hc hin) hrun

def exampleGrants : PageAnswers := ⟨none, true, none, none, none⟩

theorem object_refines_byte_array_example :
    ∃ σ, Reachable InBounds σ ∧ σ.object.kind = .vnode ∧ σ.object.length = 3 ∧
      σ.history = [.resize 3, .poke 1 [9], .write 0 [7]] ∧ Refines σ := by
  have hnew : Reachable InBounds ⟨.withAccount .vnode none, []⟩ := .new .vnode none
  have hwritten := hnew.done (c := .writeAt 0 [7] exampleGrants.pageIn fun _ => exampleGrants)
    (show 0 + 1 < 2 ^ 64 by decide) trivial rfl
  have hmapped := hwritten.done (c := .fault 0 true exampleGrants) trivial (.inl rfl) rfl
  have hstored := hmapped.done (c := .page 0 (.storeThrough 0 1 [9]))
    ⟨trivial, _, rfl, _, _, rfl, rfl, rfl, by decide⟩ trivial rfl
  have hgrown := hstored.done (c := .truncate 3 exampleGrants.pageIn) trivial trivial rfl
  exact ⟨_, hgrown, rfl, rfl, rfl, (object_refines_byte_array hgrown).1⟩

/-- Anonymous objects may be mapped past their end, and growing one then shows what was stored
there. A write of no bytes does not extend an object either. -/
theorem object_exposes_stale_bytes :
    (∃ σ, Reachable (fun _ _ => True) σ ∧ σ.object.length = 2 * pageSize ∧
      visible σ.history pageSize = 0 ∧
      ∃ o, ObjectM.readAt pageSize 1 (fun _ => exampleGrants.pageIn) σ.object = .ok [9] o) ∧
    ∃ o, ObjectM.writeAt 5 [] exampleGrants.pageIn (fun _ => exampleGrants)
      (.withAccount .anonymous none) = .ok 0 o ∧ o.length = 0 := by
  constructor
  · have hnew : Reachable (fun _ _ => True) ⟨.withAccount .anonymous none, []⟩ :=
      .new .anonymous none
    have hmapped := hnew.done (c := .fault 1 true exampleGrants) trivial trivial rfl
    have hstored := hmapped.done (c := .page 1 (.storeThrough 0 0 [9]))
      ⟨trivial, _, rfl, _, _, rfl, rfl, rfl, by decide⟩ trivial rfl
    have hgrown := hstored.done (c := .truncate (2 * pageSize) exampleGrants.pageIn) trivial trivial
      rfl
    exact ⟨_, hgrown, rfl, rfl, _, rfl⟩
  · exact ⟨_, rfl, rfl⟩

end ObjectM
end Roanix.Mem
