import Roanix.Lib.Machine
import Roanix.Lib.Safe
import Roanix.Mem.Object.Basic

/-! Objects that are charged to one page account, as those of a mount are: what the account has in
use is the number of their pages, whatever is made, cut off, dropped or refused. -/
namespace Roanix.Mem
open Lib PageM Index

namespace ObjectM
open Act VmObject

def drop : ObjectM Unit := do
  removeMappingsFrom 0 ((← get).pages.entries.map Prod.fst)
  release (← get).pages.entries.length

/-- The account has the object's pages in use and `others` more, and no more than it may. -/
structure Charged (limit : Option ℕ) (others : ℕ) (o : VmObject) : Prop where
  account : o.account = some ⟨others + o.pages.entries.length, limit⟩
  within : ∀ n, limit = some n → others + o.pages.entries.length ≤ n

theorem Charged.of_length {limit : Option ℕ} {others : ℕ} {o o' : VmObject}
    (h : Charged limit others o) (ha : o'.account = o.account)
    (hp : o'.pages.entries.length = o.pages.entries.length) : Charged limit others o' := by
  refine ⟨?_, ?_⟩
  · rw [ha, hp, h.account]
  · rw [hp]
    exact h.within

/-- What concerns the account keeps it right, and no release of it fails. -/
abbrev Balanced {α : Type} (limit : Option ℕ) (others : ℕ) (m : ObjectM α) : Prop :=
  Stable (· ≠ .pageAccountUnderflow) (Charged limit others) m

abbrev Quiet {α : Type} (m : PageM α) : Prop :=
  Stable (· ≠ .pageAccountUnderflow) (fun _ => True) m

variable {α : Type} {limit : Option ℕ} {others : ℕ} {o : VmObject}

theorem balanced_onPage {m : PageM α} (hm : Quiet m) (index : ℕ) :
    Balanced limit others (onPage index m) := by
  intro o h
  unfold wp onPage
  cases hw : o.pages.get index with
  | none => simp
  | some w =>
    have hquiet := hm w trivial
    unfold wp at hquiet
    dsimp only
    cases hrun : m w with
    | ok a w' | err a w' => exact h.of_length rfl (length_insert_of_some hw w')
    | panic p =>
      rw [hrun] at hquiet
      exact hquiet

theorem quiet_modify (g : PageWorld → PageWorld) : Quiet (modify g) := stable_modify fun _ _ => trivial

theorem quiet_pageInFrame (previous : PageBacking) (answers : PageInAnswers) :
    Quiet (pageInFrame previous answers) := by
  unfold pageInFrame
  split
  · exact stable_pure _
  · split
    · exact stable_pure _
    · refine stable_get.bind fun w => ?_
      split
      · exact stable_pure _
      · split <;> exact stable_pure _
    · refine Stable.bind ?_ fun loaded => ?_
      · unfold swapLoad
        split
        · exact stable_pure _
        · refine stable_get.bind fun w => ?_
          split <;> exact stable_pure _
      · split <;> exact stable_pure _
    · exact stable_stop (by decide)

theorem quiet_pageIn (location : PageLocation) (answers : PageInAnswers) :
    Quiet (pageIn location answers) := by
  unfold pageIn
  refine stable_get.bind fun w => (quiet_modify _).bind fun _ =>
    (quiet_pageInFrame _ _).bind fun loaded => ?_
  unfold publish
  refine stable_get.bind fun w' => ?_
  split
  · split
    · exact (quiet_modify _).bind fun _ => stable_fail _
    · refine Stable.bind ?_ fun _ => (quiet_modify _).bind fun _ => (quiet_modify _).bind fun _ =>
        stable_pure _
      unfold retain
      split
      · exact quiet_modify _
      · exact stable_pure _
  · exact stable_stop (by decide)

theorem quiet_residentBacking (answers : PageInAnswers) : Quiet (residentBacking answers) := by
  unfold residentBacking
  refine stable_get.bind fun w => ?_
  split
  · exact stable_pure _
  · exact stable_stop (by decide)
  · exact quiet_pageIn _ _
  · exact quiet_pageIn _ _
  · exact quiet_pageIn _ _

theorem quiet_validateRange (offset length : ℕ) : Quiet (validateRange offset length) := by
  unfold validateRange
  split_ifs
  · exact stable_pure _
  · exact stable_fail _

theorem quiet_modifyFrame (frame : PageFrame) (offset : ℕ) (input : List UInt8) :
    Quiet (modifyFrame frame offset input) := (quiet_modify _).bind fun _ => quiet_modify _

theorem quiet_write (offset : ℕ) (input : List UInt8) (answers : PageInAnswers) :
    Quiet (write offset input answers) := by
  refine (quiet_validateRange _ _).bind fun _ => ?_
  split_ifs
  · exact stable_pure _
  · exact (quiet_residentBacking _).bind fun _ => quiet_modifyFrame _ _ _

theorem quiet_zeroLocked (offset length : ℕ) : Quiet (zeroLocked offset length) := by
  refine (quiet_validateRange _ _).bind fun _ => stable_get.bind fun w => ?_
  split
  · exact stable_pure _
  · exact quiet_modifyFrame _ _ _
  · exact stable_fail _

theorem quiet_removeMappings : Quiet removeMappings := by
  refine stable_get.bind fun w => ?_
  split
  · exact quiet_modify _
  · exact stable_pure _

theorem balanced_findOrCreatePage (index : ℕ) (checkLength : Bool) (answers : PageAnswers) :
    Balanced limit others (findOrCreatePage index checkLength answers) := by
  refine Stable.bind (m := validate index checkLength) ?_ fun _ => ?_
  · refine stable_get.bind fun o => ?_
    split_ifs
    · exact stable_fail _
    · exact stable_pure _
  intro o h
  rw [wp_bind, wp_get]
  cases hw : o.pages.get index with
  | some w => exact h
  | none =>
    unfold createPage
    cases answers.create with
    | some e => exact h
    | none =>
      simp only [wp_ite, wp_bind, wp_fail, charge, wp_get, h.account, PageAccount.reserve]
      split_ifs with hgranted hword hlimit
      · exact h
      · exact h
      · have hlen := length_insert_of_none hw ⟨.newZeroIn, [], 0⟩
        refine ⟨?_, ?_⟩
        · simp only [hlen]
          rfl
        · intro n hn
          simp only [hn, Option.any_some, decide_eq_true_eq, not_lt] at hlimit
          rw [hlen]
          exact hlimit
      · exact h

theorem balanced_pin (index : ℕ) (answers : PageInAnswers) :
    Balanced limit others (pin index answers) := by
  refine stable_get.bind fun o => ?_
  split
  · exact stable_pure _
  · split_ifs
    · exact stable_pure _
    · exact balanced_onPage ((quiet_residentBacking _).bind fun _ => stable_pure _) _

theorem balanced_clearTail (index tail count : ℕ) :
    Balanced limit others (clearTail index tail count) := by
  refine stable_get.bind fun o => ?_
  split
  · exact stable_pure _
  · refine (balanced_onPage quiet_removeMappings _).bind fun _ =>
      (balanced_onPage (quiet_zeroLocked _ _) _).attempt.bind fun r => ?_
    split
    · exact stable_stop (by decide)
    · exact stable_pure _

theorem balanced_pinTail (size : ℕ) (answers : PageInAnswers) :
    Balanced limit others (pinTail size answers) := by
  unfold pinTail
  split_ifs
  · exact stable_pure _
  · exact balanced_pin _ _

theorem balanced_clearFrom (size count : ℕ) : Balanced limit others (clearFrom size count) := by
  unfold clearFrom
  split_ifs
  · exact stable_pure _
  · exact balanced_clearTail _ _ _

theorem balanced_finishWrite (offset written : ℕ) :
    Balanced limit others (finishWrite offset written) := by
  unfold finishWrite
  split_ifs
  · exact stable_pure _
  · exact stable_fail _
  · exact (stable_modify fun o h => h.of_length rfl rfl).bind fun _ => stable_pure _

theorem balanced_writeLoop (offset : ℕ) (input : List UInt8) (tail : PageInAnswers)
    (answers : ℕ → PageAnswers) (fuel written : ℕ) :
    Balanced limit others (writeLoop offset input tail answers fuel written) := by
  induction fuel generalizing written with
  | zero => exact (stable_check (by decide)).bind fun _ => balanced_finishWrite _ _
  | succ fuel ih =>
    unfold writeLoop
    dsimp only
    split
    · exact balanced_finishWrite _ _
    split
    · exact stable_fail _
    split
    · exact stable_fail _
    refine Stable.bind (m := exposeFor written (offset + written) tail) ?_ fun _ =>
      Stable.bind (Stable.attempt ?_) fun r => ?_
    · refine stable_get.bind fun o => ?_
      unfold zeroExposedTail
      split_ifs
      · exact stable_pure _
      · exact (balanced_pinTail _ _).bind fun _ => balanced_clearFrom _ _
      · exact stable_pure _
    · exact (balanced_findOrCreatePage _ _ _).bind fun _ => balanced_onPage (quiet_write _ _ _) _
    · split
      · split_ifs
        · exact stable_fail _
        · exact balanced_finishWrite _ _
      · exact ih _

theorem balanced_removeMappingsFrom (first : ℕ) (indexes : List ℕ) :
    Balanced limit others (removeMappingsFrom first indexes) := by
  induction indexes with
  | nil => exact stable_pure _
  | cons index rest ih =>
    unfold removeMappingsFrom
    split_ifs
    · exact (balanced_onPage quiet_removeMappings _).bind fun _ => ih
    · exact ih

theorem balanced_truncate (size : ℕ) (answers : PageInAnswers) :
    Balanced limit others (truncate size answers) := by
  refine stable_get.bind fun o => ?_
  have hlength : Balanced limit others (setLength size) := stable_modify fun o h => h.of_length rfl rfl
  dsimp only
  split_ifs
  · exact stable_pure _
  · exact (balanced_pinTail _ _).bind fun _ => (balanced_clearFrom _ _).bind fun _ =>
      hlength.bind fun _ => stable_pure _
  · refine (balanced_pinTail _ _).bind fun _ => stable_get.bind fun o =>
      (balanced_removeMappingsFrom _ _).bind fun _ => (balanced_clearFrom _ _).bind fun _ =>
      hlength.bind fun _ => ?_
    -- what is split off is released
    intro o h
    have hle : (o.pages.filter fun index _ => index < pagesFor size).entries.length ≤
      o.pages.entries.length := List.length_filter_le _ _
    simp only [splitOff, release, wp_bind, wp_get, wp_modify, wp_pure, h.account]
    rw [wp_check (by omega)]
    refine ⟨?_, fun n hn => (Nat.add_le_add_left hle _).trans (h.within n hn)⟩
    simp only [Option.some.injEq, PageAccount.mk.injEq, and_true]
    omega

theorem drop_spec (h : Charged limit others o) :
    wp (· ≠ .pageAccountUnderflow) drop (fun _ o' => o'.account = some ⟨others, limit⟩)
      (fun _ _ => True) o := by
  unfold drop
  simp only [wp_bind, wp_get]
  refine wp_imp (balanced_removeMappingsFrom _ _ o h) (fun _ o' h' => ?_) fun _ _ _ => trivial
  simp only [release, wp_bind, wp_get, h'.account]
  rw [wp_check (Nat.le_add_left _ _), wp_modify, Nat.add_sub_cancel]

end ObjectM

/-- An account, and the objects charged to it by their ids. -/
structure Charges where
  account : PageAccount
  objects : Index ℕ VmObject

namespace Charges
open ObjectM Act

inductive Call where
  | getOrCreatePage (index : ℕ) (answers : PageAnswers)
  | faultPage (index : ℕ) (answers : PageAnswers)
  | writeAt (offset : ℕ) (input : List UInt8) (tail : PageInAnswers) (answers : ℕ → PageAnswers)
  | truncate (size : ℕ) (answers : PageInAnswers)

def Call.exec : Call → ObjectM Unit
  | .getOrCreatePage index answers => ObjectM.getOrCreatePage index answers
  | .faultPage index answers => ObjectM.faultPage index answers
  | .writeAt offset input tail answers => discard (ObjectM.writeAt offset input tail answers)
  | .truncate size answers => discard (ObjectM.truncate size answers)

def shared (s : Charges) (o : VmObject) : VmObject := { o with account := some s.account }

def settle (s : Charges) (o : VmObject) (objects : Index ℕ VmObject) : Charges :=
  ⟨o.account.getD s.account, objects⟩

def pageCount (s : Charges) : ℕ := s.objects.sum fun _ o => o.pages.entries.length

/-- Objects come and go and are called; what else happens to a page leaves it in its object. -/
inductive Step : Charges → Charges → Prop
  | new {s : Charges} (id : ℕ) (kind : ObjectKind) (h : s.objects.get id = none) :
      Step s { s with objects := s.objects.insert id (.withAccount kind none) }
  | call {s : Charges} (id : ℕ) {o o' : VmObject} (c : Call) (h : s.objects.get id = some o)
      (hrun : c.exec.Leaves (s.shared o) o') : Step s (s.settle o' (s.objects.insert id o'))
  | page {s : Charges} {id index : ℕ} {o : VmObject} {w : PageWorld} (w' : PageWorld)
      (h : s.objects.get id = some o) (hw : o.pages.get index = some w) :
      Step s { s with objects := s.objects.insert id { o with pages := o.pages.insert index w' } }
  | drop {s : Charges} {id : ℕ} {o o' : VmObject} (h : s.objects.get id = some o)
      (hrun : ObjectM.drop (s.shared o) = .ok () o') : Step s (s.settle o' (s.objects.remove id))

def machine : Machine Charges where
  init s := s.account.used = 0 ∧ s.objects = .empty
  step := Step

structure Exact (s : Charges) : Prop where
  used : s.account.used = s.pageCount
  within : ∀ n, s.account.limit = some n → s.account.used ≤ n

variable {s s' : Charges} {id : ℕ} {o : VmObject} {limit : Option ℕ} {others : ℕ}

theorem Exact.charged (h : Exact s) (ho : s.objects.get id = some o) :
    Charged s.account.limit ((s.objects.remove id).sum fun _ o => o.pages.entries.length)
      (s.shared o) := by
  have hused := h.used
  rw [pageCount, sum_of_get _ ho] at hused
  refine ⟨?_, fun n hn => ?_⟩
  · simp only [shared, ← hused]
  · simp only [shared, ← hused]
    exact h.within n hn

theorem Call.balanced (c : Call) : Balanced limit others c.exec := by
  cases c with
  | getOrCreatePage index answers => exact balanced_findOrCreatePage _ _ _
  | faultPage index answers => exact balanced_findOrCreatePage _ _ _
  | writeAt offset input tail answers =>
    exact (balanced_writeLoop _ _ _ _ _ _).bind fun _ => stable_pure _
  | truncate size answers => exact (balanced_truncate _ _).bind fun _ => stable_pure _

theorem Exact.step (h : Exact s) (hstep : Step s s') : Exact s' := by
  cases hstep with
  | @new id kind hid =>
    refine ⟨?_, h.within⟩
    rw [pageCount, sum_insert, remove_of_none hid]
    exact h.used
  | @call id o o' c ho hrun =>
    have hc : Charged s.account.limit ((s.objects.remove id).sum fun _ o => o.pages.entries.length) o' :=
      wp_leaves (c.balanced _ (h.charged ho)) hrun (fun _ hc => hc) fun _ hc => hc
    refine ⟨?_, ?_⟩
    · simp only [settle, pageCount, sum_insert, hc.account, Option.getD_some]
    · simp only [settle, hc.account, Option.getD_some]
      exact hc.within
  | @page id index o w w' ho hw =>
    refine ⟨?_, h.within⟩
    rw [pageCount, sum_insert, length_insert_of_some hw, ← sum_of_get _ ho]
    exact h.used
  | @drop id o o' ho hrun =>
    have hc := wp_ok (drop_spec (h.charged ho)) hrun
    refine ⟨?_, ?_⟩
    · simp only [settle, pageCount, hc, Option.getD_some]
    · intro n hn
      simp only [settle, hc, Option.getD_some] at hn ⊢
      exact (Nat.le_add_right _ _).trans ((h.charged ho).within n hn)

/-- In every run an account has in use just the pages of its objects and no more than its limit,
and no release of it fails. -/
theorem account_conserved (h : machine.Reachable s) :
    s.account.used = s.pageCount ∧ (∀ n, s.account.limit = some n → s.account.used ≤ n) ∧
      ∀ id o, s.objects.get id = some o →
        (∀ c : Call, c.exec (s.shared o) ≠ .panic .pageAccountUnderflow) ∧
          ObjectM.drop (s.shared o) ≠ .panic .pageAccountUnderflow := by
  have hexact : Exact s := by
    refine h.invariant (I := Exact) (fun s hs => ?_) fun s s' hs hstep => hs.step hstep
    obtain ⟨hused, hobjects⟩ := hs
    refine ⟨?_, ?_⟩
    · rw [pageCount, hobjects, hused]
      rfl
    · intro n _
      rw [hused]
      exact Nat.zero_le n
  refine ⟨hexact.used, hexact.within, fun id o ho => ⟨fun c hrun => ?_, fun hrun => ?_⟩⟩
  · exact wp_panic (c.balanced _ (hexact.charged ho)) hrun rfl
  · exact wp_panic (drop_spec (hexact.charged ho)) hrun rfl

theorem account_conserved_example : ∃ s : Charges, machine.Reachable s ∧ s.account = ⟨1, some 1⟩ ∧
    s.account.used = s.pageCount := by
  have h : machine.Reachable ⟨⟨0, some 1⟩, .empty⟩ := .init ⟨rfl, rfl⟩
  have h := h.step (.new 7 .vnode rfl)
  have h := h.step (.call 7 (.getOrCreatePage 0 ⟨none, true, ⟨none, none, none⟩⟩) rfl (.inl ⟨(), rfl⟩))
  have h := h.step (.call 7 (.getOrCreatePage 1 ⟨none, true, ⟨none, none, none⟩⟩) rfl
    (.inr ⟨.limitExceeded, rfl⟩))
  exact ⟨_, h, rfl, (account_conserved h).1⟩

end Charges
end Roanix.Mem
