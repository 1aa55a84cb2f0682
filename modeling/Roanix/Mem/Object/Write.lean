import Roanix.Mem.Object.Contents

/-! Writing to an object, page by page; the length is published at the end. Growing an object clears
the page that the old end cuts, shrinking forgets the pages beyond the new end and clears the page it
cuts. -/
namespace Roanix.Mem
open Lib Lib.File List Event

namespace VmObject
variable {o : VmObject} {extent extent' : ℕ}

theorem Sound.mono (h : o.Sound extent) (hle : extent ≤ extent') : o.Sound extent' := by
  have hpages : pagesFor extent ≤ pagesFor extent' := Nat.div_le_div_right (by omega)
  exact { h with hidden := fun index w hw hi => h.hidden index w hw (hpages.trans hi) }

theorem div_lt_pagesFor {position : ℕ} (h : position < extent) :
    position / pageSize < pagesFor extent := by
  unfold pagesFor pageSize pageShift
  omega

end VmObject

namespace ObjectM
open Act VmObject PageWorld
variable {T : Panic → Prop} {o : VmObject} {extent index : ℕ}
variable {i position written : ℕ} {window : List UInt8}

theorem reserve_used {account account' : PageAccount} (h : account.reserve = .ok account') :
    account'.used = account.used + 1 := by
  unfold PageAccount.reserve at h
  dsimp only at h
  split_ifs at h
  cases h
  rfl

theorem charge_spec :
    wp T charge (fun _ o' => o'.pages = o.pages ∧ o'.kind = o.kind ∧ o'.length = o.length ∧
        ∀ account', o'.account = some account' →
          ∃ account, o.account = some account ∧ account'.used = account.used + 1)
      (fun _ o' => o' = o) o := by
  unfold charge
  rw [wp_bind, wp_get]
  cases ha : o.account with
  | none => exact ⟨rfl, rfl, rfl, fun account' h => by simp [ha] at h⟩
  | some account =>
    dsimp only
    cases hr : account.reserve with
    | error e => exact rfl
    | ok account' =>
      refine ⟨rfl, rfl, rfl, ?_⟩
      intro account'' h
      obtain rfl : account' = account'' := by simpa using h
      exact ⟨account, rfl, reserve_used hr⟩

theorem createPage_spec (answers : PageAnswers) (h : o.Sound extent)
    (hw : o.pages.get index = none) :
    wp T (createPage index answers)
      (fun _ o' => o'.Sound extent ∧ o.Same o' ∧ ∃ w, o'.pages.get index = some w)
      (fun _ o' => o'.Sound extent ∧ o.Same o') o := by
  unfold createPage
  cases answers.create with
  | some e => exact ⟨h, .refl o⟩
  | none =>
    split_ifs
    · rw [wp_bind]
      apply wp_imp charge_spec _ _
      rotate_left
      · intro e o' ho
        subst ho
        exact ⟨h, .refl o'⟩
      rintro _ o' ⟨hpages, hkind, hlength, haccount⟩
      rw [wp_modify]
      refine ⟨⟨?_, ?_, ?_⟩, ⟨hkind, hlength, ?_⟩, ?_⟩
      · intro k v hv
        rw [Index.get_insert, hpages] at hv
        split_ifs at hv with hk
        · obtain rfl := Option.some.inj hv
          exact ⟨⟨rfl, rfl, rfl⟩, rfl⟩
        · exact h.page k v hv
      · intro k v hv hle
        rw [Index.get_insert, hpages] at hv
        split_ifs at hv with hk
        · obtain rfl := Option.some.inj hv
          exact ⟨rfl, fun f hf => by cases hf⟩
        · exact h.hidden k v hv hle
      · intro account' ha
        obtain ⟨account, ha', hused⟩ := haccount account' ha
        rw [hpages, Index.length_insert_of_none hw, hused]
        exact Nat.succ_le_succ (h.charged account ha')
      · intro i
        unfold VmObject.byteAt
        rw [Index.get_insert, hpages]
        split_ifs with hi
        · rw [hi, hw]
          exact Page.byte_default _
        · rfl
      · exact ⟨_, by rw [Index.get_insert, if_pos rfl]⟩
    · exact ⟨h, .refl o⟩

theorem findOrCreatePage_spec (checkLength : Bool) (answers : PageAnswers) (h : o.Sound extent) :
    wp T (findOrCreatePage index checkLength answers)
      (fun _ o' => o'.Sound extent ∧ o.Same o' ∧ (∃ w, o'.pages.get index = some w) ∧
        (checkLength = true → o.kind = .vnode → index < pagesFor o.length))
      (fun _ o' => o'.Sound extent ∧ o.Same o') o := by
  unfold findOrCreatePage validate
  simp only [wp_bind, wp_get]
  split_ifs with hv
  · exact ⟨h, .refl o⟩
  · rw [wp_pure]
    have hin : checkLength = true → o.kind = .vnode → index < pagesFor o.length := by
      intro hc hk
      by_contra hle
      exact hv ⟨hc, hk, by omega⟩
    cases hw : o.pages.get index with
    | some w => exact ⟨h, .refl o, ⟨w, hw⟩, hin⟩
    | none =>
      apply wp_post (createPage_spec answers h hw)
      rintro _ o' ⟨hsound, hsame, hget⟩
      exact ⟨hsound, hsame, hget, hin⟩

theorem stored_in_page (window : List UInt8) (hdiv : i / pageSize = position / pageSize) :
    (write position window).stored i =
      if position % pageSize ≤ i % pageSize then window[i % pageSize - position % pageSize]?
      else none := by
  have hle : position ≤ i ↔ position % pageSize ≤ i % pageSize := by
    unfold pageSize pageShift at *
    omega
  have hsub : i - position = i % pageSize - position % pageSize := by
    unfold pageSize pageShift at *
    omega
  simp only [stored, hle, hsub]

theorem stored_elsewhere (hfit : position % pageSize + window.length ≤ pageSize)
    (hdiv : i / pageSize ≠ position / pageSize) :
    (write position window).stored i = none := by
  by_cases hlt : i < position
  · exact stored_write_of_lt window hlt
  · apply stored_write_of_ge
    unfold pageSize pageShift at *
    omega

theorem storePage_spec (answers : PageAnswers) (h : o.Sound extent) (hne : window ≠ [])
    (hfit : position % pageSize + window.length ≤ pageSize)
    (hclear : ∀ i, extent ≤ i → i < position → o.byteAt i = 0) :
    wp T (storePage position window answers)
      (fun _ o' => o'.kind = o.kind ∧ o'.length = o.length ∧
        o'.Sound (max extent (position + window.length)) ∧
        Follows (.write position window) extent o.byteAt
          (max extent (position + window.length)) o'.byteAt)
      (fun _ o' => o'.Sound extent ∧ o.Same o') o := by
  have hpos : 0 < window.length := length_pos_iff.mpr hne
  unfold storePage getOrCreatePage
  rw [wp_bind]
  apply wp_post (findOrCreatePage_spec false answers h)
  rintro _ o₁ ⟨hsound, hsame, ⟨w, hw⟩, _⟩
  apply wp_onPage hw
  have hanon := hsound.page _ w hw
  apply wp_imp (PageM.write_spec (position % pageSize) window hanon.holds answers.pageIn)
  · intro _ w' hgives
    refine ⟨hsame.kind, hsame.length, ?_, ?_⟩
    · apply (hsound.mono (by omega)).setPage hw (hanon.given hgives)
      intro hle
      have hlt := div_lt_pagesFor (show position < max extent (position + window.length) by omega)
      omega
    · refine ⟨by simp only [Event.length, if_neg hne], ?_⟩
      intro i hi
      rw [byteAt_setPage, hgives.holds.content_eq]
      unfold Event.cell
      by_cases hdiv : i / pageSize = position / pageSize
      · rw [if_pos hdiv]
        -- within the page that was written
        rw [stored_in_page window hdiv, Page.byte_overwrite _ hfit]
        have hold : w.content.byte (i % pageSize) = o.byteAt i := by
          rw [← byteAt_of_get hw hdiv, hsame.byteAt]
        by_cases hlo : position % pageSize ≤ i % pageSize
        · simp only [if_pos hlo]
          by_cases hhi : i % pageSize - position % pageSize < window.length
          · simp only [getElem?_eq_getElem hhi, Option.getD_some]
          · simp only [getElem?_eq_none (Nat.le_of_not_lt hhi), Option.getD_none]
            rw [hold, if_neg]
            unfold pageSize pageShift at *
            omega
        · rw [hold]
          split_ifs with hout
          · apply hclear i hout
            unfold pageSize pageShift at *
            omega
          · rfl
      · rw [stored_elsewhere hfit hdiv, hsame.byteAt]
        split_ifs with hout
        · apply hclear i hout
          unfold pageSize pageShift at *
          omega
        · rfl
  · intro e w' hgives
    obtain ⟨hsound', hsame'⟩ := hsound.setPage_same hw hgives
    exact ⟨hsound', hsame.trans hsame'⟩

theorem zeroExposedTail_spec (answers : PageInAnswers) (h : o.Sound extent)
    (hlt : extent < position) :
    wp T (zeroExposedTail extent position answers)
      (fun _ o' => o'.Sound extent ∧ Exposed o o' extent position)
      (fun _ o' => o'.Sound extent ∧ o.Same o') o := by
  unfold zeroExposedTail
  rw [if_neg (by omega), wp_bind]
  apply expose_spec h
  · intro o' hsound hexp
    exact ⟨hsound, hexp⟩
  · intro e o' hsound hsame
    exact ⟨hsound, hsame⟩

/-- A transfer under way: so many bytes are stored, and the length is yet to be published. -/
structure Underway (start o : VmObject) (offset : ℕ) (data : List UInt8) (extent : ℕ) : Prop where
  kind : o.kind = start.kind
  length : o.length = start.length
  sound : o.Sound extent
  follows : Follows (.write offset data) start.length start.byteAt extent o.byteAt

structure Unwritten (start o : VmObject) : Prop where
  kind : o.kind = start.kind
  length : o.length = start.length
  sound : o.Sound start.length
  byteAt : ∀ i < start.length, o.byteAt i = start.byteAt i

variable {start : VmObject} {offset : ℕ} {data : List UInt8}

theorem Underway.extent_eq (h : Underway start o offset data extent) (hne : data ≠ []) :
    extent = max start.length (offset + data.length) := by
  rw [h.follows.length]
  simp only [Event.length, if_neg hne]

theorem Underway.unwritten (h : Underway start o offset [] extent) : Unwritten start o := by
  have hextent : extent = start.length := h.follows.length
  subst hextent
  refine { h with byteAt := ?_ }
  intro i hi
  rw [h.follows.cell i hi]
  unfold Event.cell
  rw [show (write offset ([] : List UInt8)).stored i = none by simp [stored]]
  exact if_neg (by omega)

structure Written (start o : VmObject) (offset : ℕ) (data : List UInt8) : Prop where
  kind : o.kind = start.kind
  sound : o.Sound o.length
  follows : Follows (.write offset data) start.length start.byteAt o.length o.byteAt

theorem finishWrite_spec {E : Error → VmObject → Prop} (h : Underway start o offset data extent)
    (hlen : data.length = written) (hover : offset + written < 2 ^ 64) :
    wp T (finishWrite offset written) (fun n o' => n = written ∧ Written start o' offset data) E o := by
  unfold finishWrite
  by_cases hzero : written = 0
  · rw [if_pos hzero]
    obtain rfl := eq_nil_of_length_eq_zero (hlen.trans hzero)
    have hextent : extent = o.length := h.follows.length.trans h.length.symm
    subst hextent
    exact ⟨rfl, h.kind, h.sound, h.follows⟩
  · rw [if_neg hzero, if_neg (by omega), wp_bind]
    have hne : data ≠ [] := by
      rintro rfl
      exact hzero (hlen.symm.trans length_nil)
    have hextent : extent = max o.length (offset + written) := by
      rw [h.extent_eq hne, h.length, hlen]
    subst hextent
    exact ⟨rfl, h.kind, { h.sound with }, h.follows⟩

theorem exposeFor_spec (tail : PageInAnswers) (h : Underway start o offset data extent)
    (hlen : data.length = written) :
    wp T (exposeFor written (offset + written) tail)
      (fun _ o' => Underway start o' offset data extent ∧
        ∀ i, extent ≤ i → i < offset + written → o'.byteAt i = 0)
      (fun _ o' => Unwritten start o') o := by
  unfold exposeFor
  rw [wp_bind, wp_get]
  by_cases hfirst : written = 0 ∧ o.length < offset + written
  · rw [if_pos hfirst]
    obtain rfl := eq_nil_of_length_eq_zero (hlen.trans hfirst.1)
    have hun := h.unwritten
    obtain rfl : extent = o.length := h.follows.length.trans h.length.symm
    apply wp_imp (zeroExposedTail_spec tail h.sound hfirst.2)
    · rintro _ o' ⟨hsound, hexp⟩
      refine ⟨⟨hexp.kind.trans h.kind, hexp.length.trans h.length, hsound, ?_⟩, hexp.clear⟩
      rw [h.length]
      apply follows_write_nil
      intro i hi
      rw [hexp.below i (by rwa [h.length]), hun.byteAt i hi]
    · rintro _ o' ⟨hsound, hsame⟩
      rw [h.length] at hsound
      refine ⟨hsame.kind.trans h.kind, hsame.length.trans h.length, hsound, ?_⟩
      intro i hi
      rw [hsame.byteAt, hun.byteAt i hi]
  · rw [if_neg hfirst]
    refine ⟨h, ?_⟩
    intro i hlo hhi
    by_cases hne : data = []
    · subst hne
      have hextent : extent = o.length := h.follows.length.trans h.length.symm
      simp only [length_nil] at hlen
      omega
    · have hextent := h.extent_eq hne
      omega

section
variable (offset : ℕ) (input : List UInt8) (tail : PageInAnswers) (answers : ℕ → PageAnswers)
  (hover : offset + input.length < 2 ^ 64)
include input answers hover

theorem writeLoop_spec :
    ∀ (fuel written extent : ℕ) (o : VmObject), written ≤ input.length →
      input.length ≤ written + fuel → Underway start o offset (input.take written) extent →
      wp T (writeLoop offset input tail answers fuel written)
        (fun n o' => n ≤ input.length ∧ Written start o' offset (input.take n))
        (fun _ o' => Unwritten start o') o := by
  have hfinish : ∀ {written extent : ℕ} {o : VmObject}, written ≤ input.length →
      Underway start o offset (input.take written) extent →
      wp T (finishWrite offset written)
        (fun n o' => n ≤ input.length ∧ Written start o' offset (input.take n))
        (fun _ o' => Unwritten start o') o := by
    intro written extent o hle h
    apply wp_post (finishWrite_spec h (length_take_of_le hle) (by omega))
    rintro n o' ⟨rfl, hwritten⟩
    exact ⟨hle, hwritten⟩
  intro fuel
  induction fuel with
  | zero =>
    intro written extent o hle hfuel h
    unfold writeLoop
    rw [wp_bind, wp_check (by omega)]
    exact hfinish hle h
  | succ fuel ih =>
    intro written extent o hle hfuel h
    have htake : (input.take written).length = written := length_take_of_le hle
    unfold writeLoop
    by_cases hdone : input.length ≤ written
    · rw [if_pos hdone]
      exact hfinish hle h
    rw [if_neg hdone]
    have hmod : (offset + written) % pageSize < pageSize := Nat.mod_lt _ (by decide)
    generalize hlimit : min (pageSize - (offset + written) % pageSize) (input.length - written) =
      limit
    generalize hwindow : (input.drop written).take limit = window
    have hlen : window.length = limit := by
      rw [← hwindow, length_take, length_drop]
      omega
    have hne : window ≠ [] := by
      rintro rfl
      simp only [length_nil] at hlen
      omega
    rw [if_neg (by omega), if_neg (by omega), wp_bind]
    apply wp_post (exposeFor_spec tail h htake)
    rintro _ o₁ ⟨h₁, hclear⟩
    rw [wp_bind, wp_attempt]
    apply wp_imp (storePage_spec _ h₁.sound hne (by omega) hclear)
    · rintro _ o₂ ⟨hkind, hlength, hsound, hfollows⟩
      have hsum : input.take (written + window.length) = input.take written ++ window := by
        rw [take_add, hlen, hwindow]
      apply ih
      · omega
      · omega
      · rw [hsum]
        refine ⟨hkind.trans h₁.kind, hlength.trans h₁.length, hsound, ?_⟩
        exact h₁.follows.write_append (by rw [htake]; exact hfollows)
    · rintro e o₂ ⟨hsound, hsame⟩
      have h₂ : Underway start o₂ offset (input.take written) extent := by
        refine ⟨hsame.kind.trans h₁.kind, hsame.length.trans h₁.length, hsound, h₁.follows.length, ?_⟩
        intro i hi
        rw [hsame.byteAt, h₁.follows.cell i hi]
      split_ifs with hzero
      · subst hzero
        exact h₂.unwritten
      · exact hfinish hle h₂

theorem writeAt_spec (h : o.Sound o.length) :
    wp T (writeAt offset input tail answers)
      (fun n o' => n ≤ input.length ∧ Written o o' offset (input.take n))
      (fun _ o' => Unwritten o o') o :=
  writeLoop_spec offset input tail answers hover input.length 0 o.length o (by omega) (by omega)
    ⟨rfl, rfl, h, follows_write_nil offset fun _ _ => rfl⟩

end

variable {size : ℕ} {E : Error → VmObject → Prop}

structure Resized (start o : VmObject) (size : ℕ) : Prop where
  kind : o.kind = start.kind
  length : o.length = size
  sound : o.Sound size
  follows : Follows (.resize size) start.length start.byteAt size o.byteAt

theorem unwritten_of_same {o' : VmObject} (h : o'.Sound o.length) (hs : o.Same o') :
    Unwritten o o' :=
  ⟨hs.kind, hs.length, h, fun i _ => hs.byteAt i⟩

theorem grow_spec (answers : PageInAnswers) (h : o.Sound o.length) (hlt : o.length < size) :
    wp T (grow o.length size answers) (fun _ o' => Resized o o' size) (fun _ o' => Unwritten o o')
      o := by
  unfold grow setLength
  simp only [wp_bind, wp_pure]
  apply expose_spec h
  · intro o' hsound hexp
    have hsound' := hsound.mono hlt.le
    refine ⟨hexp.kind, rfl, { hsound' with }, rfl, ?_⟩
    intro i hi
    change o'.byteAt i = if o.length ≤ i then 0 else o.byteAt i
    split_ifs with hout
    · exact hexp.clear i hout hi
    · exact hexp.below i (by omega)
  · intro e o' hsound hsame
    exact unwritten_of_same hsound hsame

theorem removeMappingsFrom_spec (first : ℕ) :
    ∀ (keys : List ℕ) (o : VmObject), o.Sound extent →
      (∀ k ∈ keys, ∃ w, o.pages.get k = some w) →
      wp T (removeMappingsFrom first keys)
        (fun _ o' => o'.Sound extent ∧ o.Same o' ∧ ∀ k < first, o'.pages.get k = o.pages.get k)
        E o := by
  intro keys
  induction keys with
  | nil =>
    intro o h _
    exact ⟨h, .refl o, fun _ _ => rfl⟩
  | cons key rest ih =>
    intro o h hkeys
    have hrest : ∀ k ∈ rest, ∃ w, o.pages.get k = some w := fun k hk =>
      hkeys k (List.mem_cons_of_mem key hk)
    unfold removeMappingsFrom
    split_ifs with hle
    · obtain ⟨w, hw⟩ := hkeys key List.mem_cons_self
      rw [wp_bind]
      apply wp_onPage hw
      apply wp_imp (removeMappings_spec (h.page _ w hw).holds) _
        (fun _ _ h => False.elim h)
      rintro _ w' ⟨hgives, _⟩
      obtain ⟨hsound, hsame⟩ := h.setPage_same hw hgives
      have hget : ∀ k, (o.setPage key w').pages.get k =
          if k = key then some w' else o.pages.get k := by
        intro k
        exact Index.get_insert key w' o.pages k
      have hpresent : ∀ k ∈ rest, ∃ v, (o.setPage key w').pages.get k = some v := by
        intro k hk
        rw [hget]
        split_ifs
        · exact ⟨w', rfl⟩
        · exact hrest k hk
      apply wp_post (ih _ hsound hpresent)
      rintro _ o' ⟨hsound', hsame', hbelow⟩
      refine ⟨hsound', hsame.trans hsame', ?_⟩
      intro k hk
      rw [hbelow k hk, hget, if_neg (by omega)]
    · exact ih o h hrest

theorem splitOff_spec (h : o.Sound extent) (hlen : o.length = size) :
    wp T (splitOff (pagesFor size)) (fun count o' => wp T (release count)
      (fun _ o' => o'.kind = o.kind ∧ o'.length = size ∧ o'.Sound size ∧
        ∀ i < size, o'.byteAt i = o.byteAt i) E o') E o := by
  have hkept : ∀ k w, (o.pages.filter fun index _ => index < pagesFor size).get k = some w →
      o.pages.get k = some w ∧ k < pagesFor size := by
    intro k w hw
    rw [Index.get_filter, Option.filter_eq_some_iff] at hw
    exact ⟨hw.1, by simpa using hw.2⟩
  have hpage : ∀ k w, (o.pages.filter fun index _ => index < pagesFor size).get k = some w →
      w.Anonymous := fun k w hw => h.page k w (hkept k w hw).1
  have hhidden : ∀ k w, (o.pages.filter fun index _ => index < pagesFor size).get k = some w →
      pagesFor size ≤ k → w.content = default ∧ w.Unmapped := by
    intro k w hw hle
    exact absurd (hkept k w hw).2 (by omega)
  have hbytes : ∀ (o' : VmObject), o'.pages = o.pages.filter (fun index _ => index < pagesFor size) →
      ∀ i < size, o'.byteAt i = o.byteAt i := by
    intro o' ho' i hi
    have hlt := div_lt_pagesFor hi
    unfold VmObject.byteAt
    rw [ho', Index.get_filter]
    cases o.pages.get (i / pageSize) with
    | none => rfl
    | some w => simp [Option.filter, hlt]
  have hcount : (o.pages.filter fun index _ => index < pagesFor size).entries.length ≤
      o.pages.entries.length := List.length_filter_le _ _
  unfold splitOff release
  simp only [wp_bind, wp_get, wp_modify, wp_pure]
  cases ha : o.account with
  | none =>
    exact ⟨rfl, hlen, ⟨hpage, hhidden, fun account ha' => by cases ha'⟩, hbytes _ rfl⟩
  | some account =>
    have hused := h.charged account ha
    rw [wp_bind, wp_check (by omega)]
    refine ⟨rfl, hlen, ⟨hpage, hhidden, ?_⟩, hbytes _ rfl⟩
    intro account' ha'
    obtain rfl := Option.some.inj ha'
    dsimp only
    omega

theorem shrink_spec (answers : PageInAnswers) (h : o.Sound o.length) (hlt : size < o.length) :
    wp T (shrink size answers) (fun _ o' => Resized o o' size) (fun _ o' => Unwritten o o') o := by
  have hmod : size % pageSize < pageSize := Nat.mod_lt _ (by decide)
  unfold shrink setLength
  simp only [wp_bind, wp_modify]
  apply wp_imp (pinTail_spec size answers h) _
    (fun _ o' h => unwritten_of_same h.1 h.2)
  rintro _ o₁ ⟨hsound₁, hsame₁, hhand⟩
  have hkeys : ∀ k ∈ o₁.pages.entries.map Prod.fst, ∃ w, o₁.pages.get k = some w := by
    intro k hk
    obtain ⟨⟨k', w⟩, he, rfl⟩ := List.mem_map.mp hk
    exact ⟨w, Index.get_eq_some.mpr he⟩
  apply wp_post (removeMappingsFrom_spec (pagesFor size) _ o₁ hsound₁ hkeys)
  rintro _ o₂ ⟨hsound₂, hsame₂, hbelow⟩
  have hhand₂ : size % pageSize ≠ 0 →
      ∀ w, o₂.pages.get (size / pageSize) = some w → w.AtHand := by
    intro htail w hw
    rw [hbelow _ (by unfold pagesFor pageSize pageShift at *; omega)] at hw
    exact hhand htail w hw
  apply wp_post (clearFrom_spec hsound₂ (by omega) hhand₂)
  rintro _ o₃ ⟨hsound₃, hkind₃, _, hbelow₃, _⟩
  have hsound₄ : VmObject.Sound { o₃ with length := size } o.length :=
    { hsound₃ with }
  apply wp_post (splitOff_spec hsound₄ rfl)
  intro count o₄ hrelease
  apply wp_post hrelease
  rintro _ o₅ ⟨hkind, hlength, hsound, hbytes⟩
  refine ⟨?_, hlength, hsound, rfl, ?_⟩
  · rw [hkind, hkind₃, hsame₂.kind, hsame₁.kind]
  · intro i hi
    change o₅.byteAt i = if o.length ≤ i then 0 else o.byteAt i
    rw [if_neg (by omega), hbytes i hi]
    change o₃.byteAt i = o.byteAt i
    rw [hbelow₃ i hi, hsame₂.byteAt, hsame₁.byteAt]

theorem truncate_spec (size : ℕ) (answers : PageInAnswers) (h : o.Sound o.length) :
    wp T (truncate size answers) (fun _ o' => Resized o o' size) (fun _ o' => Unwritten o o') o := by
  unfold truncate
  rw [wp_bind, wp_get]
  by_cases heq : size = o.length
  · rw [if_pos heq]
    subst heq
    refine ⟨rfl, rfl, h, rfl, ?_⟩
    intro i hi
    exact (if_neg (by omega)).symm
  rw [if_neg heq]
  by_cases hlt : o.length < size
  · rw [if_pos hlt]
    exact grow_spec answers h hlt
  · rw [if_neg hlt]
    exact shrink_spec answers h (by omega)

end ObjectM
end Roanix.Mem
