import Mathlib.Data.List.Nodup
import Mathlib.Order.Basic

/-! A set kept as a dense list without order: every member knows its place in the list, so that a
member is removed by moving the last one into its place. -/
namespace Roanix.Lib
open Function List

def swapRemove {ι : Type} (used : List ι) (position : ℕ) : List ι :=
  match used.getLast? with
  | none => []
  | some last => (used.set position last).dropLast

/-- The list holds the members of `P`, each at the place it knows. -/
structure Dense {ι : Type} (P : ι → Prop) (used : List ι) (back : ι → ℕ) : Prop where
  listed : ∀ {j i}, used[j]? = some i → P i ∧ back i = j
  placed : ∀ {i}, P i → used[back i]? = some i

theorem getElem?_swapRemove {ι : Type} (used : List ι) (p j : ℕ) :
    (swapRemove used p)[j]? =
      if j < used.length - 1 then if j = p then used.getLast? else used[j]? else none := by
  unfold swapRemove
  cases h : used.getLast? with
  | none => simp [getLast?_eq_none_iff.mp h]
  | some last =>
    simp only [getElem?_dropLast, length_set, getElem?_set, eq_comm]
    split_ifs <;> first | rfl | omega

theorem length_swapRemove {ι : Type} (used : List ι) (p : ℕ) :
    (swapRemove used p).length = used.length - 1 := by
  unfold swapRemove
  cases h : used.getLast? with
  | none => simp [getLast?_eq_none_iff.mp h]
  | some last => simp

namespace Dense
variable {ι : Type} {P P' : ι → Prop} {used : List ι} {back : ι → ℕ} {i : ι}

theorem empty (back : ι → ℕ) : Dense (fun _ => False) [] back :=
  ⟨fun h => by simp at h, fun h => h.elim⟩

section
variable (h : Dense P used back)
include h

theorem congr (hP : ∀ i, P' i ↔ P i) : Dense P' used back :=
  ⟨fun hj => ⟨(hP _).mpr (h.listed hj).1, (h.listed hj).2⟩, fun hi => h.placed ((hP _).mp hi)⟩

theorem mem_iff : i ∈ used ↔ P i := by
  refine ⟨fun hi => ?_, fun hi => mem_of_getElem? (h.placed hi)⟩
  obtain ⟨j, hj⟩ := mem_iff_getElem?.mp hi
  exact (h.listed hj).1

theorem back_lt (hi : P i) : back i < used.length :=
  (List.getElem?_eq_some_iff.mp (h.placed hi)).1

theorem nodup : used.Nodup := by
  rw [List.nodup_iff_getElem?_ne_getElem?]
  intro j k hjk hk heq
  have hsome := getElem?_eq_getElem hk
  have hj := h.listed (heq.trans hsome)
  have hk' := h.listed hsome
  omega

end

variable [DecidableEq ι]

theorem push (h : Dense P used back) (hi : ¬P i) :
    Dense (fun k => k = i ∨ P k) (used ++ [i]) (update back i used.length) := by
  refine ⟨fun {j k} hj => ?_, fun {k} hk => ?_⟩
  · rw [getElem?_append] at hj
    split_ifs at hj with hlt
    · have hk := h.listed hj
      have hne : k ≠ i := fun he => hi (he ▸ hk.1)
      exact ⟨.inr hk.1, by rw [update_of_ne hne, hk.2]⟩
    · obtain ⟨hz, rfl⟩ : j - used.length = 0 ∧ i = k := by
        simpa [getElem?_singleton] using hj
      exact ⟨.inl rfl, by rw [update_self]; omega⟩
  · by_cases hki : k = i
    · subst hki
      simp
    · have hP := hk.resolve_left hki
      rw [update_of_ne hki, getElem?_append_left (h.back_lt hP), h.placed hP]

/-- The places after the last member has moved to a removed one's place. -/
def moved (used : List ι) (back : ι → ℕ) (position : ℕ) : ι → ℕ :=
  match (swapRemove used position)[position]? with
  | some k => update back k position
  | none => back

theorem remove (h : Dense P used back) (hi : P i) :
    Dense (fun k => k ≠ i ∧ P k) (swapRemove used (back i)) (moved used back (back i)) := by
  have hlt := h.back_lt hi
  obtain ⟨last, hlast⟩ : ∃ last, used[used.length - 1]? = some last :=
    ⟨_, getElem?_eq_getElem (by omega)⟩
  have hget : ∀ j, (swapRemove used (back i))[j]? =
      if j < used.length - 1 then if j = back i then some last else used[j]? else none := by
    intro j
    rw [getElem?_swapRemove, getLast?_eq_getElem?, hlast]
  obtain ⟨hPlast, hblast⟩ := h.listed hlast
  -- the removed member is the last one, or the last one takes its place
  have hmoved : ∀ k, P k → k ≠ i →
      moved used back (back i) k = if k = last then back i else back k := by
    intro k hk hki
    unfold moved
    rw [hget, if_pos rfl]
    split_ifs with h1 h2 h2
    · rw [h2]
      simp only [update_self]
    · simp only [update_of_ne h2]
    · have heq : used[back i]? = some last := by rw [← hlast]; congr 1; omega
      rw [h.placed hi] at heq
      exact absurd (h2.trans (Option.some.inj heq).symm) hki
    · rfl
  refine ⟨fun {j k} hj => ?_, fun {k} hk => ?_⟩
  · rw [hget] at hj
    split_ifs at hj with h1 h2
    · obtain rfl := Option.some.inj hj
      have hne : last ≠ i := by
        rintro rfl
        omega
      exact ⟨⟨hne, hPlast⟩, by rw [hmoved _ hPlast hne, if_pos rfl, h2]⟩
    · obtain ⟨hk, hbk⟩ := h.listed hj
      have hne : k ≠ i := by
        rintro rfl
        exact h2 hbk.symm
      have hnl : k ≠ last := by
        rintro rfl
        omega
      exact ⟨⟨hne, hk⟩, by rw [hmoved k hk hne, if_neg hnl, hbk]⟩
  · obtain ⟨hne, hP⟩ := hk
    rw [hmoved k hP hne, hget]
    have hbk := h.placed hP
    have hbne : back k ≠ back i := by
      intro he
      rw [he, h.placed hi] at hbk
      exact hne (Option.some.inj hbk).symm
    have hblt := h.back_lt hP
    by_cases hkl : k = last
    · subst hkl
      rw [if_pos rfl, if_pos (by omega), if_pos rfl]
    · have hbl : back k ≠ used.length - 1 := by
        intro he
        rw [he, hlast] at hbk
        exact hkl (Option.some.inj hbk).symm
      rw [if_neg hkl, if_pos (by omega), if_neg hbne, hbk]

omit [DecidableEq ι] in
theorem map {κ : Type} (h : Dense P used back) (f : ι → κ) {back' : κ → ℕ}
    (hback : ∀ i, P i → back' (f i) = back i) :
    Dense (fun k => ∃ i, P i ∧ f i = k) (used.map f) back' := by
  refine ⟨fun {j k} hj => ?_, fun {k} hk => ?_⟩
  · rw [getElem?_map, Option.map_eq_some_iff] at hj
    obtain ⟨i, hi, rfl⟩ := hj
    exact ⟨⟨i, (h.listed hi).1, rfl⟩, by rw [hback i (h.listed hi).1, (h.listed hi).2]⟩
  · obtain ⟨i, hi, rfl⟩ := hk
    rw [hback i hi, getElem?_map, h.placed hi, Option.map_some]

end Dense
end Roanix.Lib
