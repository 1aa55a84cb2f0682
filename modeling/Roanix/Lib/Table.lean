import Mathlib.Algebra.Ring.Nat
import Mathlib.Data.List.Nodup

/-! A table of slots that are empty or hold a value, with a stack of the empty ones to reuse, and
sums over the values held. -/
namespace Roanix.Lib
open List

/-- The stack holds every empty slot of the table once. -/
structure Recycled {β : Type} (table : List (Option β)) (free : List ℕ) : Prop where
  nodup : free.Nodup
  mem_iff : ∀ i, i ∈ free ↔ table[i]? = some none

def total {β : Type} (f : β → ℕ) (table : List (Option β)) : ℕ :=
  (table.map fun o => o.elim 0 f).sum

section Total
variable {β : Type} {f g : β → ℕ} {table : List (Option β)} {i : ℕ} {o : Option β}

theorem total_set (f : β → ℕ) (h : table[i]? = some o) (new : Option β) :
    total f (table.set i new) + o.elim 0 f = total f table + new.elim 0 f := by
  unfold total
  induction table generalizing i with
  | nil => simp at h
  | cons a rest ih =>
    cases i with
    | zero =>
      obtain rfl : a = o := by simpa using h
      simp only [set_cons_zero, map_cons, sum_cons]
      omega
    | succ i =>
      have := ih (by simpa using h)
      simp only [set_cons_succ, map_cons, sum_cons]
      omega

theorem le_total {b : β} (f : β → ℕ) (h : table[i]? = some (some b)) : f b ≤ total f table := by
  have := total_set f h none
  simp only [Option.elim_some, Option.elim_none] at this
  omega

theorem total_mono (h : ∀ b, f b ≤ g b) (table : List (Option β)) : total f table ≤ total g table := by
  unfold total
  induction table with
  | nil => exact Nat.le_refl _
  | cons o rest ih =>
    cases o with
    | none => simpa using ih
    | some b => exact Nat.add_le_add (h b) ih

theorem total_eq_range (f : β → ℕ) (table : List (Option β)) :
    total f table = ((List.range table.length).map fun i => (table[i]?.join).elim 0 f).sum := by
  unfold total
  congr 1
  apply ext_getElem
  · simp
  · intro i h₁ h₂
    simp only [length_map] at h₁
    simp [getElem?_eq_getElem h₁]

theorem countP_range_eq_sum (q : ℕ → Bool) (n : ℕ) :
    (List.range n).countP q = ((List.range n).map fun i => if q i then 1 else 0).sum := by
  induction range n with
  | nil => rfl
  | cons a rest ih =>
    simp only [countP_cons, map_cons, sum_cons]
    omega

end Total

section Set
variable {β : Type} {l : List β} {i : ℕ} {b : β}

theorem set_self (h : l[i]? = some b) : l.set i b = l := by
  obtain ⟨hlt, rfl⟩ := List.getElem?_eq_some_iff.mp h
  exact List.set_getElem_self hlt

theorem getElem?_set_some (h : l[i]? = some b) (a : β) (j : ℕ) :
    (l.set i a)[j]? = if j = i then some a else l[j]? := by
  have hlt := (List.getElem?_eq_some_iff.mp h).1
  split_ifs with hj
  · rw [hj, List.getElem?_set_self hlt]
  · rw [List.getElem?_set_ne (Ne.symm hj)]

end Set

namespace Recycled
variable {β : Type} {table : List (Option β)} {free : List ℕ} {i : ℕ} {b b' : β}

theorem empty : Recycled ([] : List (Option β)) [] := ⟨nodup_nil, fun i => by simp⟩

theorem take (h : Recycled table (i :: free)) (b : β) :
    table[i]? = some none ∧ Recycled (table.set i (some b)) free := by
  have hi := (h.mem_iff i).mp (by simp)
  obtain ⟨hnot, hnodup⟩ := nodup_cons.mp h.nodup
  refine ⟨hi, hnodup, fun j => ?_⟩
  rw [getElem?_set_some hi]
  split_ifs with hj
  · simp [hj, hnot]
  · simp [← h.mem_iff j, hj]

theorem grow (h : Recycled table []) (b : β) : Recycled (table ++ [some b]) [] := by
  refine ⟨nodup_nil, fun j => ?_⟩
  have hj := h.mem_iff j
  rw [getElem?_append]
  split_ifs with hlt
  · exact hj
  · cases hsub : j - table.length <;> simp

theorem release (h : Recycled table free) (hi : table[i]? = some (some b)) :
    Recycled (table.set i none) (i :: free) := by
  have hnot : i ∉ free := by
    rw [h.mem_iff i, hi]
    simp
  refine ⟨nodup_cons.mpr ⟨hnot, h.nodup⟩, fun j => ?_⟩
  rw [getElem?_set_some hi]
  split_ifs with hj
  · simp [hj]
  · simp [← h.mem_iff j, hj]

theorem update (h : Recycled table free) (hi : table[i]? = some (some b)) (b' : β) :
    Recycled (table.set i (some b')) free := by
  refine ⟨h.nodup, fun j => ?_⟩
  rw [h.mem_iff j, getElem?_set_some hi]
  split_ifs with hj
  · simp [hj, hi]
  · rfl

/-- Every slot is on the stack or holds a value. -/
theorem length_add_total [Inhabited β] (h : Recycled table free) :
    free.length + total (fun _ => 1) table = table.length := by
  induction free generalizing table with
  | nil =>
    have hall : ∀ o ∈ table, o.elim 0 (fun _ => 1) = 1 := by
      intro o ho
      obtain ⟨j, hj⟩ := mem_iff_getElem?.mp ho
      cases o with
      | none => exact absurd ((h.mem_iff j).mpr hj) (by simp)
      | some b => rfl
    rw [total, map_congr_left hall]
    simp
  | cons i rest ih =>
    -- fill the slot on top of the stack with any value
    obtain ⟨hi, hrest⟩ := h.take default
    have hcount := ih hrest
    have hset := total_set (fun _ : β => 1) hi (some default)
    simp only [Option.elim_none, Option.elim_some, length_set, length_cons] at *
    omega

end Recycled
end Roanix.Lib
