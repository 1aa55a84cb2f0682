import Mathlib.Data.Nat.Cast.Basic
import Mathlib.Data.List.Sort
import Mathlib.Algebra.BigOperators.Group.List.Basic

/-! Finite indexes kept in key order: strictly sorted association lists, so that two indexes with the
same lookups are equal. -/
namespace Roanix.Lib
open List

structure Index (κ : Type) [LinearOrder κ] (α : Type) where
  entries : List (κ × α)
  sorted : entries.Pairwise (fun a b => a.1 < b.1)

namespace Index
variable {κ α β : Type} [LinearOrder κ] {i j : Index κ α} {k k' : κ} {v w : α}
variable {p : κ → Bool} {f : κ → α → ℕ}

instance [DecidableEq α] : DecidableEq (Index κ α) := fun i j =>
  decidable_of_iff (i.entries = j.entries)
    ⟨fun h => by cases i; cases j; cases h; rfl, fun h => h ▸ rfl⟩

def empty : Index κ α := ⟨[], .nil⟩

instance : Inhabited (Index κ α) := ⟨empty⟩

def get (i : Index κ α) (k : κ) : Option α :=
  (i.entries.find? (fun e => e.1 = k)).map Prod.snd

theorem entry_unique (h : (k, v) ∈ i.entries) (h' : (k, w) ∈ i.entries) : v = w := by
  have hnodup : (i.entries.map Prod.fst).Nodup := (pairwise_map.mpr i.sorted).imp ne_of_lt
  exact congrArg Prod.snd (inj_on_of_nodup_map hnodup h h' rfl)

theorem get_eq_some : i.get k = some v ↔ (k, v) ∈ i.entries := by
  constructor
  · intro h
    obtain ⟨e, he, rfl⟩ := Option.map_eq_some_iff.mp h
    have hk : e.1 = k := by simpa using find?_some he
    exact hk ▸ mem_of_find?_eq_some he
  · intro h
    cases hf : i.entries.find? (fun e => e.1 = k) with
    | none =>
      have := find?_eq_none.mp hf _ h
      simp at this
    | some e =>
      have hk : e.1 = k := by simpa using find?_some hf
      have hm : (k, e.2) ∈ i.entries := hk ▸ mem_of_find?_eq_some hf
      simp [get, hf, entry_unique hm h]

@[simp] theorem get_empty (k : κ) : (empty : Index κ α).get k = none := rfl

theorem ext_get (h : ∀ k, i.get k = j.get k) : i = j := by
  have hm : ∀ e, e ∈ i.entries ↔ e ∈ j.entries := fun ⟨k, v⟩ => by
    rw [← get_eq_some, ← get_eq_some, h]
  have hn : ∀ i : Index κ α, i.entries.Nodup := fun i =>
    i.sorted.imp fun hlt he => absurd (congrArg Prod.fst he) hlt.ne
  have hp := (perm_ext_iff_of_nodup (hn i) (hn j)).mpr hm
  have he : i.entries = j.entries :=
    hp.eq_of_pairwise (fun a b _ _ hab hba => absurd hba hab.asymm) i.sorted j.sorted
  cases i; cases j; cases he; rfl

def filter (p : κ → α → Bool) (i : Index κ α) : Index κ α :=
  ⟨i.entries.filter (fun e => p e.1 e.2), i.sorted.filter _⟩

@[simp] theorem get_filter (p : κ → α → Bool) (i : Index κ α) (k : κ) :
    (i.filter p).get k = (i.get k).filter (p k) := by
  ext v
  simp only [filter, get_eq_some, mem_filter, Option.filter_eq_some_iff]

def mapVals (f : κ → α → β) (i : Index κ α) : Index κ β :=
  ⟨i.entries.map (fun e => (e.1, f e.1 e.2)), List.pairwise_map.mpr i.sorted⟩

@[simp] theorem get_mapVals (f : κ → α → β) (i : Index κ α) (k : κ) :
    (i.mapVals f).get k = (i.get k).map (f k) := by
  ext v
  simp only [mapVals, get_eq_some, mem_map, Prod.mk.injEq, Option.map_eq_some_iff, Prod.exists]
  constructor
  · rintro ⟨k', v', hm, rfl, rfl⟩
    exact ⟨v', hm, rfl⟩
  · rintro ⟨v', hm, rfl⟩
    exact ⟨k, v', hm, rfl, rfl⟩

def modify (k : κ) (f : α → α) (i : Index κ α) : Index κ α :=
  i.mapVals fun k' v => if k' = k then f v else v

@[simp] theorem get_modify (k : κ) (f : α → α) (i : Index κ α) (k' : κ) :
    (i.modify k f).get k' = if k' = k then (i.get k').map f else i.get k' := by
  rw [modify]
  split_ifs <;> simp_all

def insert (k : κ) (v : α) (i : Index κ α) : Index κ α where
  entries := i.entries.filter (fun e => e.1 < k) ++ (k, v) :: i.entries.filter (fun e => k < e.1)
  sorted := by
    rw [List.pairwise_append]
    refine ⟨i.sorted.filter _, ?_, ?_⟩
    · rw [List.pairwise_cons]
      exact ⟨fun e he => by simpa using (List.mem_filter.mp he).2, i.sorted.filter _⟩
    · intro a ha b hb
      have hak : a.1 < k := by simpa using (List.mem_filter.mp ha).2
      rcases List.mem_cons.mp hb with rfl | hb
      · exact hak
      · have hkb : k < b.1 := by simpa using (List.mem_filter.mp hb).2
        exact hak.trans hkb

@[simp] theorem get_insert (k : κ) (v : α) (i : Index κ α) (k' : κ) :
    (i.insert k v).get k' = if k' = k then some v else i.get k' := by
  ext w
  simp only [insert, get_eq_some, mem_append, mem_filter, mem_cons,
    decide_eq_true_eq]
  split_ifs with hk
  · subst hk
    simp [eq_comm]
  · rw [get_eq_some]
    rcases lt_or_gt_of_ne hk with h | h <;> simp [hk, h, h.not_gt]

def remove (k : κ) (i : Index κ α) : Index κ α := i.filter fun k' _ => k' ≠ k

@[simp] theorem get_remove (k : κ) (i : Index κ α) (k' : κ) :
    (i.remove k).get k' = if k' = k then none else i.get k' := by
  rw [remove, get_filter]
  split_ifs with h <;> cases i.get k' <;> simp [h]

/-- The entry with the largest key that satisfies a test. -/
def last (p : κ → Bool) (i : Index κ α) : Option (κ × α) :=
  (i.entries.filter (fun e => p e.1)).getLast?

/-- The entry with the smallest key that satisfies a test. -/
def first (p : κ → Bool) (i : Index κ α) : Option (κ × α) :=
  i.entries.find? (fun e => p e.1)

theorem last_eq_none : i.last p = none ↔ ∀ k v, i.get k = some v → p k = false := by
  simp only [last, getLast?_eq_none_iff, filter_eq_nil_iff, get_eq_some, Prod.forall,
    Bool.not_eq_true]

theorem first_eq_none : i.first p = none ↔ ∀ k v, i.get k = some v → p k = false := by
  simp only [first, find?_eq_none, get_eq_some, Prod.forall, Bool.not_eq_true]

theorem last_eq_some (h : i.last p = some (k, v)) :
    i.get k = some v ∧ p k ∧ ∀ k' w, i.get k' = some w → p k' → k' ≤ k := by
  obtain ⟨l, hl⟩ := getLast?_eq_some_iff.mp h
  have hm : (k, v) ∈ i.entries.filter (fun e => p e.1) := by rw [hl]; simp
  obtain ⟨hm, hp⟩ := mem_filter.mp hm
  refine ⟨get_eq_some.mpr hm, hp, fun k' w hw hp' => ?_⟩
  have hw : (k', w) ∈ l ++ [(k, v)] := hl ▸ mem_filter.mpr ⟨get_eq_some.mp hw, hp'⟩
  have hs : (l ++ [(k, v)]).Pairwise (fun a b => a.1 < b.1) := hl ▸ i.sorted.filter _
  rcases mem_append.mp hw with hw | hw
  · exact ((pairwise_append.mp hs).2.2 _ hw (k, v) (by simp)).le
  · simp only [mem_singleton, Prod.mk.injEq] at hw
    exact hw.1.le

theorem first_eq_some (h : i.first p = some (k, v)) :
    i.get k = some v ∧ p k ∧ ∀ k' w, i.get k' = some w → p k' → k ≤ k' := by
  obtain ⟨hp, l, r, he, hl⟩ := find?_eq_some_iff_append.mp h
  have hm : (k, v) ∈ i.entries := by rw [he]; simp
  refine ⟨get_eq_some.mpr hm, hp, fun k' w hw hp' => ?_⟩
  have hw : (k', w) ∈ l ++ (k, v) :: r := he ▸ get_eq_some.mp hw
  have hs : (l ++ (k, v) :: r).Pairwise (fun a b => a.1 < b.1) := he ▸ i.sorted
  rcases mem_append.mp hw with hw | hw
  · have := hl _ hw
    simp [hp'] at this
  · rcases mem_cons.mp hw with hw | hw
    · exact (congrArg Prod.fst hw).ge
    · exact ((pairwise_cons.mp (pairwise_append.mp hs).2.1).1 _ hw).le

theorem last_of_max (hg : i.get k = some v) (hp : p k)
    (hmax : ∀ k' w, i.get k' = some w → p k' → k' ≤ k) : i.last p = some (k, v) := by
  cases h : i.last p with
  | none => simp [last_eq_none.mp h k v hg] at hp
  | some e =>
    obtain ⟨k', w⟩ := e
    obtain ⟨hg', hp', hm'⟩ := last_eq_some h
    obtain rfl := le_antisymm (hmax k' w hg' hp') (hm' k v hg hp)
    rw [Option.mem_unique hg' hg]

theorem first_of_min (hg : i.get k = some v) (hp : p k)
    (hmin : ∀ k' w, i.get k' = some w → p k' → k ≤ k') : i.first p = some (k, v) := by
  cases h : i.first p with
  | none => simp [first_eq_none.mp h k v hg] at hp
  | some e =>
    obtain ⟨k', w⟩ := e
    obtain ⟨hg', hp', hm'⟩ := first_eq_some h
    obtain rfl := le_antisymm (hm' k v hg hp) (hmin k' w hg' hp')
    rw [Option.mem_unique hg' hg]

def sum (f : κ → α → ℕ) (i : Index κ α) : ℕ := (i.entries.map fun e => f e.1 e.2).sum

theorem sum_mapVals (f : κ → β → ℕ) (g : κ → α → β) (i : Index κ α) :
    (i.mapVals g).sum f = i.sum fun k v => f k (g k v) := by
  simp [sum, mapVals, Function.comp_def]

theorem sum_filter_add (f : κ → α → ℕ) (p : κ → α → Bool) (i : Index κ α) :
    (i.filter p).sum f + (i.filter fun k v => !p k v).sum f = i.sum f := by
  simp only [sum, filter]
  induction i.entries with
  | nil => rfl
  | cons e es ih =>
    cases hp : p e.1 e.2 <;> simp [hp] <;> omega

theorem entries_split (h : i.get k = some v) :
    i.entries = i.entries.filter (fun e => e.1 < k) ++ (k, v) ::
      i.entries.filter (fun e => k < e.1) := by
  have : i = i.insert k v := ext_get fun k' => by
    rw [get_insert]
    split_ifs with hk
    · rw [hk, h]
    · rfl
  exact congrArg entries this

theorem sum_insert (f : κ → α → ℕ) (k : κ) (v : α) (i : Index κ α) :
    (i.insert k v).sum f = (i.remove k).sum f + f k v := by
  have hr : (i.remove k).entries =
      i.entries.filter (fun e => e.1 < k) ++ i.entries.filter (fun e => k < e.1) := by
    have hs : (i.entries.filter (fun e => e.1 < k) ++
        i.entries.filter (fun e => k < e.1)).Pairwise (fun a b => a.1 < b.1) :=
      (i.insert k v).sorted.sublist (by simp [insert])
    have : i.remove k = ⟨_, hs⟩ := ext_get fun k' => by
      ext w
      rw [get_remove]
      simp only [get_eq_some, mem_append, mem_filter]
      split_ifs with hk
      · simp [hk]
      · rw [get_eq_some]
        rcases lt_or_gt_of_ne hk with h | h <;> simp [h, h.not_gt]
    exact congrArg entries this
  simp only [sum, hr, insert, map_append, map_cons, sum_append, sum_cons]
  omega

theorem sum_of_get (f : κ → α → ℕ) (h : i.get k = some v) :
    i.sum f = (i.remove k).sum f + f k v := by
  rw [← sum_insert f k v i]
  exact congrArg List.sum (congrArg _ (entries_split h))

theorem remove_of_none (h : i.get k = none) : i.remove k = i := ext_get fun k' => by
  rw [get_remove]
  split_ifs with hk
  · rw [hk, h]
  · rfl

theorem remove_insert_of_none (h : i.get k = none) (v : α) : (i.insert k v).remove k = i :=
  ext_get fun k' => by
    rw [get_remove, get_insert]
    split_ifs with heq
    · rw [heq, h]
    · rfl

theorem length_insert_of_some (h : i.get k = some v) (w : α) :
    (i.insert k w).entries.length = i.entries.length := by
  have hsplit := congrArg length (entries_split h)
  simp only [length_append] at hsplit
  simp only [insert, length_append]
  exact hsplit.symm

theorem length_insert_of_none (h : i.get k = none) (w : α) :
    (i.insert k w).entries.length = i.entries.length + 1 := by
  have hsum := sum_insert (fun _ _ => 1) k w i
  rw [remove_of_none h] at hsum
  simpa [sum] using hsum

theorem length_remove (h : i.get k = some v) :
    (i.remove k).entries.length + 1 = i.entries.length := by
  rw [← length_insert_of_some h v]
  simpa [sum] using (sum_insert (fun _ _ => 1) k v i).symm

theorem remove_modify (f : α → α) (i : Index κ α) : (i.modify k f).remove k = i.remove k :=
  ext_get fun k' => by
    rw [get_remove, get_remove, get_modify]
    split_ifs <;> rfl

theorem modify_eq_insert (f : α → α) (h : i.get k = some v) : i.modify k f = i.insert k (f v) :=
  ext_get fun k' => by
    rw [get_modify, get_insert]
    split_ifs with hk
    · rw [hk, h, Option.map_some]
    · rfl

/-- Changing one value changes the total by that value's measure alone. -/
theorem sum_modify (f : κ → α → ℕ) (g : α → α) (h : i.get k = some v) :
    (i.modify k g).sum f = (i.remove k).sum f + f k (g v) := by
  rw [sum_of_get f (k := k) (v := g v) (by simp [h]), remove_modify]

theorem sum_eq_of_get {g : κ → β → ℕ} {i : Index κ α} {j : Index κ β}
    (h : ∀ k, ((i.get k).map (f k)).getD 0 = ((j.get k).map (g k)).getD 0) : i.sum f = j.sum g := by
  -- drop the keys that contribute nothing; what is left is the same index
  have hdrop : ∀ m : Index κ ℕ,
      (m.sum fun _ n => n) = (m.filter fun _ n => n ≠ 0).sum fun _ n => n := by
    intro m
    have hz : ((m.filter fun _ n => !decide (n ≠ 0)).sum fun _ n => n) = 0 := by
      refine sum_eq_zero fun x hx => ?_
      obtain ⟨e, he, rfl⟩ := mem_map.mp hx
      simpa using (mem_filter.mp he).2
    rw [← sum_filter_add (fun _ n => n) (fun _ n => decide (n ≠ 0)) m, hz, add_zero]
  have hsame : ((i.mapVals f).filter fun _ n => n ≠ 0) = (j.mapVals g).filter fun _ n => n ≠ 0 := by
    refine ext_get fun k => ?_
    have hk := h k
    rw [get_filter, get_filter, get_mapVals, get_mapVals]
    cases hi : (i.get k).map (f k) <;> cases hj : (j.get k).map (g k) <;>
      simp_all [Option.filter]
  rw [← sum_mapVals (fun _ n => n) f i, ← sum_mapVals (fun _ n => n) g j, hdrop (i.mapVals f),
    hdrop (j.mapVals g), hsame]

theorem mapVals_insert (f : κ → α → β) (k : κ) (v : α) (i : Index κ α) :
    (i.insert k v).mapVals f = (i.mapVals f).insert k (f k v) := ext_get fun k' => by
  rw [get_mapVals, get_insert, get_insert, get_mapVals]
  split_ifs with h
  · rw [h, Option.map_some]
  · rfl

theorem mapVals_remove (f : κ → α → β) (k : κ) (i : Index κ α) :
    (i.remove k).mapVals f = (i.mapVals f).remove k := ext_get fun k' => by
  rw [get_mapVals, get_remove, get_remove, get_mapVals]
  split_ifs <;> rfl

theorem mapVals_modify {f : κ → α → β} {g : α → α} {g' : β → β} {k : κ}
    (h : ∀ v, f k (g v) = g' (f k v)) (i : Index κ α) :
    (i.modify k g).mapVals f = (i.mapVals f).modify k g' := ext_get fun k' => by
  rw [get_mapVals, get_modify, get_modify, get_mapVals]
  split_ifs with hk
  · subst hk
    cases i.get k' <;> simp [h]
  · rfl

end Index
end Roanix.Lib
