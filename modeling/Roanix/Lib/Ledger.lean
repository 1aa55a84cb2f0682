import Roanix.Lib.Machine

/-! Items kept in bags of different kinds. An item lies in exactly one bag of the kind it belongs to,
or is held outside by the running code; an item without a kind lies nowhere. -/
namespace Roanix.Lib
open List

/-- Two counts over a list without repetitions, by predicates that differ at one member. -/
theorem countP_change {α : Type} {l : List α} {p q : α → Bool} {a : α} (hl : l.Nodup) (ha : a ∈ l)
    (h : ∀ b, b ≠ a → q b = p b) : l.countP q + (p a).toNat = l.countP p + (q a).toNat := by
  have count_cons : ∀ (r : α → Bool) (b : α) (l : List α),
      (b :: l).countP r = l.countP r + (r b).toNat := by
    intro r b l
    rw [countP_cons]
    cases r b <;> rfl
  induction l with
  | nil => simp at ha
  | cons b rest ih =>
    rw [nodup_cons] at hl
    rw [count_cons, count_cons]
    by_cases hb : b = a
    · subst b
      have hrest : rest.countP q = rest.countP p :=
        countP_congr fun c hc => by rw [h c (fun he => hl.1 (he ▸ hc))]
      omega
    · have := ih hl.2 ((mem_cons.mp ha).resolve_left (Ne.symm hb))
      rw [h b hb]
      omega

variable {ι κ α : Type} [Fintype ι] [DecidableEq κ] [DecidableEq α]

/-- How often an item occurs in the bags of one kind. -/
def occurrences (bag : ι → κ → List α) (k : κ) (a : α) : ℕ := ∑ i, (bag i k).count a

def Ledger (bag : ι → κ → List α) (held : List (α × κ)) (kind : α → Option κ) : Prop :=
  ∀ k a, occurrences bag k a + held.count (a, k) = if kind a = some k then 1 else 0

namespace Ledger
variable {bag bag' : ι → κ → List α} {held held' : List (α × κ)} {kind kind' : α → Option κ}
  {i j : ι} {k l : κ} {a : α}

omit [DecidableEq κ] in
theorem count_le_occurrences (bag : ι → κ → List α) (i : ι) (k : κ) (a : α) :
    (bag i k).count a ≤ occurrences bag k a :=
  Finset.single_le_sum (f := fun i => (bag i k).count a) (fun _ _ => Nat.zero_le _)
    (Finset.mem_univ i)

theorem kind_of_mem (h : Ledger bag held kind) (ha : a ∈ bag i k) : kind a = some k := by
  have hpos := count_pos_iff.mpr ha
  have hle := count_le_occurrences bag i k a
  have := h k a
  by_contra hne
  rw [if_neg hne] at this
  omega

theorem kind_of_held (h : Ledger bag held kind) (ha : (a, k) ∈ held) : kind a = some k := by
  have hpos := count_pos_iff.mpr ha
  have := h k a
  by_contra hne
  rw [if_neg hne] at this
  omega

theorem notMem_of_held (h : Ledger bag held kind) (ha : (a, k) ∈ held) (i : ι) (l : κ) :
    a ∉ bag i l := by
  intro hmem
  have hkind := h.kind_of_held ha
  obtain rfl : k = l := Option.some.inj (hkind.symm.trans (h.kind_of_mem hmem))
  have hpos := count_pos_iff.mpr ha
  have hpos' := count_pos_iff.mpr hmem
  have hle := count_le_occurrences bag i k a
  have := h k a
  rw [if_pos hkind] at this
  omega

/-- An item gets its kind as the running code takes it, or loses it from there. -/
theorem take_iff (hold : kind a = none) (ha : kind' a = some k)
    (hother : ∀ b, b ≠ a → kind' b = kind b) :
    Ledger bag held kind ↔ Ledger bag ((a, k) :: held) kind' := by
  refine forall₂_congr fun l b => ?_
  by_cases hb : b = a
  · subst b
    rw [hold, ha, count_cons]
    by_cases hl : k = l <;> simp [hl]
    omega
  · rw [count_cons_of_ne (by simp [Ne.symm hb]), hother b hb]

variable [DecidableEq ι]

/-- An item goes from a bag into the hands of the running code, or back. -/
theorem pop_iff (hbag : ∀ j l, ¬ (j = i ∧ l = k) → bag' j l = bag j l)
    (hperm : (bag i k).Perm (a :: bag' i k)) :
    Ledger bag held kind ↔ Ledger bag' ((a, k) :: held) kind := by
  refine forall₂_congr fun l b => ?_
  by_cases hlk : l = k
  · subst l
    have hsum := sum_change (f := fun j => (bag j k).count b) (g := fun j => (bag' j k).count b) i
      (fun j hj => by simp only [hbag j k (fun h => hj h.1)])
    have hcount := hperm.count_eq b
    unfold occurrences
    rw [count_cons] at hcount ⊢
    by_cases hb : a = b <;> simp [hb] at hcount ⊢ <;> omega
  · have hsame : occurrences bag' l b = occurrences bag l b :=
      Finset.sum_congr rfl fun j _ => by rw [hbag j l (fun h => hlk h.2)]
    rw [hsame, count_cons_of_ne (by simp [Ne.symm hlk])]

end Ledger
end Roanix.Lib
