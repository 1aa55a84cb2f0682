import Mathlib.Algebra.BigOperators.Ring.Finset
import Mathlib.Algebra.Order.BigOperators.Group.Finset

/-! Machines that take one step after another, and finitely many parties each with a place in its
program. -/
namespace Roanix.Lib
open Function Finset

/-- States to start from and the steps between states. -/
structure Machine (σ : Type) where
  init : σ → Prop
  step : σ → σ → Prop

namespace Machine
variable {σ : Type} {M : Machine σ} {s s' : σ}

inductive Reachable (M : Machine σ) : σ → Prop
  | init {s : σ} (h : M.init s) : Reachable M s
  | step {s s' : σ} (hs : Reachable M s) (h : M.step s s') : Reachable M s'

theorem Reachable.invariant {I : σ → Prop} (hs : M.Reachable s) (hinit : ∀ s, M.init s → I s)
    (hstep : ∀ s s', I s → M.step s s' → I s') : I s := by
  induction hs with
  | init h => exact hinit _ h
  | step _ h ih => exact hstep _ _ ih h

end Machine

section Update
variable {ι α : Type} [DecidableEq ι] (p : α → Prop) {f : ι → α} {i j : ι} {a : α}

theorem update_cases (h : p (update f i a j)) : j = i ∧ p a ∨ j ≠ i ∧ p (f j) := by
  by_cases hj : j = i
  · subst hj
    rw [update_self] at h
    exact .inl ⟨rfl, h⟩
  · rw [update_of_ne hj] at h
    exact .inr ⟨hj, h⟩

theorem update_other (hj : j ≠ i) (h : p (f j)) : p (update f i a j) := by
  rwa [update_of_ne hj]

theorem update_mover (h : p a) : p (update f i a i) := by
  rwa [update_self]

theorem update_keep (h : p (f j)) (ha : p (f i) → p a) : p (update f i a j) := by
  by_cases hj : j = i
  · subst hj
    exact update_mover p (ha h)
  · exact update_other p hj h

theorem update_all (ha : p a) (h : ∀ j, p (f j)) (j : ι) : p (update f i a j) :=
  update_keep p (h j) fun _ => ha

theorem update_elim {C : Prop} (ha : p a → C) (hf : p (f j) → C) (h : p (update f i a j)) : C := by
  obtain ⟨-, hnew⟩ | ⟨-, hold⟩ := update_cases p h
  · exact ha hnew
  · exact hf hold

theorem update_back (ha : p a → p (f i)) (h : p (update f i a j)) : p (f j) := by
  obtain ⟨rfl, hnew⟩ | ⟨-, hold⟩ := update_cases p h
  · exact ha hnew
  · exact hold

theorem update_congr {β : Type} (g : α → β) (h : g a = g (f i)) (j : ι) :
    g (update f i a j) = g (f j) :=
  update_keep (fun b => g b = g (f j)) rfl fun hj => h.trans hj

theorem of_update (ha : ¬ p a) (h : p (update f i a j)) : p (f j) :=
  update_back p (fun hp => absurd hp ha) h

end Update

section Sole
variable {ι α : Type} {p : α → Prop} {f : ι → α} {h : Option ι} {i j : ι} {a : α}

/-- The one party, if any, that is where a test holds. -/
def Sole (h : Option ι) (p : α → Prop) (f : ι → α) : Prop := ∀ i, h = some i ↔ p (f i)

theorem Sole.unique (hs : Sole h p f) (hi : p (f i)) (hj : p (f j)) : i = j :=
  Option.some.inj (((hs i).mpr hi).symm.trans ((hs j).mpr hj))

variable [DecidableEq ι]

theorem Sole.stay (hs : Sole h p f) (ha : p (f i) ↔ p a) : Sole h p (update f i a) :=
  (forall_update_iff f fun j a => h = some j ↔ p a).mpr ⟨(hs i).trans ha, fun j _ => hs j⟩

theorem Sole.enter (hs : Sole none p f) (ha : p a) : Sole (some i) p (update f i a) := by
  refine (forall_update_iff f fun j a => some i = some j ↔ p a).mpr
    ⟨iff_of_true rfl ha, fun j hj => ?_⟩
  rw [← hs j]
  simp [Ne.symm hj]

theorem Sole.leave (hs : Sole h p f) (hi : p (f i)) (ha : ¬ p a) :
    Sole none p (update f i a) := by
  refine (forall_update_iff f fun j a => none = some j ↔ p a).mpr ⟨by simp [ha], fun j hj => ?_⟩
  simpa using fun hp => hj (hs.unique hp hi)

end Sole

section Listed
variable {ι α : Type} {p : α → Prop} {f g : ι → α} {l : List ι} {i : ι} {a : α}

/-- A list holds, once each, exactly the parties where a test holds. -/
structure Listed (l : List ι) (p : α → Prop) (f : ι → α) : Prop where
  nodup : l.Nodup
  mem : ∀ i, i ∈ l ↔ p (f i)

variable [DecidableEq ι]

theorem Listed.stay (hl : Listed l p f) (ha : p (f i) ↔ p a) : Listed l p (update f i a) :=
  ⟨hl.nodup, (forall_update_iff f fun j a => j ∈ l ↔ p a).mpr
    ⟨(hl.mem i).trans ha, fun j _ => hl.mem j⟩⟩

theorem Listed.push (hl : Listed l p f) (hi : ¬ p (f i)) (ha : p a) :
    Listed (l ++ [i]) p (update f i a) := by
  have hnot : i ∉ l := fun h => hi ((hl.mem i).mp h)
  refine ⟨?_, fun j => ?_⟩
  · simp only [List.nodup_append, hl.nodup, List.nodup_singleton, List.mem_singleton, forall_eq, true_and]
    intro k hk hki
    exact hnot (hki ▸ hk)
  · by_cases hj : j = i
    · subst hj
      simp [ha]
    · rw [update_of_ne hj, ← hl.mem j]
      simp [hj]

end Listed

section Weight
variable {ι α : Type} [Fintype ι] [DecidableEq ι]

theorem sum_change {f g : ι → ℕ} (i : ι) (h : ∀ j, j ≠ i → g j = f j) :
    ∑ j, g j + f i = ∑ j, f j + g i := by
  have hf := add_sum_erase univ f (mem_univ i)
  have hg := add_sum_erase univ g (mem_univ i)
  have hrest : ∑ j ∈ univ.erase i, g j = ∑ j ∈ univ.erase i, f j :=
    sum_congr rfl fun j hj => h j (ne_of_mem_erase hj)
  omega

/-- What the places of all parties weigh. -/
def weight (w : α → ℕ) (f : ι → α) : ℕ := ∑ i, w (f i)

theorem weight_update (w : α → ℕ) (f : ι → α) (i : ι) (a : α) :
    weight w (update f i a) + w (f i) = weight w f + w a := by
  have h := sum_change (f := fun j => w (f j)) (g := fun j => w (update f i a j)) i
    fun j hj => by rw [update_of_ne hj]
  simpa only [weight, update_self] using h

omit [DecidableEq ι] in
theorem le_weight (w : α → ℕ) (f : ι → α) (i : ι) : w (f i) ≤ weight w f :=
  single_le_sum (f := fun j => w (f j)) (fun _ _ => Nat.zero_le _) (mem_univ i)

end Weight

section Count
variable {ι α : Type} [Fintype ι] [DecidableEq ι] {p : α → Prop} [DecidablePred p] {f : ι → α}
  {i : ι} {a : α}

/-- How many parties are at places that satisfy a test. -/
def count (p : α → Prop) [DecidablePred p] (f : ι → α) : ℕ :=
  (Finset.univ.filter fun i => p (f i)).card

omit [DecidableEq ι] in
theorem count_eq_zero : count p f = 0 ↔ ∀ i, ¬ p (f i) := by
  simp [count, filter_eq_empty_iff]

omit [DecidableEq ι] in
theorem count_pos_of (h : p (f i)) : 0 < count p f := by
  by_contra hzero
  exact count_eq_zero.mp (Nat.eq_zero_of_not_pos hzero) i h

theorem count_update (f : ι → α) (i : ι) (a : α) :
    count p (update f i a) + (if p (f i) then 1 else 0) =
      count p f + if p a then 1 else 0 := by
  have h := weight_update (fun a => if p a then 1 else 0) f i a
  unfold weight at h
  simpa only [count, card_filter] using h

theorem count_stay (h : p (f i) ↔ p a) : count p (update f i a) = count p f := by
  simpa [h] using count_update (p := p) f i a

end Count

section Spread
variable {α β : Type} [BEq α] [Fintype β] {f : β → List α} {a : α} {b : β}

/-- How often an element stands in a family of lists. -/
def spread (f : β → List α) (a : α) : ℕ := ∑ b, (f b).count a

theorem spread_update [DecidableEq β] (f : β → List α) (b : β) (l : List α) (a : α) :
    spread (update f b l) a + (f b).count a = spread f a + l.count a :=
  weight_update (·.count a) f b l

end Spread
end Roanix.Lib
