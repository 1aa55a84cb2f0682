import Mathlib.Data.Int.Basic
import Mathlib.Data.List.Basic
import Mathlib.Order.Basic

/-! Counts kept as runs inside the array they count. A run of length one is its count plus one;
a longer run is the negated count minus one, followed by the length. Cells inside a run are
stale, so only what the runs themselves read is ever constrained. -/
namespace Roanix.Lib
open Function List

/-- The run that starts at a position: its count and its length. -/
def getRun (a : ℕ → ℤ) (p : ℕ) : ℤ × ℕ :=
  if 0 < a p then (a p - 1, 1) else (-a p - 1, (a (p + 1)).toNat)

def setRun (a : ℕ → ℤ) (p : ℕ) (refs : ℤ) (n : ℕ) : ℕ → ℤ :=
  if n = 0 then a
  else if n = 1 then update a p (refs + 1)
  else update (update a p (-(refs + 1))) (p + 1) n

def IsRun (a : ℕ → ℤ) (p : ℕ) (refs n : ℕ) : Prop :=
  (n = 1 ∧ a p = refs + 1) ∨ (2 ≤ n ∧ a p = -(refs + 1) ∧ a (p + 1) = n)

namespace IsRun
variable {a b : ℕ → ℤ} {p refs n : ℕ}

theorem pos (h : IsRun a p refs n) : 0 < n := by
  rcases h with ⟨rfl, -⟩ | ⟨hn, -⟩ <;> omega

theorem getRun_eq (h : IsRun a p refs n) : getRun a p = ((refs : ℤ), n) := by
  unfold getRun
  rcases h with ⟨rfl, ha⟩ | ⟨hn, ha, hl⟩
  · rw [if_pos (by omega), ha, Int.add_sub_cancel]
  · rw [if_neg (by omega), ha, hl]
    simp

theorem congr (h : IsRun a p refs n) (hab : ∀ i, p ≤ i → i < p + n → b i = a i) :
    IsRun b p refs n := by
  rcases h with ⟨rfl, ha⟩ | ⟨hn, ha, hl⟩
  · exact .inl ⟨rfl, (hab p le_rfl (by omega)).trans ha⟩
  · exact .inr ⟨hn, (hab p le_rfl (by omega)).trans ha,
      (hab (p + 1) (by omega) (by omega)).trans hl⟩

end IsRun

theorem isRun_setRun (a : ℕ → ℤ) (p refs : ℕ) {n : ℕ} (hn : 0 < n) :
    IsRun (setRun a p refs n) p refs n := by
  unfold setRun
  rw [if_neg (by omega)]
  split_ifs with h1
  · exact .inl ⟨h1, by rw [update_self]⟩
  · refine .inr ⟨by omega, ?_, by rw [update_self]⟩
    rw [update_of_ne (by omega), update_self]

theorem setRun_of_outside (a : ℕ → ℤ) (p : ℕ) (refs : ℤ) (n : ℕ) {i : ℕ}
    (hi : i < p ∨ p + n ≤ i) : setRun a p refs n i = a i := by
  unfold setRun
  split_ifs with h0 h1
  · rfl
  · rw [update_of_ne (by omega)]
  · rw [update_of_ne (by omega), update_of_ne (by omega)]

/-- The runs from `lo` tile `[lo, hi)` and give every position its count. -/
inductive Runs (a : ℕ → ℤ) (f : ℕ → ℕ) : ℕ → ℕ → Prop
  | nil (p : ℕ) : Runs a f p p
  | cons {lo hi refs n : ℕ} (run : IsRun a lo refs n) (count : ∀ i, lo ≤ i → i < lo + n → f i = refs)
      (rest : Runs a f (lo + n) hi) : Runs a f lo hi

namespace Runs
variable {a b : ℕ → ℤ} {f g : ℕ → ℕ} {lo mid hi : ℕ}

theorem le (h : Runs a f lo hi) : lo ≤ hi := by
  induction h with
  | nil => exact le_rfl
  | cons _ _ _ ih => omega

theorem single {refs n : ℕ} (h : IsRun a lo refs n) (hf : ∀ i, lo ≤ i → i < lo + n → f i = refs) :
    Runs a f lo (lo + n) := .cons h hf (.nil _)

theorem append (h : Runs a f lo mid) (h' : Runs a f mid hi) : Runs a f lo hi := by
  induction h with
  | nil => exact h'
  | cons run count _ ih => exact .cons run count (ih h')

theorem congr (h : Runs a f lo hi) (hab : ∀ i, lo ≤ i → i < hi → b i = a i)
    (hfg : ∀ i, lo ≤ i → i < hi → g i = f i) : Runs b g lo hi := by
  induction h with
  | nil => exact .nil _
  | cons run count rest ih =>
    have hle := rest.le
    refine .cons (run.congr fun i h1 h2 => hab i h1 (by omega))
      (fun i h1 h2 => (hfg i h1 (by omega)).trans (count i h1 h2))
      (ih (fun i h1 h2 => hab i (by omega) h2) fun i h1 h2 => hfg i (by omega) h2)

theorem first (h : Runs a f lo hi) (hlt : lo < hi) : ∃ refs n, IsRun a lo refs n ∧
    lo + n ≤ hi ∧ (∀ i, lo ≤ i → i < lo + n → f i = refs) ∧ Runs a f (lo + n) hi := by
  cases h with
  | nil => omega
  | cons run count rest => exact ⟨_, _, run, rest.le, count, rest⟩

theorem split {refs n k : ℕ} (hk : 0 < k) (hkn : k < n)
    (hf : ∀ i, lo ≤ i → i < lo + n → f i = refs) :
    IsRun (setRun (setRun a lo refs k) (lo + k) refs (n - k)) lo refs k ∧
      Runs (setRun (setRun a lo refs k) (lo + k) refs (n - k)) f (lo + k) (lo + n) := by
  have hsecond := isRun_setRun (setRun a lo refs k) (lo + k) refs (n := n - k) (by omega)
  refine ⟨(isRun_setRun a lo refs hk).congr fun i h1 h2 =>
    setRun_of_outside _ _ _ _ (.inl (by omega)), ?_⟩
  have hend : lo + k + (n - k) = lo + n := by omega
  rw [← hend]
  exact single hsecond fun i h1 h2 => hf i (by omega) (by omega)

theorem write {refs n : ℕ} (hn : 0 < n) (below : Runs a g lo mid) (above : Runs a f (mid + n) hi)
    (hg : ∀ i, mid ≤ i → i < mid + n → g i = refs) :
    Runs (setRun a mid refs n) g lo (mid + n) ∧ Runs (setRun a mid refs n) f (mid + n) hi :=
  ⟨(below.congr (fun _ _ hi => setRun_of_outside _ _ _ _ (.inl hi)) fun _ _ _ => rfl).append
      (single (isRun_setRun a mid refs hn) hg),
    above.congr (fun _ hi _ => setRun_of_outside _ _ _ _ (.inr hi)) fun _ _ _ => rfl⟩

theorem snoc (refs n : ℕ) (below : Runs a g lo mid)
    (hg : ∀ i, mid ≤ i → i < mid + n → g i = refs) :
    Runs (setRun a mid refs n) g lo (mid + n) := by
  rcases Nat.eq_zero_or_pos n with rfl | hn
  · simpa [setRun] using below
  · exact (write (f := g) hn below (.nil _) hg).1

end Runs

/-- Decoding with `getRun` from a position; fails if the runs do not end at `hi`. -/
def decodeRuns (a : ℕ → ℤ) (hi : ℕ) : ℕ → ℕ → Option (List ℤ)
  | 0, p => if p = hi then some [] else none
  | fuel + 1, p =>
    if p = hi then some []
    else if hi < p then none
    else (decodeRuns a hi fuel (p + (getRun a p).2)).map
      (List.replicate (getRun a p).2 (getRun a p).1 ++ ·)

theorem Runs.decodeRuns_eq {a : ℕ → ℤ} {f : ℕ → ℕ} {lo hi : ℕ} (h : Runs a f lo hi) :
    ∀ fuel, hi ≤ fuel + lo →
      decodeRuns a hi fuel lo = some ((List.range' lo (hi - lo)).map fun i => (f i : ℤ)) := by
  induction h with
  | nil p =>
    intro fuel _
    cases fuel <;> simp [decodeRuns]
  | @cons lo hi refs n run count rest ih =>
    intro fuel hfuel
    have hpos := run.pos
    have hle := rest.le
    obtain ⟨fuel, rfl⟩ : ∃ k, fuel = k + 1 := ⟨fuel - 1, by omega⟩
    have hsplit : range' lo (hi - lo) = range' lo n ++ range' (lo + n) (hi - (lo + n)) := by
      rw [range'_append_1]
      congr 1
      omega
    have hmap : (range' lo n).map (fun i => (f i : ℤ)) = replicate n (refs : ℤ) := by
      refine eq_replicate_iff.mpr ⟨by simp, fun x hx => ?_⟩
      obtain ⟨i, hi, rfl⟩ := mem_map.mp hx
      have := mem_range'_1.mp hi
      rw [count i this.1 this.2]
    simp only [decodeRuns, run.getRun_eq]
    rw [if_neg (by omega), if_neg (by omega), ih fuel (by omega), hsplit, map_append, hmap,
      Option.map_some]

/-- The runs up to `cur`, the last of which starts at `prev`. -/
structure LastRun (a : ℕ → ℤ) (f : ℕ → ℕ) (prev refs n cur : ℕ) : Prop where
  below : Runs a f 0 prev
  run : IsRun a prev refs n
  meets : prev + n = cur
  count : ∀ i, prev ≤ i → i < cur → f i = refs

namespace LastRun
variable {a b : ℕ → ℤ} {f g : ℕ → ℕ} {prev refs n cur : ℕ}

theorem runs (h : LastRun a f prev refs n cur) : Runs a f 0 cur := by
  obtain ⟨hbelow, hrun, rfl, hcount⟩ := h
  exact hbelow.append (.single hrun hcount)

theorem congr (h : LastRun a f prev refs n cur) (hab : ∀ i < cur, b i = a i)
    (hfg : ∀ i < cur, g i = f i) : LastRun b g prev refs n cur := by
  obtain ⟨hbelow, hrun, rfl, hcount⟩ := h
  refine ⟨hbelow.congr (fun i _ hi => hab i (by omega)) fun i _ hi => hfg i (by omega),
    hrun.congr fun i _ hi => hab i hi, rfl, fun i h₁ h₂ => ?_⟩
  rw [hfg i h₂, hcount i h₁ h₂]

end LastRun
end Roanix.Lib
