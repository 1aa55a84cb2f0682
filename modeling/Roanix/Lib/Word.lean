import Mathlib.Algebra.Ring.Nat
import Roanix.Lib.Act

/-! Arithmetic on machine words in stateful computations: an operation whose result does not fit
stops, as arithmetic with overflow checks does. -/
namespace Roanix.Lib.Act
variable {ε π σ : Type}

def add (width : ℕ) (r : π) (a b : ℕ) : Act ε π σ ℕ := do
  check (a + b < 2 ^ width) r
  pure (a + b)

def sub (r : π) (a b : ℕ) : Act ε π σ ℕ := do
  check (b ≤ a) r
  pure (a - b)

def mul (width : ℕ) (r : π) (a b : ℕ) : Act ε π σ ℕ := do
  check (a * b < 2 ^ width) r
  pure (a * b)

/-- A result that fits in a word. -/
def checked (width n : ℕ) : Option ℕ := if n < 2 ^ width then some n else none

theorem checked_eq_some {width n k : ℕ} : checked width n = some k ↔ k = n ∧ n < 2 ^ width := by
  unfold checked
  split_ifs with h
  · rw [Option.some.injEq, eq_comm, and_iff_left h]
  · simp only [h, and_false]

variable {T : π → Prop} {Q : ℕ → σ → Prop} {E : ε → σ → Prop} {s : σ} {width a b : ℕ}

theorem wp_add (h : a + b < 2 ^ width) (r : π) : wp T (add width r a b) Q E s = Q (a + b) s := by
  simp only [add, wp_bind, wp_check h, wp_pure]

theorem wp_sub (h : b ≤ a) (r : π) : wp T (sub r a b) Q E s = Q (a - b) s := by
  simp only [sub, wp_bind, wp_check h, wp_pure]

theorem wp_mul (h : a * b < 2 ^ width) (r : π) : wp T (mul width r a b) Q E s = Q (a * b) s := by
  simp only [mul, wp_bind, wp_check h, wp_pure]

end Roanix.Lib.Act
