import Mathlib.Data.Nat.Log
import Mathlib.Tactic.Ring

/-! Machine-word arithmetic and page geometry. Words are naturals; every addition the kernel
checks for overflow is checked here against the same 64-bit bound. -/
namespace Roanix.Mem

variable {a b n : ℕ}

def u64Max : ℕ := 2 ^ 64 - 1

def checkedAdd (a b : ℕ) : Option ℕ := if a + b < 2 ^ 64 then some (a + b) else none

theorem checkedAdd_eq_some {c : ℕ} : checkedAdd a b = some c ↔ c = a + b ∧ a + b < 2 ^ 64 := by
  unfold checkedAdd
  split_ifs with h
  · rw [Option.some.injEq, eq_comm, and_iff_left h]
  · simp only [h, and_false]

/-- `u64::wrapping_add`, of words. -/
def wrappingAdd (a b : ℕ) : ℕ := if a + b < 2 ^ 64 then a + b else a + b - 2 ^ 64

/-- `u64::wrapping_sub`, of words. -/
def wrappingSub (a b : ℕ) : ℕ := if b ≤ a then a - b else a + 2 ^ 64 - b

theorem wrappingAdd_eq (h : a + b < 2 ^ 64) : wrappingAdd a b = a + b := if_pos h

theorem wrappingSub_eq (h : b ≤ a) : wrappingSub a b = a - b := if_pos h

def IsPowerOfTwo (n : ℕ) : Prop := n ≠ 0 ∧ 2 ^ n.log2 = n

instance : DecidablePred IsPowerOfTwo := fun n => inferInstanceAs (Decidable (n ≠ 0 ∧ 2 ^ n.log2 = n))

theorem IsPowerOfTwo.exists_eq (h : IsPowerOfTwo n) : ∃ k, n = 2 ^ k := ⟨_, h.2.symm⟩

theorem IsPowerOfTwo.pos (h : IsPowerOfTwo n) : 0 < n := Nat.pos_of_ne_zero h.1

theorem IsPowerOfTwo.max (ha : IsPowerOfTwo a) (hb : IsPowerOfTwo b) : IsPowerOfTwo (max a b) := by
  rcases le_total a b with h | h
  · rwa [max_eq_right h]
  · rwa [max_eq_left h]

theorem IsPowerOfTwo.dvd_of_le (ha : IsPowerOfTwo a) (hb : IsPowerOfTwo b) (h : a ≤ b) : a ∣ b := by
  obtain ⟨j, rfl⟩ := ha.exists_eq
  obtain ⟨k, rfl⟩ := hb.exists_eq
  exact pow_dvd_pow 2 ((Nat.pow_le_pow_iff_right (by norm_num)).mp h)

/-- `value & !(align - 1)` on 64-bit words, for a power of two `align`. -/
def alignDown (value align : ℕ) : ℕ := value &&& (2 ^ 64 - align)

theorem alignDown_eq (ha : IsPowerOfTwo a) (hn : n < 2 ^ 64) (hle : a ≤ 2 ^ 64) :
    alignDown n a = n / a * a := by
  obtain ⟨k, rfl⟩ := ha.exists_eq
  have hm : 2 ^ 64 - 2 ^ k = 2 ^ 64 - (2 ^ k - 1 + 1) := by
    have := Nat.one_le_two_pow (n := k)
    omega
  apply Nat.eq_of_testBit_eq
  intro i
  have hlt : 2 ^ k - 1 < 2 ^ 64 := by
    omega
  rw [alignDown, hm, Nat.testBit_and, Nat.testBit_two_pow_sub_succ hlt,
    Nat.testBit_mul_two_pow, Nat.testBit_div_two_pow]
  by_cases hki : k ≤ i
  · rw [Nat.sub_add_cancel hki]
    by_cases hi : i < 64
    · simp [hki, hi]
    · have : n.testBit i = false :=
        Nat.testBit_lt_two_pow (hn.trans_le (Nat.pow_le_pow_right (by norm_num) (by omega)))
      simp [this]
  · simp [Nat.lt_of_not_le hki]

/-- Rounding up never loses bytes, adds less than one unit and yields a multiple. -/
theorem alignUp_spec (ha : IsPowerOfTwo a) (hle : a ≤ 2 ^ 64) (hn : n + (a - 1) < 2 ^ 64) :
    a ∣ alignDown (n + (a - 1)) a ∧ n ≤ alignDown (n + (a - 1)) a ∧
      alignDown (n + (a - 1)) a < n + a := by
  have hpos := ha.pos
  rw [alignDown_eq ha hn hle]
  have hd := Nat.div_add_mod (n + (a - 1)) a
  have hm := Nat.mod_lt (n + (a - 1)) hpos
  rw [mul_comm] at hd
  exact ⟨dvd_mul_left _ _, by omega, by omega⟩

def pageShift : ℕ := 12

def pageSize : ℕ := 2 ^ pageShift

end Roanix.Mem
