import Mathlib.Order.Basic

/-! Bitmaps of 64-bit words: single bits, and the lowest bit in a range, found a word at a time. -/
namespace Roanix.Lib
open Function

abbrev Bitmap := ℕ → BitVec 64

namespace Bitmap
variable {b : Bitmap} {i j start stop : ℕ}

def get (b : Bitmap) (i : ℕ) : Bool := (b (i / 64)).getLsbD (i % 64)

def set (b : Bitmap) (i : ℕ) : Bitmap :=
  update b (i / 64) (b (i / 64) ||| 1#64 <<< (i % 64))

def clear (b : Bitmap) (i : ℕ) : Bitmap :=
  update b (i / 64) (b (i / 64) &&& ~~~(1#64 <<< (i % 64)))

theorem getLsbD_one_shiftLeft {k m : ℕ} (hk : k < 64) :
    (1#64 <<< m).getLsbD k = decide (k = m) := by
  rw [BitVec.getLsbD_shiftLeft, BitVec.getLsbD_one]
  by_cases h : k = m
  · simp [h, show m < 64 by omega]
  · simp only [h, decide_false, Bool.and_eq_false_iff, decide_eq_false_iff_not, Bool.not_eq_false',
      decide_eq_true_eq]
    omega

theorem eq_iff_of_word (h : j / 64 = i / 64) : j % 64 = i % 64 ↔ j = i := by omega

theorem get_set (b : Bitmap) (i j : ℕ) : (b.set i).get j = (decide (j = i) || b.get j) := by
  unfold get set
  by_cases hword : j / 64 = i / 64
  · rw [hword, update_self, BitVec.getLsbD_or,
      getLsbD_one_shiftLeft (Nat.mod_lt _ (by decide)), Bool.or_comm,
      decide_eq_decide.mpr (eq_iff_of_word hword)]
  · have hne : j ≠ i := fun h => hword (h ▸ rfl)
    rw [update_of_ne hword, decide_eq_false hne, Bool.false_or]

theorem get_clear (b : Bitmap) (i j : ℕ) : (b.clear i).get j = (!decide (j = i) && b.get j) := by
  unfold get clear
  by_cases hword : j / 64 = i / 64
  · have hlt : j % 64 < 64 := Nat.mod_lt _ (by decide)
    rw [hword, update_self, BitVec.getLsbD_and, BitVec.getLsbD_not,
      getLsbD_one_shiftLeft hlt, decide_eq_true hlt, Bool.true_and, Bool.and_comm,
      decide_eq_decide.mpr (eq_iff_of_word hword)]
  · have hne : j ≠ i := fun h => hword (h ▸ rfl)
    rw [update_of_ne hword, decide_eq_false hne, Bool.not_false, Bool.true_and]

/-- A word with the bits outside the range masked off at both ends. -/
def masked (b : Bitmap) (start stop word : ℕ) : BitVec 64 :=
  let occupied := b word
  let occupied :=
    if word = start / 64 then occupied &&& (BitVec.allOnes 64 <<< (start % 64)) else occupied
  if word = stop / 64 ∧ stop % 64 ≠ 63 then occupied &&& ((1#64 <<< (stop % 64 + 1)) - 1#64)
  else occupied

/-- The first bit of the range, over the words from `word` on. -/
def scan (b : Bitmap) (start stop : ℕ) : ℕ → ℕ → Option ℕ
  | 0, _ => none
  | left + 1, word =>
    if b.masked start stop word ≠ 0 then some (word * 64 + (b.masked start stop word).ctz.toNat)
    else scan b start stop left (word + 1)

def first (b : Bitmap) (start stop : ℕ) : Option ℕ :=
  b.scan start stop (stop / 64 + 1 - start / 64) (start / 64)

theorem getLsbD_allOnes_shiftLeft {k m : ℕ} (hk : k < 64) :
    (BitVec.allOnes 64 <<< m).getLsbD k = decide (m ≤ k) := by
  rw [BitVec.getLsbD_shiftLeft, BitVec.getLsbD_allOnes]
  by_cases h : m ≤ k
  · simp [h, hk, show k - m < 64 by omega]
  · simp [Nat.lt_of_not_le h]

theorem getLsbD_low_mask {k m : ℕ} (hk : k < 64) (hm : m < 63) :
    ((1#64 <<< (m + 1)) - 1#64).getLsbD k = decide (k ≤ m) := by
  have hpow : 2 ^ (m + 1) < 2 ^ 64 := Nat.pow_lt_pow_right (by decide) (by omega)
  have hpos : 0 < 2 ^ (m + 1) := Nat.two_pow_pos _
  have hnat : ((1#64 <<< (m + 1)) - 1#64) = BitVec.ofNat 64 (2 ^ (m + 1) - 1) := by
    apply BitVec.eq_of_toNat_eq
    rw [BitVec.toNat_sub_of_le]
    · rw [BitVec.toNat_shiftLeft, BitVec.toNat_ofNat, BitVec.toNat_ofNat]
      omega
    · rw [BitVec.le_def, BitVec.toNat_shiftLeft, BitVec.toNat_ofNat]
      omega
  rw [hnat, BitVec.getLsbD_ofNat, Nat.testBit_two_pow_sub_one, decide_eq_true hk]
  exact decide_eq_decide.mpr (by omega)

theorem getLsbD_masked (b : Bitmap) {start stop word k : ℕ} (hfirst : start / 64 ≤ word)
    (hlast : word ≤ stop / 64) (hk : k < 64) :
    (b.masked start stop word).getLsbD k = true ↔
      b.get (word * 64 + k) = true ∧ start ≤ word * 64 + k ∧ word * 64 + k ≤ stop := by
  have hget : b.get (word * 64 + k) = (b word).getLsbD k := by
    rw [get, show (word * 64 + k) / 64 = word by omega, show (word * 64 + k) % 64 = k by omega]
  have hlow : (if word = start / 64 then b word &&& (BitVec.allOnes 64 <<< (start % 64))
      else b word).getLsbD k = true ↔ (b word).getLsbD k = true ∧ start ≤ word * 64 + k := by
    split_ifs with hword
    · rw [BitVec.getLsbD_and, getLsbD_allOnes_shiftLeft hk, Bool.and_eq_true, decide_eq_true_eq]
      refine and_congr_right fun _ => ?_
      omega
    · exact (and_iff_left (by omega)).symm
  rw [hget, ← and_assoc, ← hlow]
  unfold masked
  dsimp only
  by_cases hend : word = stop / 64 ∧ stop % 64 ≠ 63
  · rw [if_pos hend, BitVec.getLsbD_and, getLsbD_low_mask hk (by omega), Bool.and_eq_true,
      decide_eq_true_eq]
    refine and_congr_right fun _ => ?_
    omega
  · rw [if_neg hend]
    exact (and_iff_left (by omega)).symm

/-- The index is the lowest one of a range whose bit is set. -/
structure Least (b : Bitmap) (start stop i : ℕ) : Prop where
  ge : start ≤ i
  le : i ≤ stop
  set : b.get i = true
  min : ∀ j, start ≤ j → j < i → b.get j = false

theorem scan_spec {left word : ℕ} (hfirst : start / 64 ≤ word) (hlast : word + left = stop / 64 + 1)
    (hbelow : ∀ j, start ≤ j → j ≤ stop → j < word * 64 → b.get j = false) :
    match b.scan start stop left word with
    | some i => Least b start stop i
    | none => ∀ j, start ≤ j → j ≤ stop → b.get j = false := by
  induction left generalizing word with
  | zero =>
    intro j hstart hstop
    exact hbelow j hstart hstop (by omega)
  | succ left ih =>
    unfold scan
    have hbit (j : ℕ) (hj : word * 64 ≤ j) (hlt : j < word * 64 + 64) :
        (b.masked start stop word).getLsbD (j - word * 64) = true ↔
          b.get j = true ∧ start ≤ j ∧ j ≤ stop := by
      rw [getLsbD_masked b hfirst (by omega) (by omega), Nat.add_sub_of_le hj]
    by_cases hzero : b.masked start stop word = 0
    · -- nothing in this word, so everything below the next one is clear
      rw [if_neg (not_not.mpr hzero)]
      refine ih (by omega) (by omega) fun j hstart hstop hj => ?_
      by_cases hword : j < word * 64
      · exact hbelow j hstart hstop hword
      have hbit := hbit j (by omega) (by omega)
      rw [hzero] at hbit
      by_contra hset
      exact absurd (hbit.mpr ⟨Bool.not_eq_false _ ▸ hset, hstart, hstop⟩) (by simp)
    · rw [if_pos hzero]
      have hlt : (b.masked start stop word).ctz.toNat < 64 := BitVec.ctz_lt_iff_ne_zero.mpr hzero
      obtain ⟨hset, hge, hle⟩ := (getLsbD_masked b hfirst (by omega) hlt).mp
        (BitVec.getLsbD_true_ctz_of_ne_zero hzero)
      refine ⟨hge, hle, hset, fun j hstart hj => ?_⟩
      by_cases hword : j < word * 64
      · exact hbelow j hstart (by omega) hword
      have hbit := hbit j (by omega) (by omega)
      rw [BitVec.getLsbD_false_of_lt_ctz (by omega)] at hbit
      by_contra hset'
      exact absurd (hbit.mpr ⟨Bool.not_eq_false _ ▸ hset', hstart, by omega⟩) (by simp)

theorem first_spec (b : Bitmap) (h : start ≤ stop) :
    match b.first start stop with
    | some i => Least b start stop i
    | none => ∀ j, start ≤ j → j ≤ stop → b.get j = false :=
  scan_spec (Nat.le_refl _) (by omega) fun j hstart _ hj => by omega

end Bitmap
end Roanix.Lib
