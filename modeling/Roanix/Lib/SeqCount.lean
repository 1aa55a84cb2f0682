import Mathlib.Data.Int.ModEq
import Mathlib.Tactic.Ring

/-! A word that counts the writers in its low bits and the times that a writer came or went in the
others. Equal words without writers mean that no writer came, unless the word went all the way
round. -/
namespace Roanix.Lib.SeqCount

/-- The word after some writers came and some of them went. -/
def word (low high came gone : ℕ) : ℕ :=
  (came * (2 ^ low + 1) + gone * (2 ^ low - 1)) % 2 ^ (low + high)

variable {low high came gone came' gone' : ℕ}

theorem unfold_word (h : gone ≤ came) : came * (2 ^ low + 1) + gone * (2 ^ low - 1) =
    2 ^ low * (came + gone) + (came - gone) := by
  obtain ⟨k, rfl⟩ := Nat.exists_eq_add_of_le h
  obtain ⟨p, hp⟩ : ∃ p, 2 ^ low = p + 1 := Nat.exists_eq_succ_of_ne_zero (Nat.two_pow_pos low).ne'
  rw [hp, Nat.add_sub_cancel, Nat.add_sub_cancel_left]
  ring

theorem word_div (h : gone ≤ came) (hfew : came - gone < 2 ^ low) :
    word low high came gone / 2 ^ low = (came + gone) % 2 ^ high := by
  unfold word
  rw [unfold_word h, pow_add, Nat.mod_mul_right_div_self]
  rw [Nat.mul_add_div (Nat.two_pow_pos low), Nat.div_eq_of_lt hfew, Nat.add_zero]

/-- The low bits tell whether there is a writer. -/
theorem word_mod_eq_zero (h : gone ≤ came) (hfew : came - gone < 2 ^ low) :
    word low high came gone % 2 ^ low = 0 ↔ came = gone := by
  unfold word
  rw [unfold_word h, Nat.mod_mod_of_dvd _ (pow_dvd_pow 2 (Nat.le_add_right low high)),
    Nat.mul_add_mod, Nat.mod_eq_of_lt hfew]
  omega

/-- Two words without writers are equal only if nobody came in between, or too many did. -/
theorem word_inj (hhigh : high ≠ 0) (hle : came ≤ came') (hnear : came' < came + 2 ^ (high - 1))
    (heq : word low high came came = word low high came' came') : came = came' := by
  have hdiv := congrArg (· / 2 ^ low) heq
  have hnone (n : ℕ) : n - n < 2 ^ low := by
    rw [Nat.sub_self]
    exact Nat.two_pow_pos low
  rw [word_div le_rfl (hnone _), word_div le_rfl (hnone _)] at hdiv
  obtain ⟨k, rfl⟩ := Nat.exists_eq_succ_of_ne_zero hhigh
  rw [Nat.succ_eq_add_one, Nat.add_sub_cancel] at hnear
  have hround : 2 ^ (k + 1) ∣ came' + came' - (came + came) :=
    (Nat.modEq_iff_dvd' (by omega)).mp hdiv
  have hzero := Nat.eq_zero_of_dvd_of_lt hround (by omega)
  omega

theorem word_came : (word low high came gone + (2 ^ low + 1)) % 2 ^ (low + high) =
    word low high (came + 1) gone := by
  unfold word
  rw [Nat.mod_add_mod]
  ring_nf

theorem word_gone : (word low high came gone + (2 ^ low - 1)) % 2 ^ (low + high) =
    word low high came (gone + 1) := by
  unfold word
  rw [Nat.mod_add_mod]
  ring_nf

end Roanix.Lib.SeqCount
