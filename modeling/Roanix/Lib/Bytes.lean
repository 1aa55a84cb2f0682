import Mathlib.Tactic.Ring
import Roanix.Lib.Safe
import Roanix.Lib.Splice

/-! Fields of byte buffers: little-endian numbers, and accesses with bounds checks. -/
namespace Roanix.Lib

/-- The number that the bytes spell, lowest byte first. -/
def leNat : List UInt8 → ℕ
  | [] => 0
  | byte :: bytes => byte.toNat + 2 ^ 8 * leNat bytes

theorem leNat_lt (bytes : List UInt8) : leNat bytes < 2 ^ (8 * bytes.length) := by
  induction bytes with
  | nil => decide
  | cons byte bytes ih =>
    have hbyte := byte.toNat_lt
    have hpow : 2 ^ (8 * (byte :: bytes).length) = 2 ^ 8 * 2 ^ (8 * bytes.length) := by
      rw [List.length_cons]
      ring
    rw [leNat]
    omega

/-- The little-endian number of `width` bytes at an offset, if the buffer has them. -/
def field (width : ℕ) (bytes : List UInt8) (offset : ℕ) : Option ℕ :=
  if offset + width ≤ bytes.length then some (leNat (slice bytes offset width)) else none

theorem field_lt {width offset n : ℕ} {bytes : List UInt8} (h : field width bytes offset = some n) :
    n < 2 ^ (8 * width) := by
  unfold field at h
  split_ifs at h with hfit
  cases h
  have := leNat_lt (slice bytes offset width)
  rwa [length_slice hfit] at this

namespace Act
variable {ε π σ : Type}

/-- `&bytes[start..stop]`. -/
def subslice (r : π) (bytes : List UInt8) (start stop : ℕ) : Act ε π σ (List UInt8) := do
  check (start ≤ stop ∧ stop ≤ bytes.length) r
  pure (slice bytes start (stop - start))

/-- `bytes[i]`. -/
def byteAt (r : π) (bytes : List UInt8) (i : ℕ) : Act ε π σ UInt8 := do
  check (i < bytes.length) r
  pure (bytes.getD i 0)

theorem safe_subslice {bytes : List UInt8} {start stop : ℕ} (hle : start ≤ stop)
    (h : stop ≤ bytes.length) (r : π) :
    Safe (subslice r bytes start stop : Act ε π σ (List UInt8))
      fun b => b = slice bytes start (stop - start) ∧ b.length = stop - start :=
  (safe_check ⟨hle, h⟩ r).bind fun _ _ => safe_pure ⟨rfl, length_slice (by omega)⟩

theorem safe_byteAt {bytes : List UInt8} {i : ℕ} (h : i < bytes.length) (r : π) :
    Safe (byteAt r bytes i : Act ε π σ UInt8) fun b => b = bytes.getD i 0 :=
  (safe_check h r).bind fun _ _ => safe_pure rfl

end Act
end Roanix.Lib
