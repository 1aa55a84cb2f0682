import Mathlib.Data.List.Basic

/-! Reading and overwriting a range of a list. -/
namespace Roanix.Lib
open List
variable {α : Type}

def slice (xs : List α) (i n : ℕ) : List α := (xs.drop i).take n

/-- `ys` written over the cells from `i` on. -/
def splice (xs : List α) (i : ℕ) (ys : List α) : List α :=
  xs.take i ++ ys ++ xs.drop (i + ys.length)

variable {xs ys zs : List α} {i j n : ℕ}

theorem length_slice (h : i + n ≤ xs.length) : (slice xs i n).length = n := by
  simp only [slice, length_take, length_drop]
  omega

theorem getElem?_slice (xs : List α) (i n k : ℕ) :
    (slice xs i n)[k]? = if k < n then xs[i + k]? else none := by
  simp only [slice, getElem?_take, getElem?_drop]

theorem slice_zero (xs : List α) (i : ℕ) : slice xs i 0 = [] := take_zero

theorem slice_append (xs : List α) (i m n : ℕ) :
    slice xs i (m + n) = slice xs i m ++ slice xs (i + m) n := by
  simp only [slice, take_add, drop_drop]

theorem slice_slice (h : j + n ≤ i) (xs : List α) (k : ℕ) :
    slice (slice xs k i) j n = slice xs (k + j) n := by
  apply ext_getElem?
  intro m
  simp only [getElem?_slice, Nat.add_assoc]
  split_ifs <;> first | rfl | omega

theorem slice_drop (xs : List α) (k i n : ℕ) : slice (xs.drop k) i n = slice xs (k + i) n := by
  simp only [slice, drop_drop]

theorem slice_take (h : i + n ≤ j) (xs : List α) : slice (xs.take j) i n = slice xs i n := by
  apply ext_getElem?
  intro m
  simp only [getElem?_slice, getElem?_take]
  split_ifs <;> first | rfl | omega

theorem slice_append_left (h : i + n ≤ xs.length) (ys : List α) :
    slice (xs ++ ys) i n = slice xs i n := by
  rw [← slice_take h (xs ++ ys), take_left]

theorem slice_append_list (h : i ≤ xs.length) (ys : List α) (n : ℕ) :
    slice (xs ++ ys) i n =
      slice xs i (min n (xs.length - i)) ++ slice ys 0 (n - min n (xs.length - i)) := by
  have hdrop : (xs.drop i).length = xs.length - i := length_drop
  unfold slice
  rw [drop_append_of_le_length h, take_append, ← take_take,
    ← hdrop, take_length]
  congr 2
  omega

section
variable {β : Type} {f : β → List α} {l : List β} {k : ℕ} (h : ∀ x ∈ l, (f x).length = k)
include h

/-- Of lists of one length put together, the first ones are left out. -/
theorem drop_flatMap (m : ℕ) : (l.flatMap f).drop (m * k) = (l.drop m).flatMap f := by
  induction m generalizing l with
  | zero => rw [Nat.zero_mul, drop_zero, drop_zero]
  | succ m ih =>
    cases l with
    | nil => rw [flatMap_nil, drop_nil, drop_nil, flatMap_nil]
    | cons x l =>
      have hx := h x mem_cons_self
      rw [flatMap_cons, drop_succ_cons, ← ih fun y hy => h y (mem_cons_of_mem x hy),
        Nat.succ_mul, Nat.add_comm, ← drop_drop, ← hx, drop_left]

theorem length_flatMap : (l.flatMap f).length = l.length * k := by
  rw [List.length_flatMap, List.map_congr_left h, List.map_const', List.sum_replicate_nat]

end

theorem length_splice (h : i + ys.length ≤ xs.length) : (splice xs i ys).length = xs.length := by
  simp only [splice, length_append, length_take, length_drop]
  omega

theorem getElem?_splice (h : i + ys.length ≤ xs.length) (k : ℕ) :
    (splice xs i ys)[k]? =
      if i ≤ k ∧ k < i + ys.length then ys[k - i]? else xs[k]? := by
  have hi : (xs.take i).length = i := length_take_of_le (by omega)
  unfold splice
  rcases Nat.lt_or_ge k i with hlt | hge
  · rw [append_assoc, getElem?_append_left (by omega), getElem?_take, if_pos hlt,
      if_neg (by omega)]
  rcases Nat.lt_or_ge k (i + ys.length) with hin | hout
  · rw [getElem?_append_left (by rw [length_append]; omega),
      getElem?_append_right (by omega), hi, if_pos ⟨hge, hin⟩]
  · rw [getElem?_append_right (by rw [length_append]; omega), length_append, getElem?_drop, if_neg (by omega)]
    congr 1
    omega

theorem splice_nil (xs : List α) (i : ℕ) : splice xs i [] = xs := by
  simp only [splice, append_nil, length_nil, Nat.add_zero, take_append_drop]

theorem slice_splice (h : i + ys.length ≤ xs.length) : slice (splice xs i ys) i ys.length = ys := by
  apply ext_getElem?
  intro k
  rw [getElem?_slice, getElem?_splice h]
  split_ifs with hk hin
  · rw [Nat.add_sub_cancel_left]
  · omega
  · exact (getElem?_eq_none (by omega)).symm

theorem slice_splice_append (h : i + (ys ++ zs).length ≤ xs.length) :
    slice (splice xs i (ys ++ zs)) i ys.length = ys := by
  have hread := slice_splice h
  rw [length_append, slice_append] at hread
  refine (append_inj hread (length_slice ?_)).1
  rw [length_splice h]
  rw [length_append] at h
  omega

theorem splice_splice (h : i + (ys ++ zs).length ≤ xs.length) :
    splice (splice xs i ys) (i + ys.length) zs = splice xs i (ys ++ zs) := by
  have hl : (ys ++ zs).length = ys.length + zs.length := length_append
  have hys : i + ys.length ≤ xs.length := by omega
  apply ext_getElem?
  intro k
  rw [getElem?_splice (by rw [length_splice hys]; omega), getElem?_splice hys, getElem?_splice h]
  rcases Nat.lt_or_ge k (i + ys.length) with hlt | hge
  · split_ifs with hin hout <;> first | omega | rfl | skip
    exact (getElem?_append_left (by omega)).symm
  · split_ifs with hin hout <;> first | omega | rfl | skip
    rw [getElem?_append_right (by omega), Nat.sub_sub]

/-- Changing part of what was read and writing it all back changes that part only. -/
theorem splice_splice_slice (hn : j + ys.length ≤ n) (h : i + n ≤ xs.length) :
    splice xs i (splice (slice xs i n) j ys) = splice xs (i + j) ys := by
  have hs := length_slice h
  have hl : (splice (slice xs i n) j ys).length = n := (length_splice (by omega)).trans hs
  have hij : i + j + ys.length ≤ xs.length := by omega
  apply ext_getElem?
  intro k
  rw [getElem?_splice (by omega), getElem?_splice hij]
  split_ifs with hin hout hout
  · rw [getElem?_splice (by omega), if_pos (by omega), Nat.sub_sub]
  · rw [getElem?_splice (by omega), if_neg (by omega), getElem?_slice, if_pos (by omega)]
    congr 1
    omega
  · omega
  · rfl

end Roanix.Lib
