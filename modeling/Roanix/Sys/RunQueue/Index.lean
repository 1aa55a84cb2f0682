import Mathlib.Algebra.Order.BigOperators.Group.Finset
import Roanix.Sys.RunQueue.Basic

/-! The queue, its bitmap and its count agree, and the choice that the bitmap finds is the first in
the order of priorities and of the calendar. -/
namespace Roanix.Sys.Runq
open Lib Lib.Act Function List

section Heads
variable {ι : Type} {queues : ℕ → List ι} {buckets : List ℕ}

def headIn (queues : ℕ → List ι) (buckets : List ℕ) : Option ι :=
  buckets.findSome? fun i => (queues i).head?

def bucketsOf (start stop : ℕ) : List ℕ := List.range' start (stop + 1 - start)

/-- The batch buckets in the order in which the calendar turns, from the pick cursor. -/
def rotation (pick : ℕ) : List ℕ :=
  (List.range priBatchRange).map fun k => minBatch + (pick + k) % priBatchRange

theorem headIn_eq_none : headIn queues buckets = none ↔ ∀ i ∈ buckets, queues i = [] := by
  unfold headIn
  rw [findSome?_eq_none_iff]
  exact forall₂_congr fun _ _ => head?_eq_none_iff

theorem headIn_append (queues : ℕ → List ι) (a b : List ℕ) :
    headIn queues (a ++ b) = (headIn queues a).or (headIn queues b) :=
  findSome?_append

theorem mem_bucketsOf {start stop i : ℕ} : i ∈ bucketsOf start stop ↔ start ≤ i ∧ i ≤ stop := by
  rw [bucketsOf, mem_range'_1]
  omega

theorem bucketsOf_split {start stop i : ℕ} (hge : start ≤ i) (hle : i ≤ stop) :
    bucketsOf start stop = List.range' start (i - start) ++ i :: List.range' (i + 1) (stop - i) := by
  have happend := range'_append_1 (s := start) (m := i - start) (n := stop - i + 1)
  rw [show start + (i - start) = i by omega, range'_succ] at happend
  rw [happend, bucketsOf, show i - start + (stop - i + 1) = stop + 1 - start by omega]

/-- The calendar runs to the end of the batch range and goes on from its start. -/
theorem rotation_eq {pick : ℕ} (h : pick < priBatchRange) :
    rotation pick = bucketsOf (minBatch + pick) maxBatch ++ List.range' minBatch pick := by
  simp only [rotation, bucketsOf, priBatchRange, minBatch, maxBatch] at h ⊢
  apply ext_getElem
  · simp only [length_map, length_range, length_append, length_range']
    omega
  · intro k hk _
    simp only [length_map, length_range] at hk
    simp only [getElem_map, getElem_range, getElem_append, length_range',
      getElem_range']
    split <;> omega

end Heads

variable {ι : Type} [DecidableEq ι] {s s' : CpuState ι} {t : ι} {bucket : ℕ}

/-- The bitmap shows the buckets in use, the count is that of the queued threads, and a thread is
queued in the bucket that it names. -/
structure Indexed (s : CpuState ι) : Prop where
  bits : ∀ i, s.runq.bits.get i = true ↔ s.runq.queues i ≠ []
  empty : ∀ i, 256 ≤ i → s.runq.queues i = []
  len : s.runq.len = ∑ i ∈ Finset.range 256, (s.runq.queues i).length
  queued : ∀ i t, t ∈ s.runq.queues i ↔ (s.threads t).linked = true ∧ (s.threads t).rqindex = i
  nodup : ∀ i, (s.runq.queues i).Nodup

namespace Indexed

section Choice
variable {start stop : ℕ}
omit [DecidableEq ι]

section
variable (hs : Indexed s)
include hs

theorem firstOccupiedBucket (h : start ≤ stop) :
    match s.runq.firstOccupiedBucket start stop with
    | some i => start ≤ i ∧ i ≤ stop ∧ s.runq.queues i ≠ [] ∧
        ∀ j, start ≤ j → j < i → s.runq.queues j = []
    | none => ∀ j, start ≤ j → j ≤ stop → s.runq.queues j = [] := by
  have hclear : ∀ j, s.runq.bits.get j = false → s.runq.queues j = [] := by
    intro j hj
    by_contra hne
    rw [(hs.bits j).mpr hne] at hj
    cases hj
  have hfirst := Bitmap.first_spec s.runq.bits h
  unfold RunQueue.firstOccupiedBucket
  cases heq : s.runq.bits.first start stop with
  | some i =>
    rw [heq] at hfirst
    exact ⟨hfirst.ge, hfirst.le, (hs.bits i).mp hfirst.set, fun j hj hlt =>
      hclear j (hfirst.min j hj hlt)⟩
  | none =>
    rw [heq] at hfirst
    exact fun j hj hle => hclear j (hfirst j hj hle)

theorem firstInRange (h : start ≤ stop) :
    s.runq.firstInRange start stop = headIn s.runq.queues (bucketsOf start stop) := by
  have hfirst := hs.firstOccupiedBucket h
  unfold RunQueue.firstInRange
  split at hfirst
  · next i heq =>
    obtain ⟨hge, hle, hused, hbelow⟩ := hfirst
    have hnone : headIn s.runq.queues (range' start (i - start)) = none := by
      rw [headIn_eq_none]
      intro j hj
      rw [mem_range'_1] at hj
      exact hbelow j hj.1 (by omega)
    obtain ⟨t, ht⟩ := Option.ne_none_iff_exists'.mp (mt head?_eq_none_iff.mp hused)
    rw [heq, bucketsOf_split hge hle, headIn_append, hnone, Option.none_or]
    simp only [Option.bind_some, headIn, findSome?_cons, ht]
  · next heq =>
    rw [heq, Option.bind_none, eq_comm, headIn_eq_none]
    intro j hj
    rw [mem_bucketsOf] at hj
    exact hfirst j hj.1 hj.2

theorem firstTimeshare {pick : ℕ} (h : pick < priBatchRange) :
    s.runq.firstTimeshare pick = headIn s.runq.queues (rotation pick) := by
  have hend : minBatch + pick ≤ maxBatch := by
    simp only [priBatchRange, minBatch, maxBatch] at h ⊢
    omega
  have hstart : min (minBatch + pick) 255 = minBatch + pick :=
    Nat.min_eq_left (hend.trans (by decide))
  rw [rotation_eq h, headIn_append, ← hs.firstInRange hend, RunQueue.firstTimeshare, hstart]
  split_ifs with hpick
  · have hone : minBatch ≤ minBatch + pick - 1 := by omega
    rw [hs.firstInRange hone, bucketsOf,
      show minBatch + pick - 1 + 1 - minBatch = pick by omega]
  · rw [not_not.mp hpick]
    rfl

theorem bestRunnable (hpick : s.tsPickCursor < priBatchRange) :
    s.bestRunnable = headIn s.runq.queues
      (bucketsOf 0 maxInteract ++ rotation s.tsPickCursor ++ bucketsOf minIdle maxIdle) := by
  rw [CpuState.bestRunnable, headIn_append, headIn_append, hs.firstInRange (by decide),
    hs.firstTimeshare hpick, hs.firstInRange (by decide)]

theorem len_eq_zero : s.runq.len = 0 ↔ ∀ i, s.runq.queues i = [] := by
  rw [hs.len, Finset.sum_eq_zero_iff]
  constructor
  · intro h i
    by_cases hi : i < 256
    · exact length_eq_zero_iff.mp (h i (Finset.mem_range.mpr hi))
    · exact hs.empty i (by omega)
  · intro h i _
    rw [h i, length_nil]

theorem bestRunnable_eq_none (hpick : s.tsPickCursor < priBatchRange) :
    s.bestRunnable = none ↔ s.runq.len = 0 := by
  rw [hs.bestRunnable hpick, headIn_eq_none, hs.len_eq_zero]
  constructor
  · intro h i
    by_cases hi : i < 256
    · apply h
      rw [rotation_eq hpick]
      simp only [mem_append, mem_bucketsOf, mem_range'_1, maxInteract, minBatch, maxBatch,
        minIdle, maxIdle]
      omega
    · exact hs.empty i (by omega)
  · exact fun h i _ => h i

end

end Choice

section Changes

section
omit [DecidableEq ι]

theorem total_update (queues : ℕ → List ι) (l : List ι) (hb : bucket < 256) :
    (∑ i ∈ Finset.range 256, (update queues bucket l i).length) + (queues bucket).length =
      (∑ i ∈ Finset.range 256, (queues i).length) + l.length := by
  have hmem := Finset.mem_range.mpr hb
  have hrest : ∑ i ∈ (Finset.range 256).erase bucket, (update queues bucket l i).length =
      ∑ i ∈ (Finset.range 256).erase bucket, (queues i).length := by
    apply Finset.sum_congr rfl
    intro i hi
    rw [update_of_ne (Finset.ne_of_mem_erase hi)]
  rw [← Finset.add_sum_erase _ (fun i => (update queues bucket l i).length) hmem,
    ← Finset.add_sum_erase _ (fun i => (queues i).length) hmem, update_self]
  omega

theorem frame (hs : Indexed s) (hrunq : s'.runq = s.runq)
    (hlinked : ∀ t, (s'.threads t).linked = (s.threads t).linked)
    (hrqindex : ∀ t, (s.threads t).linked = true → (s'.threads t).rqindex = (s.threads t).rqindex) :
    Indexed s' where
  bits := by rw [hrunq]; exact hs.bits
  empty := by rw [hrunq]; exact hs.empty
  len := by rw [hrunq]; exact hs.len
  queued := by
    intro i t
    rw [hrunq, hs.queued, hlinked]
    exact and_congr_right fun h => by rw [hrqindex t h]
  nodup := by rw [hrunq]; exact hs.nodup

theorem requeued (hs : Indexed s) {l : List ι} (hb : bucket < 256)
    (hqueues : s'.runq.queues = update s.runq.queues bucket l)
    (hbits : ∀ i, i ≠ bucket → s'.runq.bits.get i = s.runq.bits.get i)
    (hbit : s'.runq.bits.get bucket = true ↔ l ≠ [])
    (hlen : s'.runq.len + (s.runq.queues bucket).length = s.runq.len + l.length)
    (hnodup : l.Nodup) (hothers : ∀ u, u ≠ t → s'.threads u = s.threads u)
    (hmem : ∀ u, u ≠ t → (u ∈ l ↔ u ∈ s.runq.queues bucket))
    (hlinked : t ∈ l ↔ (s'.threads t).linked = true) (hbefore : (s.threads t).rqindex = bucket)
    (hafter : (s'.threads t).rqindex = bucket) : Indexed s' := by
  have hself : s'.runq.queues bucket = l := by rw [hqueues, update_self]
  have hother : ∀ i, i ≠ bucket → s'.runq.queues i = s.runq.queues i := by
    intro i hi
    rw [hqueues, update_of_ne hi]
  constructor
  · intro i
    by_cases hi : i = bucket
    · rw [hi, hself, hbit]
    · rw [hother i hi, hbits i hi, hs.bits]
  · intro i hi
    rw [hother i (by omega), hs.empty i hi]
  · have htotal := total_update s.runq.queues l hb
    have hcount := hs.len
    rw [hqueues]
    omega
  · intro i u
    by_cases hi : i = bucket
    · rw [hi, hself]
      by_cases hu : u = t
      · rw [hu, hlinked, hafter, and_iff_left rfl]
      · rw [hmem u hu, hs.queued, hothers u hu]
    · rw [hother i hi, hs.queued]
      by_cases hu : u = t
      · rw [hu, hbefore, hafter]
        exact iff_of_false (fun h => hi h.2.symm) (fun h => hi h.2.symm)
      · rw [hothers u hu]
  · intro i
    by_cases hi : i = bucket
    · rwa [hi, hself]
    · rw [hother i hi]
      exact hs.nodup i

end

theorem pushed (hs : Indexed s) (hb : bucket < 256) (hlinked : (s.threads t).linked = false)
    (hrqindex : (s.threads t).rqindex = bucket) (front : Bool) :
    Indexed (s.pushed bucket t front) := by
  have hout : t ∉ s.runq.queues bucket := by
    rw [hs.queued, hlinked]
    exact fun h => Bool.false_ne_true h.1
  have hperm : (if front then t :: s.runq.queues bucket else s.runq.queues bucket ++ [t]).Perm
      (t :: s.runq.queues bucket) := by
    cases front
    · exact perm_append_singleton t _
    · exact List.Perm.refl _
  apply hs.requeued hb rfl
  · intro i hi
    simp only [CpuState.pushed, Bitmap.get_set, hi, decide_false, Bool.false_or]
  · simp only [CpuState.pushed, Bitmap.get_set, decide_true, Bool.true_or, true_iff]
    exact fun h => cons_ne_nil _ _ (h ▸ hperm).nil_eq.symm
  · simp only [CpuState.pushed, hperm.length_eq, length_cons]
    omega
  · exact hperm.nodup_iff.mpr (nodup_cons.mpr ⟨hout, hs.nodup bucket⟩)
  · exact fun u hu => update_of_ne hu _ _
  · intro u hu
    rw [hperm.mem_iff, mem_cons, or_iff_right hu]
  · simp only [hperm.mem_iff, mem_cons_self, CpuState.pushed, CpuState.withThread,
      update_self]
  · exact hrqindex
  · simpa only [CpuState.pushed, CpuState.withThread, update_self] using hrqindex

theorem removed (hs : Indexed s) (hlinked : (s.threads t).linked = true)
    (hrqindex : (s.threads t).rqindex = bucket) : Indexed (s.removed bucket t) := by
  have hin : t ∈ s.runq.queues bucket := (hs.queued bucket t).mpr ⟨hlinked, hrqindex⟩
  have hb : bucket < 256 := by
    by_contra hge
    rw [hs.empty bucket (by omega)] at hin
    cases hin
  apply hs.requeued hb rfl
  · intro i hi
    simp only [CpuState.removed]
    split_ifs
    · simp only [Bitmap.get_clear, hi, decide_false, Bool.not_false, Bool.true_and]
    · rfl
  · simp only [CpuState.removed]
    split_ifs with hq
    · simp [Bitmap.get_clear, hq]
    · exact iff_of_true ((hs.bits bucket).mpr (ne_nil_of_mem hin)) hq
  · have hlength := length_erase_of_mem hin
    have hpos := length_pos_of_mem hin
    have hcount : (s.runq.queues bucket).length ≤ s.runq.len := by
      rw [hs.len]
      exact Finset.single_le_sum (f := fun i => (s.runq.queues i).length)
        (fun _ _ => Nat.zero_le _) (Finset.mem_range.mpr hb)
    simp only [CpuState.removed]
    omega
  · exact (hs.nodup bucket).erase t
  · exact fun u hu => update_of_ne hu _ _
  · exact fun u hu => mem_erase_of_ne hu
  · simp only [CpuState.removed, CpuState.withThread, update_self,
      (hs.nodup bucket).mem_erase_iff, ne_eq, not_true_eq_false, false_and, Bool.false_eq_true]
  · exact hrqindex
  · simpa only [CpuState.removed, CpuState.withThread, update_self] using hrqindex

end Changes

end Indexed

end Roanix.Sys.Runq
