import Roanix.Lib.Machine
import Roanix.Sys.RunQueue.Index

/-! The calendar never leaves its pick cursor at an empty bucket behind the insert cursor, and every
run of the scheduler keeps the index of the queue. -/
namespace Roanix.Sys.Runq
open Lib Lib.Act Function CpuState

variable {ι : Type} [DecidableEq ι] {s s' : CpuState ι} {t : ι} {bucket : ℕ}

/-- The cursors are in range, and while they differ the pick cursor is at a bucket in use. -/
structure Cursors (s : CpuState ι) : Prop where
  insert_lt : s.tsInsertCursor < priBatchRange
  pick_lt : s.tsPickCursor < priBatchRange
  occupied : s.tsPickCursor ≠ s.tsInsertCursor → s.runq.queues (minBatch + s.tsPickCursor) ≠ []

structure Ok (s : CpuState ι) : Prop where
  indexed : Indexed s
  cursors : Cursors s

section Advance
omit [DecidableEq ι]

theorem advanceLoop_eq (fuel : ℕ) (emptied : Bool) (s : CpuState ι) :
    ∃ pick, s.advanceLoop fuel emptied = { s with tsPickCursor := pick } := by
  induction fuel generalizing emptied s with
  | zero => exact ⟨_, rfl⟩
  | succ fuel ih =>
    unfold advanceLoop
    split_ifs
    · exact ⟨_, rfl⟩
    · exact ⟨_, rfl⟩
    · exact ih false _

section
variable (emptied : Bool) (hs : Indexed s) (hinsert : s.tsInsertCursor < priBatchRange) (hpick : s.tsPickCursor < priBatchRange)
include emptied hs hinsert hpick

theorem advanceLoop_cursors {fuel : ℕ}
    (hfuel : (s.tsInsertCursor + priBatchRange - s.tsPickCursor) % priBatchRange ≤ fuel) :
    Cursors (s.advanceLoop fuel emptied) := by
  induction fuel generalizing emptied s with
  | zero =>
    refine ⟨hinsert, hpick, fun hne => absurd ?_ hne⟩
    simp only [priBatchRange, advanceLoop] at *
    omega
  | succ fuel ih =>
    unfold advanceLoop
    split_ifs with heq hbreak
    · exact ⟨hinsert, hpick, fun hne => absurd heq hne⟩
    · refine ⟨hinsert, hpick, fun _ hempty => ?_⟩
      rw [hs.firstInRange le_rfl, headIn_eq_none.mpr] at hbreak
      · exact Bool.false_ne_true hbreak.2
      · intro i hi
        rwa [Nat.le_antisymm (mem_bucketsOf.mp hi).2 (mem_bucketsOf.mp hi).1]
    · refine ih false (hs.frame rfl (fun _ => rfl) fun _ _ => rfl) hinsert ?_ ?_
      · exact Nat.mod_lt _ (by decide)
      · simp only [priBatchRange] at *
        omega

theorem advancePickCursor_ok :
    Ok (s.advancePickCursor emptied) := by
  constructor
  · obtain ⟨pick, hloop⟩ := advanceLoop_eq priBatchRange emptied s
    rw [advancePickCursor, hloop]
    exact hs.frame rfl (fun _ => rfl) fun _ _ => rfl
  · exact advanceLoop_cursors emptied hs hinsert hpick (Nat.mod_lt _ (by decide)).le

end

theorem Ok.advanceTimeshareEpoch (hs : Ok s) (ticks : ℕ) : Ok (s.advanceTimeshareEpoch ticks) := by
  unfold CpuState.advanceTimeshareEpoch
  split_ifs
  · exact hs
  · exact advancePickCursor_ok false (hs.indexed.frame rfl (fun _ => rfl) fun _ _ => rfl)
      (Nat.mod_lt _ (by decide)) hs.cursors.pick_lt

theorem Ok.frame (hs : Ok s) (hrunq : s'.runq = s.runq)
    (hinsert : s'.tsInsertCursor = s.tsInsertCursor) (hpick : s'.tsPickCursor = s.tsPickCursor)
    (hlinked : ∀ t, (s'.threads t).linked = (s.threads t).linked)
    (hrqindex : ∀ t, (s.threads t).linked = true → (s'.threads t).rqindex = (s.threads t).rqindex) :
    Ok s' where
  indexed := hs.indexed.frame hrunq hlinked hrqindex
  cursors := by
    constructor
    · rw [hinsert]; exact hs.cursors.insert_lt
    · rw [hpick]; exact hs.cursors.pick_lt
    · rw [hinsert, hpick, hrunq]; exact hs.cursors.occupied

theorem queueBucket_lt (s : CpuState ι) (priority : Fin 256) (kind : EnqueueKind) :
    s.queueBucket priority kind < 256 := by
  have hmod : ∀ n, minBatch + n % priBatchRange < 256 := by
    intro n
    have hlt := Nat.mod_lt n (show 0 < priBatchRange by decide)
    simp only [priBatchRange, minBatch] at hlt ⊢
    omega
  unfold queueBucket
  by_cases hbatch : minBatch ≤ (priority : ℕ) ∧ (priority : ℕ) ≤ maxBatch
  · dsimp only
    split_ifs <;> exact hmod _
  · rw [if_pos hbatch]
    exact priority.isLt

theorem chooseNext_ok (s : CpuState ι) :
    wp (fun _ => True) chooseNext (fun _ s' => s' = s) (fun _ _ => True) s := by
  unfold wp chooseNext
  cases s.bestRunnable.or s.idle with
  | none => trivial
  | some next => rfl

theorem Ok.new {threads : ι → Thread} (h : ∀ t, (threads t).linked = false) (idle : Option ι) :
    Ok (.new threads idle) := by
  refine ⟨⟨?_, fun _ _ => rfl, ?_, ?_, fun _ => List.nodup_nil⟩, Nat.succ_pos _, Nat.succ_pos _,
    fun hne => absurd rfl hne⟩
  · intro i
    simp [CpuState.new, RunQueue.new, Bitmap.get]
  · simp [CpuState.new, RunQueue.new]
  · intro i t
    simp [CpuState.new, RunQueue.new, h]

end Advance

section Calls

theorem Ok.withThread (hs : Ok s) {f : Thread → Thread}
    (hlinked : (f (s.threads t)).linked = (s.threads t).linked)
    (hrqindex : (s.threads t).linked = true → (f (s.threads t)).rqindex = (s.threads t).rqindex) :
    Ok (s.withThread t f) := by
  refine hs.frame rfl rfl rfl (Lib.update_congr Thread.linked hlinked) ?_
  exact (forall_update_iff s.threads fun u th => (s.threads u).linked = true →
    th.rqindex = (s.threads u).rqindex).mpr ⟨hrqindex, fun _ _ _ => rfl⟩

theorem Ok.pushed (hs : Ok s) (hb : bucket < 256) (hlinked : (s.threads t).linked = false)
    (hrqindex : (s.threads t).rqindex = bucket) (front : Bool) : Ok (s.pushed bucket t front) where
  indexed := hs.indexed.pushed hb hlinked hrqindex front
  cursors := by
    refine { hs.cursors with occupied := fun hne => ?_ }
    have hused := hs.cursors.occupied hne
    change update s.runq.queues bucket _ (minBatch + s.tsPickCursor) ≠ []
    by_cases hpick : minBatch + s.tsPickCursor = bucket
    · rw [hpick]
      cases front <;> simp
    · rwa [update_of_ne hpick]

theorem push_ok (hs : Ok s) (hb : bucket < 256) (hrqindex : (s.threads t).rqindex = bucket)
    (front : Bool) :
    wp (fun _ => True) (push bucket t front) (fun _ s' => Ok s') (fun _ _ => True) s := by
  simp only [push, wp_bind]
  apply wp_check_or
  · intro hlinked
    exact hs.pushed hb hlinked hrqindex front
  · exact fun _ => trivial

theorem enqueueExisting_ok (hs : Ok s) (kind : EnqueueKind) :
    wp (fun _ => True) (enqueueExisting t kind) (fun _ s' => Ok s') (fun _ _ => True) s := by
  simp only [enqueueExisting, wp_bind, wp_get]
  split_ifs with hlinked
  · exact wp_check_or (fun _ => hs) fun _ => trivial
  · apply push_ok (hs.withThread rfl fun h => absurd h hlinked) (queueBucket_lt _ _ _)
    simp only [withThread, update_self]

theorem adoptThread_ok (hs : Ok s) (kind : EnqueueKind) :
    wp (fun _ => True) (adoptThread t kind) (fun _ s' => Ok s') (fun _ _ => True) s := by
  simp only [adoptThread, wp_bind, wp_modify]
  refine wp_post (enqueueExisting_ok hs kind) ?_
  intro _ s' hs'
  split_ifs
  · exact hs'.frame rfl rfl rfl (fun _ => rfl) fun _ _ => rfl
  · exact hs'

theorem dequeueThread_ok (hs : Ok s) :
    wp (fun _ => True) (dequeueThread t) (fun _ s' => Ok s') (fun _ _ => True) s := by
  simp only [dequeueThread, remove, wp_bind]
  apply wp_check_or _ fun _ => trivial
  intro hlinked
  have hremoved := hs.indexed.removed hlinked rfl
  simp only [wp_set, wp_pure, wp_modify]
  split_ifs with hmove
  · exact advancePickCursor_ok true hremoved hs.cursors.insert_lt hs.cursors.pick_lt
  · refine ⟨hremoved, hs.cursors.insert_lt, hs.cursors.pick_lt, fun hne hempty => ?_⟩
    change update s.runq.queues _ _ (minBatch + s.tsPickCursor) = [] at hempty
    by_cases hpick : minBatch + s.tsPickCursor = (s.threads t).rqindex
    · rw [hpick] at hempty
      have hlt := hs.cursors.pick_lt
      have hat : s.tsPickCursor + minBatch = (s.threads t).rqindex := by omega
      refine hmove ⟨⟨by omega, ?_⟩, ?_, hat⟩
      · simp only [priBatchRange, minBatch, maxBatch] at hlt hpick ⊢
        omega
      · exact decide_eq_true hempty
    · rw [update_of_ne hpick] at hempty
      exact hs.cursors.occupied hne hempty

theorem dequeueUnlessIdle_ok (hs : Ok s) :
    wp (fun _ => True) (dequeueUnlessIdle t) (fun _ s' => Ok s') (fun _ _ => True) s := by
  unfold wp dequeueUnlessIdle
  by_cases hidle : (s.threads t).isIdle = true
  · rw [if_pos hidle]
    exact hs
  · rw [if_neg hidle]
    exact dequeueThread_ok hs

theorem Ok.switchTo (hs : Ok s) (next : ι) (nowNs : ℕ) (previous : Option ι) :
    Ok (switchTo next nowNs previous s) := by
  have hrunning : Ok (s.withThread next fun thread => { thread with state := .running }) :=
    hs.withThread rfl fun _ => rfl
  exact hrunning.frame rfl rfl rfl (fun _ => rfl) fun _ _ => rfl

theorem takeNextThread_ok (hs : Ok s) (nowNs : ℕ) :
    wp (fun _ => True) (takeNextThread nowNs) (fun _ s' => Ok s') (fun _ _ => True) s := by
  simp only [takeNextThread, wp_bind, wp_get]
  refine wp_post (chooseNext_ok s) ?_
  rintro next _ rfl
  exact wp_post (dequeueUnlessIdle_ok hs) fun _ _ hs' => hs'.switchTo next nowNs _

end Calls

section Runs

/-- One call, or a change of a thread by the rest of the kernel, which leaves the link of a thread
and the bucket of a linked one alone. -/
inductive Step : CpuState ι → CpuState ι → Prop
  | enqueueExisting {s s' : CpuState ι} {t : ι} {kind : EnqueueKind}
      (h : enqueueExisting t kind s = .ok () s') : Step s s'
  | adoptThread {s s' : CpuState ι} {t : ι} {kind : EnqueueKind}
      (h : adoptThread t kind s = .ok () s') : Step s s'
  | dequeueThread {s s' : CpuState ι} {t : ι} (h : dequeueThread t s = .ok () s') : Step s s'
  | takeNextThread {s s' : CpuState ι} {next : ι} {nowNs : ℕ}
      (h : takeNextThread nowNs s = .ok next s') : Step s s'
  | advanceTimeshareEpoch {s : CpuState ι} (ticks : ℕ) : Step s (s.advanceTimeshareEpoch ticks)
  | thread {s : CpuState ι} {t : ι} (thread : Thread)
      (hlinked : thread.linked = (s.threads t).linked)
      (hrqindex : (s.threads t).linked = true → thread.rqindex = (s.threads t).rqindex) :
      Step s (s.withThread t fun _ => thread)

def machine (ι : Type) [DecidableEq ι] : Machine (CpuState ι) where
  init s := ∃ threads idle, (∀ t, (threads t).linked = false) ∧ s = .new threads idle
  step := Step

theorem Ok.step (hs : Ok s) (h : Step s s') : Ok s' := by
  cases h with
  | enqueueExisting h => exact wp_ok (enqueueExisting_ok hs _) h
  | adoptThread h => exact wp_ok (adoptThread_ok hs _) h
  | dequeueThread h => exact wp_ok (dequeueThread_ok hs) h
  | takeNextThread h => exact wp_ok (takeNextThread_ok hs _) h
  | advanceTimeshareEpoch ticks => exact hs.advanceTimeshareEpoch ticks
  | thread _ hlinked hrqindex => exact hs.withThread hlinked hrqindex

theorem reachable_ok (hs : (machine ι).Reachable s) : Ok s := by
  apply hs.invariant
  · rintro _ ⟨threads, idle, hlinked, rfl⟩
    exact .new hlinked idle
  · exact fun _ _ hs h => hs.step h

/-- In every run the bitmap, the count and the threads' bucket numbers describe the queue, the pick
cursor is behind only at a bucket in use, and the searches find the heads that the order of the
buckets asks for. -/
theorem run_queue_index (hs : (machine ι).Reachable s) :
    (∀ i, s.runq.bits.get i = true ↔ s.runq.queues i ≠ []) ∧
    s.runq.len = ∑ i ∈ Finset.range 256, (s.runq.queues i).length ∧
    (∀ i t, t ∈ s.runq.queues i → (s.threads t).rqindex = i ∧ i < 256) ∧
    (s.tsPickCursor ≠ s.tsInsertCursor → s.runq.queues (minBatch + s.tsPickCursor) ≠ []) ∧
    (∀ start stop, start ≤ stop →
      match s.runq.firstOccupiedBucket start stop with
      | some i => start ≤ i ∧ i ≤ stop ∧ s.runq.queues i ≠ [] ∧
          ∀ j, start ≤ j → j < i → s.runq.queues j = []
      | none => ∀ j, start ≤ j → j ≤ stop → s.runq.queues j = []) ∧
    s.runq.firstTimeshare s.tsPickCursor = headIn s.runq.queues (rotation s.tsPickCursor) ∧
    (s.bestRunnable = none ↔ s.runq.len = 0) ∧
    s.bestRunnable = ((headIn s.runq.queues (bucketsOf 0 maxInteract)).or
      (s.runq.firstTimeshare s.tsPickCursor)).or
        (headIn s.runq.queues (bucketsOf minIdle maxIdle)) := by
  have hok := reachable_ok hs
  have hpick := hok.cursors.pick_lt
  refine ⟨hok.indexed.bits, hok.indexed.len, ?_, hok.cursors.occupied,
    fun _ _ h => hok.indexed.firstOccupiedBucket h, hok.indexed.firstTimeshare hpick,
    hok.indexed.bestRunnable_eq_none hpick, ?_⟩
  · intro i t ht
    refine ⟨((hok.indexed.queued i t).mp ht).2, ?_⟩
    by_contra hge
    rw [hok.indexed.empty i (by omega)] at ht
    cases ht
  · rw [hok.indexed.bestRunnable hpick, headIn_append, headIn_append,
      hok.indexed.firstTimeshare hpick]

theorem enqueueExisting_queued (hlinked : (s.threads t).linked = false) (kind : EnqueueKind) :
    enqueueExisting t kind s =
      .ok () ((s.withThread t fun thread =>
          { thread with
            state := .ready, rqindex := s.queueBucket (s.threads t).priority kind }).pushed
        (s.queueBucket (s.threads t).priority kind) t kind.pushFront) := by
  rw [enqueueExisting, bind_ok (get_ok s), hlinked, if_neg Bool.false_ne_true, bind_ok (set_ok _ s),
    push, bind_ok (get_ok _), check, if_pos]
  · rfl
  · simpa only [withThread, update_self] using hlinked

theorem run_queue_index_example : ∃ s : CpuState ℕ, (machine ℕ).Reachable s ∧
    s.tsPickCursor ≠ s.tsInsertCursor ∧ s.runq.queues (minBatch + s.tsPickCursor) ≠ [] ∧
    (s.bestRunnable = none ↔ s.runq.len = 0) := by
  let start : CpuState ℕ := .new (fun _ => ⟨115, 0, false, .blocked, false, true⟩) none
  have hqueued : (machine ℕ).Reachable _ :=
    .step (.init ⟨_, none, fun _ => rfl, rfl⟩)
      (.enqueueExisting (enqueueExisting_queued (s := start) (t := 0) rfl .normal))
  have hs : (machine ℕ).Reachable _ := .step hqueued (.advanceTimeshareEpoch 2)
  obtain ⟨-, -, -, hused, -, -, hnone, -⟩ := run_queue_index hs
  refine ⟨_, hs, ?_, hused ?_, hnone⟩ <;> decide +kernel

end Runs

/-! A preempted batch thread goes to the front of the bucket of the pick cursor, where the next
search finds it, as long as the cursors are together. -/
section Preempt

/-- The thread is the first of the calendar. -/
structure First (t : ι) (s : CpuState ι) : Prop where
  ok : Ok s
  together : s.tsPickCursor = s.tsInsertCursor
  head : (s.runq.queues (minBatch + s.tsPickCursor)).head? = some t

/-- What goes on until the thread is selected: neither the epoch nor another thread comes in. -/
inductive Meanwhile (t : ι) (s : CpuState ι) : CpuState ι → Prop
  | dequeueThread {s' : CpuState ι} {u : ι} (hu : u ≠ t) (h : dequeueThread u s = .ok () s') :
      Meanwhile t s s'
  | takeNextThread {s' : CpuState ι} {next : ι} {nowNs : ℕ} (hnext : next ≠ t)
      (h : takeNextThread nowNs s = .ok next s') : Meanwhile t s s'
  | thread {u : ι} (thread : Thread)
      (hlinked : thread.linked = (s.threads u).linked)
      (hrqindex : (s.threads u).linked = true → thread.rqindex = (s.threads u).rqindex) :
      Meanwhile t s (s.withThread u fun _ => thread)

namespace First

omit [DecidableEq ι] in
theorem firstTimeshare (h : First t s) : s.runq.firstTimeshare s.tsPickCursor = some t := by
  have hpick := h.ok.cursors.pick_lt
  have hend : minBatch + s.tsPickCursor ≤ maxBatch := by
    simp only [priBatchRange, minBatch, maxBatch] at *
    omega
  rw [h.ok.indexed.firstTimeshare hpick, rotation_eq hpick, bucketsOf_split le_rfl hend]
  simp [headIn, h.head]

theorem dequeueThread {u : ι} (h : First t s) (hu : u ≠ t) :
    wp (fun _ => True) (dequeueThread u) (fun _ s' => First t s') (fun _ _ => True) s := by
  simp only [Runq.dequeueThread, remove, wp_bind]
  refine wp_check_or (fun hlinked => ?_) fun _ => trivial
  have hstay : (s.removed (s.threads u).rqindex u).advancePickCursor true = s.removed _ u :=
    if_pos h.together
  simp only [wp_set, wp_pure, wp_modify, hstay, ite_self]
  refine ⟨⟨h.ok.indexed.removed hlinked rfl, ?_⟩, h.together, ?_⟩
  · exact { h.ok.cursors with occupied := fun hne => absurd h.together hne }
  · change (update s.runq.queues _ _ (minBatch + s.tsPickCursor)).head? = some t
    by_cases hb : minBatch + s.tsPickCursor = (s.threads u).rqindex
    · obtain ⟨rest, hrest⟩ := List.head?_eq_some_iff.mp (hb ▸ h.head)
      rw [hb, update_self, hrest, List.erase_cons_tail (by simpa using hu.symm), List.head?_cons]
    · rw [update_of_ne hb, h.head]

theorem takeNextThread (h : First t s) (nowNs : ℕ) :
    wp (fun _ => True) (takeNextThread nowNs) (fun next s' => next ≠ t → First t s')
      (fun _ _ => True) s := by
  simp only [Runq.takeNextThread, wp_bind, wp_get]
  refine wp_post (chooseNext_ok s) ?_
  rintro next _ rfl
  by_cases hnext : next = t
  · exact wp_post (dequeueUnlessIdle_ok h.ok) fun _ _ _ hne => absurd hnext hne
  · refine wp_post (Q := fun _ s' => First t s') ?_ fun _ s' h' _ =>
      ⟨h'.ok.switchTo next nowNs _, h'.together, h'.head⟩
    unfold wp dequeueUnlessIdle
    split_ifs
    · exact h
    · exact h.dequeueThread hnext

theorem meanwhile (h : First t s) (hstep : Meanwhile t s s') : First t s' := by
  cases hstep with
  | dequeueThread hu hrun => exact (wp_ok (h.dequeueThread hu) hrun :)
  | takeNextThread hnext hrun => exact wp_ok (h.takeNextThread _) hrun hnext
  | thread _ hlinked hrqindex => exact ⟨h.ok.withThread hlinked hrqindex, h.together, h.head⟩

end First

/-- With both cursors at one place, a running batch thread that is put back as preempted is the next
one from the batch range. -/
theorem preempted_keeps_turn {s₁ s₂ : CpuState ι} (hs : (machine ι).Reachable s)
    (hrunning : (s.threads t).state = .running) (hbatch : minBatch ≤ (s.threads t).priority.val ∧
      (s.threads t).priority.val ≤ maxBatch) (htogether : s.tsPickCursor = s.tsInsertCursor)
    (hput : enqueueExisting t .preempted s = .ok () s₁)
    (hrun : Relation.ReflTransGen (Meanwhile t) s₁ s₂) :
    s₂.runq.firstTimeshare s₂.tsPickCursor = some t := by
  refine First.firstTimeshare ?_
  induction hrun with
  | refl =>
    have hok := reachable_ok hs
    have hok₁ : Ok s₁ := wp_ok (enqueueExisting_ok hok .preempted) hput
    have hlinked : (s.threads t).linked = false := by
      by_contra hlinked
      rw [enqueueExisting, bind_ok (get_ok s), if_pos (by simpa using hlinked), hrunning] at hput
      cases hput
    have hbucket : s.queueBucket (s.threads t).priority .preempted = minBatch + s.tsPickCursor := by
      simp [queueBucket, hbatch, EnqueueKind.usesPickCursor, htogether,
        Nat.mod_eq_of_lt hok.cursors.insert_lt]
    rw [enqueueExisting_queued hlinked, hbucket] at hput
    cases hput
    exact ⟨hok₁, htogether, by simp [pushed, EnqueueKind.pushFront, withThread]⟩
  | tail _ hstep ih => exact ih.meanwhile hstep

/-- Thread 1 runs, and thread 0 may wait. -/
def twoThreads : CpuState ℕ :=
  .new (fun t => ⟨⟨115, by decide⟩, 0, false, if t = 1 then .running else .blocked, false, true⟩) none

theorem preempted_keeps_turn_example : ∃ s₁,
    enqueueExisting 1 .preempted twoThreads = .ok () s₁ ∧
      s₁.runq.firstTimeshare s₁.tsPickCursor = some 1 :=
  have hput := enqueueExisting_queued (s := twoThreads) (t := 1) rfl .preempted
  ⟨_, hput, preempted_keeps_turn (.init ⟨_, none, fun _ => rfl, rfl⟩) rfl (by decide) rfl hput .refl⟩

/-- The epoch has moved on past thread 0, and the preempted thread comes after it. -/
theorem preempted_loses_turn : ∃ s s₁ : CpuState ℕ, (machine ℕ).Reachable s ∧
    (s.threads 1).state = .running ∧ (s.threads 1).priority = 115 ∧
    enqueueExisting 1 .preempted s = .ok () s₁ ∧
    s₁.runq.firstTimeshare s₁.tsPickCursor = some 0 := by
  have hqueued : (machine ℕ).Reachable _ :=
    .step (.init ⟨_, none, fun _ => rfl, rfl⟩)
      (.enqueueExisting (enqueueExisting_queued (s := twoThreads) (t := 0) rfl .normal))
  refine ⟨_, _, .step hqueued (.advanceTimeshareEpoch 2), ?_, ?_, enqueueExisting_queued ?_ _, ?_⟩ <;>
    decide +kernel

end Preempt

end Roanix.Sys.Runq
