import Mathlib.Algebra.Ring.Nat
import Mathlib.Data.Finset.Insert
import Roanix.Lib.Act
import Roanix.Lib.Bitmap

/-! The run queue of one CPU: a list of threads for each of 256 buckets, a bitmap of the buckets in
use, and the calendar that the batch range rotates through. All of it runs under the CPU's scheduler
lock. -/
namespace Roanix.Sys.Runq
open Lib Lib.Act

def maxInteract : ℕ := 114
def minBatch : ℕ := 115
def maxBatch : ℕ := 223
def minIdle : ℕ := 224
def maxIdle : ℕ := 255
def priBatchRange : ℕ := 109
def nsecPerSec : ℕ := 1000000000
def schedStatHz : ℕ := 127
def schedStatIntervalNs : ℕ := nsecPerSec / schedStatHz
def u64Max : ℕ := 2 ^ 64 - 1

inductive ThreadState where
  | ready
  | running
  | blocked
  | idle
  | exited
deriving DecidableEq, Repr

inductive EnqueueKind where
  | normal
  | preempted
deriving DecidableEq, Repr

def EnqueueKind.pushFront : EnqueueKind → Bool
  | .preempted => true
  | .normal => false

def EnqueueKind.usesPickCursor : EnqueueKind → Bool
  | .preempted => true
  | .normal => false

inductive Panic where
  | alreadyLinked
  | notLinked
  | unexpectedState
  | missingIdle
deriving DecidableEq, Repr

structure Thread where
  priority : Fin 256
  rqindex : ℕ
  /-- `is_runq_linked`. -/
  linked : Bool
  state : ThreadState
  isIdle : Bool
  countsTowardsLoad : Bool
deriving DecidableEq, Repr

structure RunQueue (ι : Type) where
  len : ℕ
  bits : Bitmap
  queues : ℕ → List ι

/-- `CpuState`, with the threads that it is asked about. -/
structure CpuState (ι : Type) where
  runq : RunQueue ι
  threads : ι → Thread
  current : Option ι
  idle : Option ι
  load : ℕ
  sysload : ℕ
  tsInsertCursor : ℕ
  tsPickCursor : ℕ
  tsTicks : ℕ
  nextStatclockNs : ℕ
  unwinding : Option ι

/-- No call fails; a broken assertion stops the machine. -/
abbrev CpuM (ι : Type) := Act Empty Panic (CpuState ι)

variable {ι : Type} [DecidableEq ι]

def RunQueue.new : RunQueue ι := ⟨0, fun _ => 0, fun _ => []⟩

def CpuState.new (threads : ι → Thread) (idle : Option ι) : CpuState ι :=
  ⟨.new, threads, none, idle, 0, 0, 0, 0, 0, 0, none⟩

namespace RunQueue

def firstOccupiedBucket (q : RunQueue ι) (start stop : ℕ) : Option ℕ := q.bits.first start stop

def firstInRange (q : RunQueue ι) (start stop : ℕ) : Option ι :=
  (q.firstOccupiedBucket start stop).bind fun bucket => (q.queues bucket).head?

def firstTimeshare (q : RunQueue ι) (pickCursor : ℕ) : Option ι :=
  let start := min (minBatch + pickCursor) 255
  (q.firstInRange start maxBatch).or
    (if pickCursor ≠ 0 then q.firstInRange minBatch (start - 1) else none)

end RunQueue

namespace CpuState

def withThread (t : ι) (f : Thread → Thread) (s : CpuState ι) : CpuState ι :=
  { s with threads := Function.update s.threads t (f (s.threads t)) }

def bestRunnable (s : CpuState ι) : Option ι :=
  ((s.runq.firstInRange 0 maxInteract).or (s.runq.firstTimeshare s.tsPickCursor)).or
    (s.runq.firstInRange minIdle maxIdle)

def queueBucket (s : CpuState ι) (priority : ℕ) (kind : EnqueueKind) : ℕ :=
  if ¬ (minBatch ≤ priority ∧ priority ≤ maxBatch) then priority
  else
    let index :=
      (if kind.usesPickCursor then s.tsPickCursor else priority - minBatch + s.tsInsertCursor) %
        priBatchRange
    let index :=
      if s.tsPickCursor ≠ s.tsInsertCursor ∧ index = s.tsPickCursor then
        (index + priBatchRange - 1) % priBatchRange
      else index
    minBatch + index

/-- The state after `push`, of a thread that is not linked. -/
def pushed (bucket : ℕ) (t : ι) (front : Bool) (s : CpuState ι) : CpuState ι :=
  let queue := s.runq.queues bucket
  { s.withThread t fun thread => { thread with linked := true } with
    runq :=
      { bits := s.runq.bits.set bucket
        queues := Function.update s.runq.queues bucket (if front then t :: queue else queue ++ [t])
        len := s.runq.len + 1 } }

def removed (bucket : ℕ) (t : ι) (s : CpuState ι) : CpuState ι :=
  let queue := (s.runq.queues bucket).erase t
  { s.withThread t fun thread => { thread with linked := false } with
    runq :=
      { bits := if queue = [] then s.runq.bits.clear bucket else s.runq.bits
        queues := Function.update s.runq.queues bucket queue
        len := s.runq.len - 1 } }

/-- The loop of `advance_pick_cursor`. The cursor meets the other one after at most a round, so the
range bounds the fuel. -/
def advanceLoop : ℕ → Bool → CpuState ι → CpuState ι
  | 0, _, s => s
  | fuel + 1, emptiedCurrent, s =>
    if s.tsPickCursor = s.tsInsertCursor then s
    else if ¬ emptiedCurrent ∧
        (s.runq.firstInRange (minBatch + s.tsPickCursor) (minBatch + s.tsPickCursor)).isSome then s
    else advanceLoop fuel false { s with tsPickCursor := (s.tsPickCursor + 1) % priBatchRange }

def advancePickCursor (emptiedCurrent : Bool) (s : CpuState ι) : CpuState ι :=
  advanceLoop priBatchRange emptiedCurrent s

def advanceTimeshareEpoch (ticks : ℕ) (s : CpuState ι) : CpuState ι :=
  if ticks = 0 ∨ s.tsInsertCursor ≠ s.tsPickCursor then s
  else
    let totalTicks := min (s.tsTicks + ticks) u64Max
    let advance := min (ticks * 2) u64Max - totalTicks / 4
    advancePickCursor false
      { s with
        tsInsertCursor := (s.tsInsertCursor + advance % priBatchRange) % priBatchRange
        tsTicks := totalTicks % 4 }

end CpuState

open CpuState

def push (bucket : ℕ) (t : ι) (front : Bool) : CpuM ι Unit := do
  let s ← get
  check ((s.threads t).linked = false) .alreadyLinked
  set (s.pushed bucket t front)

/-- `remove`, by whether the bucket became empty. -/
def remove (bucket : ℕ) (t : ι) : CpuM ι Bool := do
  let s ← get
  check ((s.threads t).linked = true) .notLinked
  set (s.removed bucket t)
  pure ((s.removed bucket t).runq.queues bucket = [])

def dequeueThread (t : ι) : CpuM ι Unit := do
  let s ← get
  let rqindex := (s.threads t).rqindex
  let emptied ← remove rqindex t
  modify fun s =>
    if (minBatch ≤ rqindex ∧ rqindex ≤ maxBatch) ∧ emptied ∧ s.tsPickCursor + minBatch = rqindex then
      s.advancePickCursor true
    else s

def enqueueExisting (t : ι) (kind : EnqueueKind) : CpuM ι Unit := do
  let s ← get
  if (s.threads t).linked then check ((s.threads t).state = .ready) .unexpectedState
  else do
    let bucket := s.queueBucket (s.threads t).priority kind
    set (s.withThread t fun thread => { thread with state := .ready, rqindex := bucket })
    push bucket t kind.pushFront

def adoptThread (t : ι) (kind : EnqueueKind) : CpuM ι Unit := do
  enqueueExisting t kind
  modify fun s =>
    if (s.threads t).countsTowardsLoad then
      { s with load := s.load + 1, sysload := s.sysload + 1 }
    else s

/-- The thread that runs next: the best one of the queue, or the idle thread. -/
def chooseNext : CpuM ι ι := fun s =>
  match s.bestRunnable.or s.idle with
  | some t => .ok t s
  | none => .panic .missingIdle

/-- What `take_next_thread` notes about its choice. -/
def switchTo (t : ι) (nowNs : ℕ) (previous : Option ι) (s : CpuState ι) : CpuState ι :=
  let s := s.withThread t fun thread => { thread with state := .running }
  let previousWasIdle := previous.all fun p => (s.threads p).isIdle
  { s with
    nextStatclockNs :=
      if (s.threads t).isIdle then 0
      else if previousWasIdle ∨ s.nextStatclockNs = 0 then
        min (nowNs + schedStatIntervalNs) u64Max
      else s.nextStatclockNs
    current := some t
    unwinding := previous.filter (· ≠ t) }

def dequeueUnlessIdle (t : ι) : CpuM ι Unit := fun s =>
  if (s.threads t).isIdle then .ok () s else dequeueThread t s

def takeNextThread (nowNs : ℕ) : CpuM ι ι := do
  let s ← get
  let next ← chooseNext
  dequeueUnlessIdle next
  modify (switchTo next nowNs s.current)
  pure next

end Roanix.Sys.Runq
