import Roanix.Lib.Machine

/-! The sleeping mutex of `sync.rs`, one atomic operation on its state word a step; what happens
under the queue lock and touches no other word is one step. A park returns only when it has been
woken, each park is its thread's own, and a wake of a park that was not woken yet succeeds. A count
of boosts is the number of blocked threads that lend, far below the bound of its 32 bits. -/
namespace Roanix.Sys.Mutex
open Lib Function

/-- Where a thread is in `lock`, `try_lock` or `unlock`, named for what it does next. -/
inductive Place (ι : Type) where
  | idle
  /-- `try_lock_fast`; a `try_lock` gives up when it fails. -/
  | fast (once : Bool)
  | publish
  | spin
  /-- `lock_slow`: take the queue lock. -/
  | slow
  | test
  /-- The word had no owner when it was loaded. -/
  | take (seenQueued : Bool)
  | slowPublish
  /-- The word had an owner when it was loaded. -/
  | enqueue
  /-- The owner left before the waiter was published. -/
  | selfTake
  | selfOwner
  | selfWake
  /-- `lend_to_owner`. -/
  | lend
  | boost (owner : ι)
  | parked
  /-- Woken without a grant: leave the queue and try again. -/
  | requeue
  | unlockClear
  | unlockExchange
  | unlockQueue
  | unlockWake (waiter : ι)
deriving DecidableEq, Repr

/-- What belongs to one thread: its place, whether it has a guard, and its `MutexWaiter`. -/
structure Local (ι : Type) where
  place : Place ι
  guard : Bool
  granted : Bool
  woken : Bool
  boosted : Option ι
deriving DecidableEq, Repr

structure State (ι : Type) where
  locked : Bool
  queued : Bool
  owner : Option ι
  queue : List ι
  /-- Who has the lock around the wait queue. -/
  queueLock : Option ι
  party : ι → Local ι
  /-- `boost_count` of each thread. -/
  boosts : ι → ℕ

variable {ι : Type}

def State.new : State ι where
  locked := false
  queued := false
  owner := none
  queue := []
  queueLock := none
  party _ := ⟨.idle, false, false, false, none⟩
  boosts _ := 0

variable [DecidableEq ι]

namespace State

def goto (s : State ι) (t : ι) (place : Place ι) : State ι :=
  { s with party := update s.party t { s.party t with place := place } }

/-- `lock` or `try_lock` returns a guard; a waiter on the stack is gone. -/
def acquire (s : State ι) (t : ι) : State ι :=
  { s with party := update s.party t ⟨.idle, true, false, false, none⟩ }

def lendBoost (s : State ι) (waiter : ι) (owner : ι) : State ι :=
  let raised := update s.boosts owner (s.boosts owner + 1)
  { s with
    party := update s.party waiter { s.party waiter with boosted := some owner }
    boosts := match (s.party waiter).boosted with
      | none => raised
      | some previous => update raised previous (raised previous - 1) }

def releaseBoost (s : State ι) (waiter : ι) : State ι :=
  { s with
    party := update s.party waiter { s.party waiter with boosted := none }
    boosts := match (s.party waiter).boosted with
      | none => s.boosts
      | some previous => update s.boosts previous (s.boosts previous - 1) }

def transferBoosts (s : State ι) (owner : ι) : List ι → State ι
  | [] => s
  | waiter :: rest => (s.lendBoost waiter owner).transferBoosts owner rest

/-- The section of `unlock` that hands the mutex to the first waiter. -/
def handOff (s : State ι) (t waiter : ι) (rest : List ι) : State ι :=
  let s := { s with owner := some waiter, queue := rest, locked := true, queued := rest ≠ [] }
  let s := (s.releaseBoost waiter).transferBoosts waiter rest
  let s := { s with party := update s.party waiter { s.party waiter with granted := true } }
  s.goto t (.unlockWake waiter)

/-- A waiter that was not granted the mutex leaves the queue and stops lending. -/
def withdraw (s : State ι) (t : ι) : State ι :=
  let queue := s.queue.erase t
  let s := { s with queue := queue, queued := if queue = [] then false else s.queued }
  (s.releaseBoost t).goto t .slow

end State

open State in
inductive Step (t : ι) (s : State ι) : State ι → Prop
  | lock (once : Bool) (h : (s.party t).place = .idle) : Step t s (s.goto t (.fast once))
  | fastTake {once : Bool} (h : (s.party t).place = .fast once) (hl : s.locked = false)
      (hq : s.queued = false) : Step t s ({ s with locked := true }.goto t .publish)
  | fastFails {once : Bool} (h : (s.party t).place = .fast once)
      (hw : s.locked = true ∨ s.queued = true) :
      Step t s (s.goto t (if once then .idle else .spin))
  /-- A processor without a current thread publishes no name. -/
  | publish (known : Bool) (h : (s.party t).place = .publish) :
      Step t s ({ s with owner := if known then some t else none }.acquire t)
  | spinTake (h : (s.party t).place = .spin) (hl : s.locked = false) (hq : s.queued = false) :
      Step t s ({ s with locked := true }.goto t .publish)
  | spinEnds (h : (s.party t).place = .spin) : Step t s (s.goto t .slow)
  | queueLock (h : (s.party t).place = .slow) (hq : s.queueLock = none) :
      Step t s ({ s with queueLock := some t }.goto t .test)
  | testFree (h : (s.party t).place = .test) (hl : s.locked = false) :
      Step t s (s.goto t (.take s.queued))
  | testTaken (h : (s.party t).place = .test) (hl : s.locked = true) : Step t s (s.goto t .enqueue)
  | slowTake {seenQueued : Bool} (h : (s.party t).place = .take seenQueued)
      (hl : s.locked = false) (hq : s.queued = seenQueued) :
      Step t s ({ s with locked := true, queued := false, queue := [] }.goto t .slowPublish)
  | slowTakeFails {seenQueued : Bool} (h : (s.party t).place = .take seenQueued)
      (hw : s.locked = true ∨ s.queued ≠ seenQueued) :
      Step t s ({ s with queueLock := none }.goto t .slow)
  | slowPublish (known : Bool) (h : (s.party t).place = .slowPublish) :
      Step t s ({ s with owner := if known then some t else none, queueLock := none }.acquire t)
  /-- Interrupts are masked, or there is no current thread. -/
  | cannotPark (h : (s.party t).place = .enqueue) :
      Step t s ({ s with queueLock := none }.goto t .slow)
  | enqueue (h : (s.party t).place = .enqueue) :
      Step t s { s with
        queued := true
        queue := s.queue ++ [t]
        party := update s.party t
          ⟨if s.locked then .lend else .selfTake, (s.party t).guard, false, false, none⟩ }
  | selfTake (h : (s.party t).place = .selfTake) :
      Step t s ({ s with locked := true, queued := false, queue := [] }.goto t .selfOwner)
  | selfOwner (h : (s.party t).place = .selfOwner) :
      Step t s ({ s with owner := some t, queueLock := none }.goto t .selfWake)
  | selfWake (h : (s.party t).place = .selfWake) : Step t s (s.acquire t)
  | lendNone (h : (s.party t).place = .lend) (ho : s.owner = none) :
      Step t s ({ s with queueLock := none }.goto t .parked)
  | lend {owner : ι} (h : (s.party t).place = .lend) (ho : s.owner = some owner) :
      Step t s (s.goto t (.boost owner))
  | boost {owner : ι} (h : (s.party t).place = .boost owner) :
      Step t s ({ s.lendBoost t owner with queueLock := none }.goto t .parked)
  | granted (h : (s.party t).place = .parked) (hw : (s.party t).woken = true)
      (hg : (s.party t).granted = true) : Step t s (s.acquire t)
  | ungranted (h : (s.party t).place = .parked) (hw : (s.party t).woken = true)
      (hg : (s.party t).granted = false) : Step t s (s.goto t .requeue)
  | requeue (h : (s.party t).place = .requeue) (hq : s.queueLock = none) : Step t s (s.withdraw t)
  | unlock (h : (s.party t).place = .idle) (hg : (s.party t).guard = true) :
      Step t s { s with
        party := update s.party t
          { s.party t with place := .unlockClear, guard := false } }
  | unlockClear (h : (s.party t).place = .unlockClear) :
      Step t s ({ s with owner := none }.goto t .unlockExchange)
  | unlockFree (h : (s.party t).place = .unlockExchange) (hl : s.locked = true)
      (hq : s.queued = false) : Step t s ({ s with locked := false }.goto t .idle)
  | unlockContended (h : (s.party t).place = .unlockExchange)
      (hw : s.locked = false ∨ s.queued = true) : Step t s (s.goto t .unlockQueue)
  | handOff {waiter : ι} {rest : List ι} (h : (s.party t).place = .unlockQueue)
      (hq : s.queueLock = none) (hw : s.queue = waiter :: rest) :
      Step t s (s.handOff t waiter rest)
  | wake {waiter : ι} (h : (s.party t).place = .unlockWake waiter)
      (hw : (s.party waiter).woken = false) :
      Step t s ({ s with
        party := update s.party waiter
          { s.party waiter with woken := true } }.goto t .idle)

/-- A thread is at an assertion that does not hold. -/
inductive Fails (t : ι) (s : State ι) : Prop
  | queuedWaiters (h : (s.party t).place = .test) (hl : s.locked = false) (hq : s.queue ≠ [])
  | waiterDisappeared (h : (s.party t).place = .selfTake) (hq : t ∉ s.queue)
  | priorWaiters (h : (s.party t).place = .selfTake) (hq : s.queue.erase t ≠ [])
  | staleSelf (h : (s.party t).place = .selfWake) (hw : (s.party t).woken = true)
  | lostQueue (h : (s.party t).place = .unlockQueue) (hl : s.queueLock = none) (hq : s.queue = [])
  | staleWaiter {waiter : ι} (h : (s.party t).place = .unlockWake waiter)
      (hw : (s.party waiter).woken = true)

structure World (κ ι : Type) where
  mutex : κ → State ι
  boosts : ι → ℕ

namespace World
variable {κ : Type}

/-- One mutex, with the boosts as they are. -/
def view (w : World κ ι) (k : κ) : State ι := { w.mutex k with boosts := w.boosts }

def put [DecidableEq κ] (w : World κ ι) (k : κ) (s : State ι) : World κ ι :=
  ⟨update w.mutex k s, s.boosts⟩

end World

def machine (κ ι : Type) [DecidableEq κ] [DecidableEq ι] : Machine (World κ ι) where
  init w := w = ⟨fun _ => .new, fun _ => 0⟩
  step w w' := ∃ k t s', Step t (w.view k) s' ∧ w' = w.put k s'

end Roanix.Sys.Mutex
