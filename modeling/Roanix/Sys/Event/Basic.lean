import Roanix.Lib.Machine

/-! Waitable events (`event.rs`): one atomic operation a step, what an event's lock protects being
touched only by its holder. Parking is `prepare_park`, `park_current` and `wake` of a thread, each
one step. A wait on more than `INLINE_WAITERS` events allocates its registrations after it has
prepared to park, and the heap is behind a sleeping mutex. -/
namespace Roanix.Sys.EventM
open Lib

def INLINE_WAITERS : ℕ := 8

def wrap (n : ℕ) : ℕ := n % 2 ^ 64

/-- `PARK_STATE_*`. -/
inductive Park where
  | idle
  | waiting
  | parked
deriving DecidableEq, Repr

/-- Where a thread is, named for what it does next. -/
inductive Place (ε ι : Type) where
  | idle
  /-- `SequenceEvent::wait`. -/
  | observe
  /-- Is one of the events signaled already? `wait_any` of one event goes on to ask again. -/
  | check (again : Bool) (i : ℕ)
  | prepare
  | allocate
  /-- `wait_with_registrations`, at the event that `index` names. -/
  | winner
  | register
  | load
  | push
  | undo
  | claimSelf
  | wakeSelf
  | condition
  | claimZero
  | wakeZero
  | decide
  | park
  | asleep
  | unregister (i : ℕ)
  | finish
  | wakeAll (e : ε)
  /-- `claim_one` or `claim_all`: take the lock. -/
  | claimLock (e : ε) (one : Bool)
  | claim (e : ε) (one : Bool) (batch : List ι)
  /-- `try_claim` for the waiter taken off the queue. -/
  | tryClaim (e : ε) (one : Bool) (batch : List ι)
  | wakeBatch (batch : List ι)
  | wake (thread : ι) (seq : ℕ) (batch : List ι)
deriving DecidableEq

/-- What belongs to one thread: its place, its park word and the `WaitGroup` of its wait. -/
structure Local (ε ι : Type) where
  place : Place ε ι
  parkSeq : ℕ
  parkState : Park
  events : List ε
  /-- The ticket a `SequenceEvent::wait` checks again, once registered. -/
  ticket : Option ℕ
  index : ℕ
  seq : ℕ
  winner : Option ℕ
  claimedLocally : Bool
  /-- How often the group was claimed and how often it was woken. -/
  claims : ℕ
  wakes : ℕ
  /-- What `observe` of each event returned last. -/
  tickets : ε → ℕ

structure Event (ι : Type) where
  /-- The two bits of `state`. -/
  signaled : Bool
  queued : Bool
  /-- Who has the lock around the wait queue. -/
  lock : Option ι
  queue : List (ι × ℕ)
  /-- The waiter that the holder of the lock has taken off the queue. -/
  taken : Option (ι × ℕ)
  generation : ℕ

structure State (ε ι : Type) where
  event : ε → Event ι
  heapHeld : Bool
  party : ι → Local ε ι

variable {ε ι : Type}

namespace Local

def new : Local ε ι where
  place := .idle
  parkSeq := 0
  parkState := .idle
  events := []
  ticket := none
  index := 0
  seq := 0
  winner := none
  claimedLocally := false
  claims := 0
  wakes := 0
  tickets _ := 0

def goto (l : Local ε ι) (place : Place ε ι) : Local ε ι := { l with place := place }

def wait (l : Local ε ι) (events : List ε) (ticket : Option ℕ) (place : Place ε ι) : Local ε ι :=
  { l with events := events, ticket := ticket, place := place }

/-- `prepare_park` and `WaitGroup::new`. -/
def preparePark (l : Local ε ι) : Local ε ι :=
  { l with
    parkSeq := wrap (l.parkSeq + 1)
    parkState := .waiting
    seq := wrap (l.parkSeq + 1)
    winner := none
    claimedLocally := false
    index := 0
    claims := 0
    wakes := 0
    place := .allocate }

/-- The thread sleeps on a mutex in between: it prepares to park, parks and is woken. -/
def sleepOnMutex (l : Local ε ι) : Local ε ι :=
  { l with parkSeq := wrap (l.parkSeq + 1), parkState := .idle }

/-- `try_claim`, when it succeeds. -/
def claimed (l : Local ε ι) (i : ℕ) : Local ε ι := { l with winner := some i, claims := l.claims + 1 }

/-- `sched::wake`, when the sequence is not stale. -/
def woken (l : Local ε ι) : Local ε ι := { l with parkState := .idle, wakes := l.wakes + 1 }

/-- `sched::wake` refuses. -/
def Stale (l : Local ε ι) (seq : ℕ) : Prop := l.parkState = .idle ∨ l.parkSeq ≠ seq

end Local

namespace Event

def new : Event ι where
  signaled := false
  queued := false
  lock := none
  queue := []
  taken := none
  generation := 0

/-- Unlink a registration, if it is linked, and clear the bit behind the last one. -/
def unlink [DecidableEq ι] (c : Event ι) (waiter : ι × ℕ) : Event ι :=
  { c with
    queue := c.queue.erase waiter
    queued := if waiter ∈ c.queue ∧ c.queue.erase waiter = [] then false else c.queued }

end Event

namespace State

def new : State ε ι where
  event _ := .new
  heapHeld := false
  party _ := .new

def put [DecidableEq ι] (s : State ε ι) (t : ι) (l : Local ε ι) : State ε ι :=
  { s with party := Function.update s.party t l }

def set [DecidableEq ε] (s : State ε ι) (e : ε) (c : Event ι) : State ε ι :=
  { s with event := Function.update s.event e c }

end State

variable [DecidableEq ε]

/-- Steps of a thread that change nothing but what belongs to it. -/
inductive Goes (s : State ε ι) (l : Local ε ι) : Local ε ι → Prop
  | observe (e : ε) (h : l.place = .idle) :
      Goes s l { l with tickets := Function.update l.tickets e ((s.event e).generation) }
  | wakeAll (e : ε) (h : l.place = .idle) : Goes s l (l.goto (.wakeAll e))
  | wakeOne (e : ε) (h : l.place = .idle) :
      Goes s l (if (s.event e).queued then l.goto (.claimLock e true) else l)
  | wait (e : ε) (h : l.place = .idle) : Goes s l (l.wait [e] none (.check false 0))
  | waitAny (events : List ε) (h : l.place = .idle) (hne : events ≠ []) :
      Goes s l (l.wait events none (.check (events.length = 1) 0))
  | waitTicket (e : ε) (h : l.place = .idle) :
      Goes s l (l.wait [e] (some (l.tickets e)) .observe)
  | observeChanged {e : ε} {n : ℕ} (h : l.place = .observe) (he : l.events = [e])
      (ht : l.ticket = some n) (hg : wrap (s.event e).generation ≠ wrap n) : Goes s l (l.goto .idle)
  | observeSame {e : ε} {n : ℕ} (h : l.place = .observe) (he : l.events = [e])
      (ht : l.ticket = some n) (hg : wrap (s.event e).generation = wrap n) :
      Goes s l (l.goto (.check false 0))
  | checkSignaled {again : Bool} {i : ℕ} {e : ε} (h : l.place = .check again i)
      (he : l.events[i]? = some e) (hs : (s.event e).signaled = true) : Goes s l (l.goto .idle)
  | checkClear {again : Bool} {i : ℕ} {e : ε} (h : l.place = .check again i)
      (he : l.events[i]? = some e) (hs : (s.event e).signaled = false) :
      Goes s l (l.goto (.check again (i + 1)))
  | checkAgain {i : ℕ} (h : l.place = .check true i) (hi : l.events.length ≤ i) :
      Goes s l (l.goto (.check false 0))
  | checkDone {i : ℕ} (h : l.place = .check false i) (hi : l.events.length ≤ i) :
      Goes s l (l.goto .prepare)
  | prepare (h : l.place = .prepare) : Goes s l l.preparePark
  | allocate (h : l.place = .allocate) : Goes s l (l.goto .winner)
  | loopDone (h : l.place = .winner) (hi : l.events.length ≤ l.index) : Goes s l (l.goto .condition)
  | winnerSeen (h : l.place = .winner) (hw : l.winner ≠ none) : Goes s l (l.goto .condition)
  | winnerNone (h : l.place = .winner) (hi : l.index < l.events.length) (hw : l.winner = none) :
      Goes s l (l.goto .register)
  | loadClear {e : ε} (h : l.place = .load) (he : l.events[l.index]? = some e)
      (hs : (s.event e).signaled = false) : Goes s l (l.goto .push)
  | claimSelfFails (h : l.place = .claimSelf) (hw : l.winner ≠ none) : Goes s l (l.goto .condition)
  | conditionNone (h : l.place = .condition) (ht : l.ticket = none) : Goes s l (l.goto .decide)
  | conditionTrue {e : ε} {n : ℕ} (h : l.place = .condition) (he : l.events = [e])
      (ht : l.ticket = some n) (hg : wrap (s.event e).generation = wrap n) : Goes s l (l.goto .decide)
  | conditionFalse {e : ε} {n : ℕ} (h : l.place = .condition) (he : l.events = [e])
      (ht : l.ticket = some n) (hg : wrap (s.event e).generation ≠ wrap n) : Goes s l (l.goto .claimZero)
  | claimZeroFails (h : l.place = .claimZero) (hw : l.winner ≠ none) : Goes s l (l.goto .decide)
  | decideReturn (h : l.place = .decide) (hc : l.claimedLocally = true) :
      Goes s l (l.goto (.unregister 0))
  | decidePark (h : l.place = .decide) (hc : l.claimedLocally = false) : Goes s l (l.goto .park)
  /-- `mark_parked` fails: the wake was first. -/
  | parkFails (h : l.place = .park) (hp : l.parkSeq ≠ l.seq ∨ l.parkState ≠ .waiting) :
      Goes s l (l.goto (.unregister 0))
  | parks (h : l.place = .park) (hq : l.parkSeq = l.seq) (hp : l.parkState = .waiting) :
      Goes s l { l with parkState := .parked, place := .asleep }
  | resumes (h : l.place = .asleep) (hp : l.parkState = .idle) : Goes s l (l.goto (.unregister 0))
  | unregistered {i : ℕ} (h : l.place = .unregister i) (hi : l.events.length ≤ i) :
      Goes s l (l.goto .finish)
  | returns (h : l.place = .finish) (hw : l.winner ≠ none) : Goes s l (l.goto .idle)
  /-- The next group of the batch is read before its thread is woken. -/
  | readGroup {w : ι} {batch : List ι} (h : l.place = .wakeBatch (w :: batch)) :
      Goes s l (l.goto (.wake w (s.party w).seq batch))
  | batchDone (h : l.place = .wakeBatch []) : Goes s l (l.goto .idle)

variable [DecidableEq ι]

/-- Steps of a thread `t` that change an event and what belongs to `t`. -/
inductive Acts (t : ι) (e : ε) (c : Event ι) (l : Local ε ι) : Event ι → Local ε ι → Prop
  | signal (h : l.place = .idle) :
      Acts t e c l { c with signaled := true }
        (if c.queued then l.goto (.claimLock e false) else l)
  | reset (h : l.place = .idle) : Acts t e c l { c with signaled := false } l
  | notify (h : l.place = .idle) :
      Acts t e c l { c with generation := c.generation + 1 } (l.goto (.wakeAll e))
  | wakeAllLoad (h : l.place = .wakeAll e) :
      Acts t e c l c (l.goto (if c.queued then .claimLock e false else .idle))
  | registerLock (h : l.place = .register) (he : l.events[l.index]? = some e)
      (hl : c.lock = none) : Acts t e c l { c with lock := some t } (l.goto .load)
  | loadSignaled (h : l.place = .load) (he : l.events[l.index]? = some e)
      (hs : c.signaled = true) : Acts t e c l { c with lock := none } (l.goto .claimSelf)
  | push (h : l.place = .push) (he : l.events[l.index]? = some e) (hs : c.signaled = false) :
      Acts t e c l { c with queue := c.queue ++ [(t, l.index)], queued := true, lock := none }
        { l with index := l.index + 1, place := .winner }
  | pushSignaled (h : l.place = .push) (he : l.events[l.index]? = some e)
      (hs : c.signaled = true) :
      Acts t e c l { c with queue := c.queue ++ [(t, l.index)], queued := true } (l.goto .undo)
  | undo (h : l.place = .undo) (he : l.events[l.index]? = some e) :
      Acts t e c l { c.unlink (t, l.index) with lock := none } (l.goto .claimSelf)
  | unregister {i : ℕ} (h : l.place = .unregister i) (he : l.events[i]? = some e)
      (hl : c.lock = none) : Acts t e c l (c.unlink (t, i)) (l.goto (.unregister (i + 1)))
  | claimLock {one : Bool} (h : l.place = .claimLock e one) (hl : c.lock = none) :
      Acts t e c l { c with lock := some t } (l.goto (.claim e one []))
  | pop {one : Bool} {batch : List ι} {waiter : ι × ℕ} {rest : List (ι × ℕ)}
      (h : l.place = .claim e one batch) (hq : c.queue = waiter :: rest) :
      Acts t e c l { c with queue := rest, taken := some waiter }
        (l.goto (.tryClaim e one batch))
  | claimEnds {one : Bool} {batch : List ι} (h : l.place = .claim e one batch)
      (hq : c.queue = []) :
      Acts t e c l { c with queued := false, lock := none } (l.goto (.wakeBatch batch))

inductive Step (t : ι) (s : State ε ι) : State ε ι → Prop
  | own {l : Local ε ι} (h : Goes s (s.party t) l) : Step t s (s.put t l)
  | act {e : ε} {c : Event ι} {l : Local ε ι} (h : Acts t e (s.event e) (s.party t) c l) :
      Step t s ((s.set e c).put t l)
  /-- The registrations are allocated on the heap while its mutex is held. -/
  | allocateSleeps (h : (s.party t).place = .allocate)
      (hlen : INLINE_WAITERS < (s.party t).events.length) (hheap : s.heapHeld = true) :
      Step t s (s.put t ((s.party t).sleepOnMutex.goto .winner))
  | claimSelf (h : (s.party t).place = .claimSelf) (hw : (s.party t).winner = none) :
      Step t s (s.put t { (s.party t).claimed (s.party t).index with
        claimedLocally := true, place := .wakeSelf })
  | wakeSelf (h : (s.party t).place = .wakeSelf) (hs : ¬ (s.party t).Stale (s.party t).seq) :
      Step t s (s.put t ((s.party t).woken.goto .condition))
  | claimZero (h : (s.party t).place = .claimZero) (hw : (s.party t).winner = none) :
      Step t s (s.put t { (s.party t).claimed 0 with claimedLocally := true, place := .wakeZero })
  | wakeZero (h : (s.party t).place = .wakeZero) (hs : ¬ (s.party t).Stale (s.party t).seq) :
      Step t s (s.put t ((s.party t).woken.goto .decide))
  | claimFails {e : ε} {one : Bool} {batch : List ι} {w : ι} {i : ℕ}
      (h : (s.party t).place = .tryClaim e one batch) (ht : (s.event e).taken = some (w, i))
      (hw : (s.party w).winner ≠ none) :
      Step t s ((s.set e { s.event e with taken := none }).put t
        ((s.party t).goto (.claim e one batch)))
  | claimForBatch {e : ε} {batch : List ι} {w : ι} {i : ℕ}
      (h : (s.party t).place = .tryClaim e false batch) (ht : (s.event e).taken = some (w, i))
      (hw : (s.party w).winner = none) :
      Step t s (((s.set e { s.event e with taken := none }).put w ((s.party w).claimed i)).put t
        ((s.party t).goto (.claim e false (batch ++ [w]))))
  | claimOne {e : ε} {batch : List ι} {w : ι} {i : ℕ}
      (h : (s.party t).place = .tryClaim e true batch) (ht : (s.event e).taken = some (w, i))
      (hw : (s.party w).winner = none) :
      Step t s (((s.set e { s.event e with
        taken := none
        queued := if (s.event e).queue = [] then false else (s.event e).queued
        lock := none }).put w ((s.party w).claimed i)).put t
          ((s.party t).goto (.wake w (s.party w).seq batch)))
  | wake {w : ι} {seq : ℕ} {batch : List ι} (h : (s.party t).place = .wake w seq batch)
      (hs : ¬ (s.party w).Stale seq) :
      Step t s ((s.put w (s.party w).woken).put t ((s.party t).goto (.wakeBatch batch)))

/-- A thread is at an assertion that does not hold. -/
inductive Fails (t : ι) (s : State ε ι) : Prop
  | staleWaiter {w : ι} {seq : ℕ} {batch : List ι} (h : (s.party t).place = .wake w seq batch)
      (hs : (s.party w).Stale seq)
  | staleSelf (h : (s.party t).place = .wakeSelf ∨ (s.party t).place = .wakeZero)
      (hs : (s.party t).Stale (s.party t).seq)
  | lostRegistration {e : ε} (h : (s.party t).place = .undo)
      (he : (s.party t).events[(s.party t).index]? = some e)
      (hq : (t, (s.party t).index) ∉ (s.event e).queue)
  | unclaimed (h : (s.party t).place = .finish) (hw : (s.party t).winner = none)
  | invalidWinner {e : ε} {i : ℕ} (h : (s.party t).place = .finish) (he : (s.party t).events = [e])
      (hw : (s.party t).winner = some i) (hi : i ≠ 0)

/-- Any number of threads and events; others take the mutex of the heap and give it back. -/
def machine (ε ι : Type) [DecidableEq ε] [DecidableEq ι] : Machine (State ε ι) where
  init s := s = .new
  step s s' := (∃ t, Step t s s') ∨ ∃ held, s' = { s with heapHeld := held }

end Roanix.Sys.EventM
