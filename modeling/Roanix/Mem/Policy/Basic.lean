import Roanix.Lib.Machine

/-! The replacement queues of `policy.rs`. A section under the interlock of a page, under a pending
array or under the policy lock is one step; a drain holds the policy lock and its array over many
steps, one page a step. Which CPU a thread runs on, whether a `try_lock` succeeds and what a scan
decides about its candidate are left open. -/
namespace Roanix.Mem.Policy
open Lib Function

def QUEUE_SIZE : ℕ := 128

/-- The two bits of `INTENT_MASK`. -/
inductive Intent where
  | activate
  | deactivate
  | enqueue
  | dequeue
deriving DecidableEq, Repr

inductive PageQueue where
  | none
  | active
  | inactive
deriving DecidableEq, Repr

/-- `Page::policy_flags`: the intent, `INTENT_SET`, `INTENT_QUEUED`, `ACTIVE` and `INACTIVE`. -/
structure Flags where
  intent : Intent
  isSet : Bool
  queued : Bool
  active : Bool
  inactive : Bool
deriving DecidableEq, Repr

def Intent.queue : Intent → PageQueue
  | .dequeue => .none
  | .deactivate => .inactive
  | .activate | .enqueue => .active

namespace Flags

def new : Flags := ⟨.activate, false, false, false, false⟩

def queue (f : Flags) : PageQueue :=
  if f.isSet then f.intent.queue
  else if f.active then .active
  else if f.inactive then .inactive
  else .none

def setIntent (f : Flags) (intent : Intent) : Flags :=
  { f with intent := intent, isSet := true, queued := true }

def impose (f : Flags) (intent : Intent) : Flags := { f with intent := intent, isSet := true }

end Flags

/-- What is linked in a list: a page, or the marker of a scan. -/
inductive Entry (π ι : Type) where
  | page (p : π)
  | marker (t : ι)
deriving DecidableEq, Repr

def Entry.isPage {π ι : Type} : Entry π ι → Bool
  | page _ => true
  | marker _ => false

structure Clock (π ι : Type) where
  active : List (Entry π ι)
  inactive : List (Entry π ι)
  nactive : ℕ
  ninactive : ℕ

namespace Clock
variable {π ι : Type}

def new : Clock π ι := ⟨[], [], 0, 0⟩

def list (c : Clock π ι) (active : Bool) : List (Entry π ι) :=
  if active then c.active else c.inactive

def setList (c : Clock π ι) (active : Bool) (l : List (Entry π ι)) : Clock π ι :=
  if active then { c with active := l } else { c with inactive := l }

variable [DecidableEq π] [DecidableEq ι]

def remove (c : Clock π ι) (p : π) (f : Flags) : Clock π ι :=
  if f.active then { c with active := c.active.erase (.page p), nactive := c.nactive - 1 }
  else if f.inactive then
    { c with inactive := c.inactive.erase (.page p), ninactive := c.ninactive - 1 }
  else c

/-- `realize`, with the flags of the page after it; it returns whether an intent was set. -/
def realize (c : Clock π ι) (p : π) (f : Flags) : Clock π ι × Flags × Bool :=
  if !f.isSet then (c, f, false)
  else if f.intent = .deactivate ∧ f.inactive then (c, { f with isSet := false }, true)
  else
    let c := c.remove p f
    let f := { f with active := false, inactive := false, isSet := false }
    match f.intent with
    | .dequeue => (c, f, true)
    | .deactivate =>
      ({ c with inactive := c.inactive ++ [.page p], ninactive := c.ninactive + 1 },
        { f with inactive := true }, true)
    | .activate | .enqueue =>
      ({ c with active := c.active ++ [.page p], nactive := c.nactive + 1 },
        { f with active := true }, true)

end Clock

section Marker
variable {π ι : Type}

/-- The marker moves behind the first page after it, past the markers of other scans. -/
def pass (t : ι) : List (Entry π ι) → List (Entry π ι) × Option π
  | [] => ([.marker t], none)
  | .page p :: rest => (.page p :: .marker t :: rest, some p)
  | .marker u :: rest => (.marker u :: (pass t rest).1, (pass t rest).2)

def next [DecidableEq ι] (t : ι) : List (Entry π ι) → List (Entry π ι) × Option π
  | [] => ([], none)
  | .page p :: rest => (.page p :: (next t rest).1, (next t rest).2)
  | .marker u :: rest =>
    if u = t then pass t rest else (.marker u :: (next t rest).1, (next t rest).2)

end Marker

inductive Place (κ π : Type) where
  | idle
  /-- `queue_pending`. -/
  | push (page : π)
  /-- The array of its CPU was full. -/
  | pushSlow (page : π)
  /-- `drain`, and then the page to queue. -/
  | drain (cpu : κ) (page : Option π)
  /-- A scan has a candidate and tries to lock its owner. -/
  | candidate (page : π)
  /-- The candidate was found to be in place. -/
  | chosen (page : π)
deriving DecidableEq, Repr

structure State (κ π ι : Type) where
  clock : Clock π ι
  flags : π → Flags
  wires : π → ℕ
  pending : κ → List π
  /-- Who has the policy lock, and the lock of each array, over several steps. -/
  policyLock : Option ι
  pendingLock : κ → Option ι
  party : ι → Place κ π
  marker : ι → Option Bool
  last : π → Option Intent

variable {κ π ι : Type}

def State.new : State κ π ι where
  clock := .new
  flags _ := .new
  wires _ := 0
  pending _ := []
  policyLock := none
  pendingLock _ := none
  party _ := .idle
  marker _ := none
  last _ := none

variable [DecidableEq κ] [DecidableEq π] [DecidableEq ι]

namespace State

def goto (s : State κ π ι) (t : ι) (place : Place κ π) : State κ π ι :=
  { s with party := update s.party t place }

def setPending (s : State κ π ι) (cpu : κ) (l : List π) : State κ π ι :=
  { s with pending := update s.pending cpu l }

/-- `set_intent` and, when the page was not queued, on to `queue_pending`. -/
def intend (s : State κ π ι) (t : ι) (p : π) (intent : Intent) : State κ π ι :=
  { s with
    flags := update s.flags p ((s.flags p).setIntent intent)
    last := update s.last p (some intent) }.goto t
      (if (s.flags p).queued then .idle else .push p)

def realize (s : State κ π ι) (p : π) : State κ π ι :=
  { s with
    clock := (s.clock.realize p (s.flags p)).1
    flags := update s.flags p (s.clock.realize p (s.flags p)).2.1 }

def impose (s : State κ π ι) (p : π) (intent : Intent) : State κ π ι :=
  { s with
    flags := update s.flags p ((s.flags p).impose intent)
    last := update s.last p (some intent) }.realize p

/-- `drain` takes the pointer out of the array and realizes what the page asks for by now. -/
def consume (s : State κ π ι) (cpu : κ) (p : π) (rest : List π) : State κ π ι :=
  { s with
    pending := update s.pending cpu rest
    flags := update s.flags p { s.flags p with queued := false } }.realize p

def setMarker (s : State κ π ι) (t : ι) (marker : Option Bool) (active : Bool)
    (l : List (Entry π ι)) : State κ π ι :=
  { s with clock := s.clock.setList active l, marker := update s.marker t marker }

/-- `Marker::next` on the list of a scan. -/
def advance (s : State κ π ι) (t : ι) (active : Bool) : State κ π ι :=
  { s with clock := s.clock.setList active (next t (s.clock.list active)).1 }

def lock (s : State κ π ι) (cpu : κ) (holder : Option ι) : State κ π ι :=
  { s with policyLock := holder, pendingLock := update s.pendingLock cpu holder }

end State

inductive Step (t : ι) (s : State κ π ι) : State κ π ι → Prop
  /-- `activate`, `deactivate`, `enqueue` or `dequeue`. -/
  | intend (p : π) (intent : Intent) (h : s.party t = .idle) : Step t s (s.intend t p intent)
  | wireFirst (p : π) (h : s.party t = .idle) (hw : s.wires p = 0) :
      Step t s ({ s with wires := update s.wires p 1 }.intend t p .dequeue)
  | wire (p : π) (h : s.party t = .idle) (hw : 0 < s.wires p) (hmax : s.wires p < 2 ^ 32 - 1) :
      Step t s { s with wires := update s.wires p (s.wires p + 1) }
  | unwireLast (p : π) (h : s.party t = .idle) (hw : s.wires p = 1) :
      Step t s ({ s with wires := update s.wires p 0 }.intend t p .activate)
  | unwire (p : π) (h : s.party t = .idle) (hw : 1 < s.wires p) :
      Step t s { s with wires := update s.wires p (s.wires p - 1) }
  | push {p : π} (cpu : κ) (h : s.party t = .push p) (hl : s.pendingLock cpu = none)
      (hlen : (s.pending cpu).length < QUEUE_SIZE) :
      Step t s ((s.setPending cpu (p :: s.pending cpu)).goto t .idle)
  | pushFull {p : π} (cpu : κ) (h : s.party t = .push p) (hl : s.pendingLock cpu = none)
      (hlen : (s.pending cpu).length = QUEUE_SIZE) : Step t s (s.goto t (.pushSlow p))
  | pushSlow {p : π} (cpu : κ) (h : s.party t = .pushSlow p) (hp : s.policyLock = none)
      (hl : s.pendingLock cpu = none) : Step t s ((s.lock cpu (some t)).goto t (.drain cpu (some p)))
  /-- `flush` and `idle`. -/
  | flush (cpu : κ) (h : s.party t = .idle) (hp : s.policyLock = none)
      (hl : s.pendingLock cpu = none) : Step t s ((s.lock cpu (some t)).goto t (.drain cpu none))
  | drain {cpu : κ} {page : Option π} {p : π} {rest : List π} (h : s.party t = .drain cpu page)
      (hp : s.pending cpu = p :: rest) : Step t s (s.consume cpu p rest)
  /-- The array is empty, or `idle` could not lock a page. -/
  | drained {cpu : κ} (h : s.party t = .drain cpu none) : Step t s ((s.lock cpu none).goto t .idle)
  | drainedPush {cpu : κ} {p : π} (h : s.party t = .drain cpu (some p)) (hp : s.pending cpu = []) :
      Step t s (((s.setPending cpu [p]).lock cpu none).goto t .idle)
  /-- `Marker::new` in `balance` or `scan`. -/
  | mark (active : Bool) (h : s.party t = .idle) (hm : s.marker t = none) (hp : s.policyLock = none) :
      Step t s (s.setMarker t (some active) active (.marker t :: s.clock.list active))
  /-- The next page had an intent, which the scan realized. -/
  | scanRealize {active : Bool} {p : π} (h : s.party t = .idle) (hm : s.marker t = some active)
      (hp : s.policyLock = none) (hn : (next t (s.clock.list active)).2 = some p)
      (hs : (s.flags p).isSet) : Step t s ((s.advance t active).realize p)
  | scanCandidate {active : Bool} {p : π} (h : s.party t = .idle) (hm : s.marker t = some active)
      (hp : s.policyLock = none) (hn : (next t (s.clock.list active)).2 = some p)
      (hs : (s.flags p).isSet = false) : Step t s ((s.advance t active).goto t (.candidate p))
  /-- `scan` protects the class of the page. -/
  | scanProtect {p : π} (h : s.party t = .idle) (hm : s.marker t = some false)
      (hp : s.policyLock = none) (hn : (next t (s.clock.list false)).2 = some p)
      (hs : (s.flags p).isSet = false) : Step t s ((s.advance t false).impose p .activate)
  | scanEnd {active : Bool} (h : s.party t = .idle) (hm : s.marker t = some active)
      (hp : s.policyLock = none) (hn : (next t (s.clock.list active)).2 = none) :
      Step t s (s.advance t active)
  | recheckRealize {p : π} (h : s.party t = .candidate p) (hp : s.policyLock = none)
      (hs : (s.flags p).isSet) : Step t s ((s.realize p).goto t .idle)
  | recheck {p : π} {active : Bool} (h : s.party t = .candidate p) (hp : s.policyLock = none)
      (hs : (s.flags p).isSet = false) (hm : s.marker t = some active)
      (hb : if active then (s.flags p).active else (s.flags p).inactive) :
      Step t s (s.goto t (.chosen p))
  /-- The owner is busy, or the candidate is no longer in place. -/
  | recheckFails {p : π} (h : s.party t = .candidate p) : Step t s (s.goto t .idle)
  /-- `balance` deactivates the candidate. -/
  | deactivate {p : π} (h : s.party t = .chosen p) (hm : s.marker t = some true)
      (hp : s.policyLock = none) : Step t s ((s.impose p .deactivate).goto t .idle)
  | leave {p : π} (h : s.party t = .chosen p) : Step t s (s.goto t .idle)
  | unmark {active : Bool} (h : s.party t = .idle) (hm : s.marker t = some active)
      (hp : s.policyLock = none) :
      Step t s (s.setMarker t none active ((s.clock.list active).erase (.marker t)))

def machine (κ π ι : Type) [DecidableEq κ] [DecidableEq π] [DecidableEq ι] :
    Machine (State κ π ι) where
  init s := s = .new
  step s s' := ∃ t, Step t s s'

end Roanix.Mem.Policy
