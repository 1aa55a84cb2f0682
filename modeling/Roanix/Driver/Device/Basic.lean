import Roanix.Lib.Machine

/-! One device under `device::remove`, the probe engine and `detach_driver`, from any number of
threads, with each read and write of its state and of its driver a step. Which drivers match, what
their callbacks return and whether a bind fails before the probe are left open. -/
namespace Roanix.Driver.Device
open Lib

inductive DeviceState where
  | unbound
  | probing
  | bound
  | deferred
  | removing
  | dead
deriving DecidableEq, Repr

inductive Event (δ : Type) where
  | probe (driver : δ)
  | probed (driver : δ) (ok : Bool)
  | remove (driver : δ)
  | removed (driver : δ)
  | dead
deriving DecidableEq, Repr

inductive Life (δ : Type) where
  | free
  | probing (driver : δ)
  | bound (driver : δ)
  | removing (driver : δ)
  | dead
deriving DecidableEq, Repr

/-- A probe that succeeded is followed by one call of the same driver's remove callback, and nothing
else happens in between; there is no next event where that is broken. -/
def Life.next {δ : Type} [DecidableEq δ] : Life δ → Event δ → Option (Life δ)
  | .free, .probe driver => some (.probing driver)
  | .probing driver, .probed other ok =>
    if driver = other then some (if ok then .bound driver else .free) else none
  | .bound driver, .remove other => if driver = other then some (.removing driver) else none
  | .removing driver, .removed other => if driver = other then some .free else none
  | .free, .dead => some .dead
  | _, _ => none

/-- Where the events, the latest first, have brought the driver. -/
def life {δ : Type} [DecidableEq δ] : List (Event δ) → Option (Life δ)
  | [] => some .free
  | event :: log => (life log).bind (·.next event)

/-- Where a thread is in `try_bind_with`, `unbind` or `remove`, named for what it does next. An
`unbind` is called by `remove` or by `detach_driver`. -/
inductive Place (δ : Type) where
  | idle
  /-- `transition(previous, PROBING)`: the exchange, then the store. -/
  | bindExchange (previous : DeviceState)
  | bindStore (previous : DeviceState)
  | evaluate (previous : DeviceState)
  | bindNext (candidates : List δ)
  | probe (driver : δ) (rest : List δ)
  | probeFailed (wait : Bool) (rest : List δ)
  | bindBound (driver : δ)
  | bindDeferred
  | unbindDriver (byRemove : Bool)
  | unbindState (byRemove : Bool) (driver : δ)
  /-- `transition(BOUND, REMOVING)`. -/
  | unbindExchange (byRemove : Bool) (driver : δ)
  | unbindStore (byRemove : Bool) (driver : δ)
  | unbindPin (byRemove : Bool) (driver : δ) (wasBound : Bool)
  | calling (byRemove : Bool) (driver : δ) (wasBound : Bool)
  | unbindClear (byRemove wasBound : Bool)
  | unbindRestore (byRemove : Bool)
  | removeLoad
  /-- `transition(previous, REMOVING)`. -/
  | removeExchange (previous : DeviceState)
  | removeStore
  | removeDead
deriving DecidableEq, Repr

def Place.unbound {δ : Type} (byRemove : Bool) : Place δ :=
  if byRemove then .removeDead else .idle

structure Record (δ : Type) where
  state : DeviceState
  driver : Option δ
  claims : ℕ
  log : List (Event δ)
deriving DecidableEq, Repr

structure State (δ ι : Type) where
  device : Record δ
  /-- The module that owns a driver is `DEAD`, so that `pin` fails. -/
  ownerDead : δ → Bool
  party : ι → Place δ

def State.new {δ ι : Type} : State δ ι where
  device := ⟨.unbound, none, 0, []⟩
  ownerDead _ := false
  party _ := .idle

variable {δ ι : Type} [DecidableEq ι]

namespace State

def goto (s : State δ ι) (t : ι) (place : Place δ) : State δ ι :=
  { s with party := Function.update s.party t place }

def setState (s : State δ ι) (state : DeviceState) : State δ ι :=
  { s with device := { s.device with state := state } }

def setDriver (s : State δ ι) (driver : Option δ) : State δ ι :=
  { s with device := { s.device with driver := driver } }

def happens (s : State δ ι) (event : Event δ) : State δ ι :=
  { s with device := { s.device with log := event :: s.device.log } }

end State

def DeviceState.Waits : DeviceState → Prop
  | .unbound | .deferred => True
  | _ => False

inductive Step (t : ι) (s : State δ ι) : State δ ι → Prop
  | bind (h : s.party t = .idle) (hw : s.device.state.Waits) :
      Step t s (s.goto t (.bindExchange s.device.state))
  | bindExchange {previous : DeviceState} (h : s.party t = .bindExchange previous)
      (hs : s.device.state = previous) :
      Step t s ((s.setState .probing).goto t (.bindStore previous))
  | bindLost {previous : DeviceState} (h : s.party t = .bindExchange previous)
      (hs : s.device.state ≠ previous) : Step t s (s.goto t .idle)
  | bindStore {previous : DeviceState} (h : s.party t = .bindStore previous) :
      Step t s ((s.setState .probing).goto t (.evaluate previous))
  | evaluate {previous : DeviceState} (driver : δ) (rest : List δ)
      (h : s.party t = .evaluate previous) : Step t s (s.goto t (.bindNext (driver :: rest)))
  | noCandidates {previous : DeviceState} (h : s.party t = .evaluate previous) :
      Step t s ((s.setState (if previous = .deferred then .deferred else .unbound)).goto t .idle)
  /-- `bind_one` fails before the probe: the next candidate, or `Deferred`. -/
  | bindFails {driver : δ} {rest : List δ} (wait : Bool) (h : s.party t = .bindNext (driver :: rest)) :
      Step t s (s.goto t (if wait then .bindDeferred else .bindNext rest))
  | probe {driver : δ} {rest : List δ} (h : s.party t = .bindNext (driver :: rest)) :
      Step t s (((s.setDriver (some driver)).happens (.probe driver)).goto t (.probe driver rest))
  | probeOk {driver : δ} {rest : List δ} (h : s.party t = .probe driver rest) :
      Step t s ((s.happens (.probed driver true)).goto t (.bindBound driver))
  | probeFails {driver : δ} {rest : List δ} (wait : Bool) (h : s.party t = .probe driver rest) :
      Step t s ((s.happens (.probed driver false)).goto t (.probeFailed wait rest))
  | probeClear {wait : Bool} {rest : List δ} (h : s.party t = .probeFailed wait rest) :
      Step t s ((s.setDriver none).goto t (if wait then .bindDeferred else .bindNext rest))
  | bindBound {driver : δ} (h : s.party t = .bindBound driver) :
      Step t s ((s.setState .bound).goto t .idle)
  | bindDeferred (h : s.party t = .bindDeferred) : Step t s ((s.setState .deferred).goto t .idle)
  | bindNone (h : s.party t = .bindNext []) : Step t s ((s.setState .unbound).goto t .idle)
  /-- `detach_driver` finds the device bound to its driver. -/
  | detach (driver : δ) (h : s.party t = .idle) (hd : s.device.driver = some driver) :
      Step t s (s.goto t (.unbindDriver false))
  | unbindNone {byRemove : Bool} (h : s.party t = .unbindDriver byRemove)
      (hd : s.device.driver = none) : Step t s (s.goto t (.unbound byRemove))
  | unbindDriver {byRemove : Bool} {driver : δ} (h : s.party t = .unbindDriver byRemove)
      (hd : s.device.driver = some driver) : Step t s (s.goto t (.unbindState byRemove driver))
  | unbindSkips {byRemove : Bool} {driver : δ} (h : s.party t = .unbindState byRemove driver)
      (hb : s.device.state ≠ .bound) (hr : s.device.state ≠ .removing) :
      Step t s (s.goto t (.unbound byRemove))
  | unbindBound {byRemove : Bool} {driver : δ} (h : s.party t = .unbindState byRemove driver)
      (hb : s.device.state = .bound) : Step t s (s.goto t (.unbindExchange byRemove driver))
  | unbindRemoving {byRemove : Bool} {driver : δ} (h : s.party t = .unbindState byRemove driver)
      (hr : s.device.state = .removing) : Step t s (s.goto t (.unbindPin byRemove driver false))
  | unbindExchange {byRemove : Bool} {driver : δ} (h : s.party t = .unbindExchange byRemove driver)
      (hb : s.device.state = .bound) :
      Step t s ((s.setState .removing).goto t (.unbindStore byRemove driver))
  | unbindLost {byRemove : Bool} {driver : δ} (h : s.party t = .unbindExchange byRemove driver)
      (hb : s.device.state ≠ .bound) : Step t s (s.goto t (.unbound byRemove))
  | unbindStore {byRemove : Bool} {driver : δ} (h : s.party t = .unbindStore byRemove driver) :
      Step t s ((s.setState .removing).goto t (.unbindPin byRemove driver true))
  | call {byRemove wasBound : Bool} {driver : δ} (h : s.party t = .unbindPin byRemove driver wasBound)
      (hp : s.ownerDead driver = false) :
      Step t s ((s.happens (.remove driver)).goto t (.calling byRemove driver wasBound))
  | pinFails {byRemove wasBound : Bool} {driver : δ}
      (h : s.party t = .unbindPin byRemove driver wasBound) (hp : s.ownerDead driver = true) :
      Step t s (s.goto t (.unbindClear byRemove wasBound))
  | returned {byRemove wasBound : Bool} {driver : δ}
      (h : s.party t = .calling byRemove driver wasBound) :
      Step t s ((s.happens (.removed driver)).goto t (.unbindClear byRemove wasBound))
  | unbindClear {byRemove wasBound : Bool} (h : s.party t = .unbindClear byRemove wasBound) :
      Step t s ((s.setDriver none).goto t
        (if wasBound then .unbindRestore byRemove else .unbound byRemove))
  | unbindRestore {byRemove : Bool} (h : s.party t = .unbindRestore byRemove) :
      Step t s ((s.setState .unbound).goto t (.unbound byRemove))
  | remove (h : s.party t = .idle) : Step t s (s.goto t .removeLoad)
  /-- The device is `DEAD`, or a probe is running and `remove` returns `Busy`. -/
  | removeRefused (h : s.party t = .removeLoad)
      (hs : s.device.state = .dead ∨ s.device.state = .probing) : Step t s (s.goto t .idle)
  | removeLoad (h : s.party t = .removeLoad) (hd : s.device.state ≠ .dead)
      (hp : s.device.state ≠ .probing) : Step t s (s.goto t (.removeExchange s.device.state))
  | removeExchange {previous : DeviceState} (h : s.party t = .removeExchange previous)
      (hs : s.device.state = previous) :
      Step t s ({ s with device :=
        { s.device with state := .removing, claims := s.device.claims + 1 } }.goto t .removeStore)
  | removeLost {previous : DeviceState} (h : s.party t = .removeExchange previous)
      (hs : s.device.state ≠ previous) : Step t s (s.goto t .removeLoad)
  | removeStore (h : s.party t = .removeStore) :
      Step t s ((s.setState .removing).goto t (.unbindDriver true))
  | removeDead (h : s.party t = .removeDead) :
      Step t s (((s.setState .dead).happens .dead).goto t .idle)

/-- Any number of threads; meanwhile modules that own drivers go. -/
def machine (δ ι : Type) [DecidableEq ι] : Machine (State δ ι) where
  init s := s = .new
  step s s' := (∃ t, Step t s s') ∨ ∃ ownerDead, s' = { s with ownerDead := ownerDead }

end Roanix.Driver.Device
