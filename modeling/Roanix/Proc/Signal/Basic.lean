import Roanix.Lib.Machine

/-! Process signal state: dispositions, the pending queue, masks and the summary flag. Every
operation is one section of the state lock. -/
namespace Roanix.Proc.Signal

def signalMax : ℕ := 64

def sigDfl : ℕ := 0

def sigIgn : ℕ := 1

def sigill : ℕ := 4
def sigtrap : ℕ := 5
def sigbus : ℕ := 7
def sigfpe : ℕ := 8
def sigkill : ℕ := 9
def sigsegv : ℕ := 11
def sigchld : ℕ := 17
def sigcont : ℕ := 18
def sigstop : ℕ := 19
def sigtstp : ℕ := 20
def sigttin : ℕ := 21
def sigttou : ℕ := 22
def sigurg : ℕ := 23
def sigwinch : ℕ := 28
def sigrtmin : ℕ := 35

abbrev Mask : Type := BitVec 64

def signalBit (signal : ℕ) : Mask := 1#64 <<< (signal - 1)

def unblockableMask : Mask := signalBit sigkill ||| signalBit sigstop

def isStopSignal (signal : ℕ) : Bool := signal ∈ [sigstop, sigtstp, sigttin, sigttou]

def defaultIgnored (signal : ℕ) : Bool := signal ∈ [sigchld, sigcont, sigurg, sigwinch]

structure SignalAction where
  handler : ℕ
  flags : ℕ
  restorer : ℕ
  mask : Mask
deriving DecidableEq, Repr

def SignalAction.default : SignalAction := ⟨sigDfl, 0, 0, 0⟩

structure SignalInfo where
  signal : ℕ
  code : ℤ
  senderPid : ℕ
  senderUid : ℕ
  synchronous : Bool
  /-- Which call of `enqueue` this is; no code reads it. -/
  serial : ℕ
deriving DecidableEq, Repr

inductive SignalWait where
  | ready (info : SignalInfo)
  | interrupted
  | sleep
deriving DecidableEq, Repr

structure SignalStack where
  pointer : ℕ
  size : ℕ
deriving DecidableEq, Repr

structure SignalManager where
  pendingWork : Bool
  actions : ℕ → SignalAction
  pending : List SignalInfo
  mask : Mask
  altStack : Option SignalStack
  suspendRestoreMask : Option Mask
  /-- A stopped thread and its park sequence. -/
  stopped : Option (ℕ × ℕ)
  event : Bool

def deliverable (mask : Mask) (info : SignalInfo) : Bool :=
  info.synchronous || info.signal = sigkill || info.signal = sigstop ||
    mask &&& signalBit info.signal = 0

def matching (mask : Mask) (info : SignalInfo) : Bool := mask &&& signalBit info.signal ≠ 0

/-- Whether `enqueue` of a signal first takes away a pending one. -/
def cancels (info pending : SignalInfo) : Bool :=
  if info.signal = sigcont ∨ info.signal = sigkill then isStopSignal pending.signal
  else if isStopSignal info.signal then pending.signal = sigcont
  else false

namespace SignalManager

def new : SignalManager where
  pendingWork := false
  actions _ := .default
  pending := []
  mask := 0
  altStack := none
  suspendRestoreMask := none
  stopped := none
  event := false

def forkFrom (parent : SignalManager) : SignalManager :=
  { new with actions := parent.actions, mask := parent.mask, altStack := parent.altStack }

def resetForExec (m : SignalManager) : SignalManager :=
  { m with
    actions := fun signal =>
      if 1 ≤ signal ∧ (m.actions signal).handler ≠ sigIgn then .default else m.actions signal
    altStack := none
    suspendRestoreMask := none
    stopped := none }

def setAction (m : SignalManager) (signal : ℕ) (action : SignalAction) :
    SignalAction × SignalManager :=
  (m.actions signal,
    { m with
      actions := Function.update m.actions signal action
      pending :=
        if action.handler = sigIgn then m.pending.filter (·.signal ≠ signal) else m.pending })

/-- The mask that `update_mask` computes, for the values of `how` that it accepts. -/
def maskFor (old mask : Mask) (how : ℤ) : Option Mask :=
  if how = 0 then some (old ||| mask)
  else if how = 1 then some (old &&& ~~~mask)
  else if how = 2 then some mask
  else none

/-- `update_mask`; no result is `Errno::Invalid`. -/
def updateMask (m : SignalManager) (how : ℤ) (mask : Mask) : Option Mask × SignalManager :=
  match maskFor m.mask mask how with
  | none => (none, m)
  | some mask => (some m.mask, { m with mask := mask &&& ~~~unblockableMask })

def restoreMask (m : SignalManager) (mask : Mask) : SignalManager :=
  { m with mask := mask &&& ~~~unblockableMask }

def replaceAltStack (m : SignalManager) (stack : Option SignalStack) : SignalManager :=
  { m with altStack := stack }

def beginSuspend (m : SignalManager) (mask : Mask) : SignalManager :=
  { m with
    suspendRestoreMask := some (m.suspendRestoreMask.getD m.mask)
    mask := mask &&& ~~~unblockableMask
    pendingWork := true }

def takeSuspendRestoreMask (m : SignalManager) : Option Mask × SignalManager :=
  (m.suspendRestoreMask,
    { m with suspendRestoreMask := none, pendingWork := m.pendingWork && !m.pending.isEmpty })

def interruptsSuspend (m : SignalManager) (info : SignalInfo) : Bool :=
  deliverable m.mask info && (m.actions info.signal).handler ≠ sigIgn &&
    !((m.actions info.signal).handler = sigDfl && defaultIgnored info.signal)

def prepareInterruptWait (m : SignalManager) : Bool × SignalManager :=
  if m.pending.any m.interruptsSuspend then (true, m) else (false, { m with event := false })

def take (m : SignalManager) (test : SignalInfo → Bool) : Option SignalInfo × SignalManager :=
  match m.pending.find? test with
  | none => (none, m)
  | some info =>
    let pending := m.pending.eraseP test
    (some info, { m with pending, event := m.event && !pending.isEmpty })

def prepareSignalWait (m : SignalManager) (waited : Mask) : SignalWait × SignalManager :=
  match m.take (matching waited) with
  | (some info, m) => (.ready info, m)
  | (none, _) =>
    if m.pending.any (deliverable m.mask) then (.interrupted, m)
    else (.sleep, { m with event := false })

/-- Whether `enqueue` drops a signal by its disposition. -/
def ignores (m : SignalManager) (info : SignalInfo) : Bool :=
  (m.actions info.signal).handler = sigIgn && info.signal ≠ sigkill && info.signal ≠ sigstop

/-- The pending signal, of those that stay, with which `enqueue` merges a standard one. -/
def duplicate (m : SignalManager) (info : SignalInfo) : Option SignalInfo :=
  if info.signal < sigrtmin then
    (m.pending.filter (!cancels info ·)).find? (·.signal = info.signal)
  else none

/-- `enqueue`, and the stopped thread that it wakes. -/
def enqueue (m : SignalManager) (info : SignalInfo) : Option (ℕ × ℕ) × SignalManager :=
  let continues := decide (info.signal = sigcont ∨ info.signal = sigkill)
  let kept := m.pending.filter (!cancels info ·)
  let stopped := if continues then none else m.stopped
  let wake := if continues then m.stopped else none
  if m.ignores info || (m.duplicate info).isSome then (wake, { m with pending := kept, stopped })
  else
    (wake, { m with pending := kept ++ [info], stopped, pendingWork := true, event := true })

def takeDeliverable (m : SignalManager) : Option SignalInfo × SignalManager :=
  m.take (deliverable m.mask)

/-- `take_matching_with`: nothing matches, or whether `deliver` accepted the signal. -/
def takeMatchingWith (m : SignalManager) (mask : Mask) (deliver : SignalInfo → Bool) :
    Option Bool × SignalManager :=
  match m.pending.find? (matching mask) with
  | none => (none, m)
  | some info => if deliver info then (some true, (m.take (matching mask)).2) else (some false, m)

def prepareMatchingWait (m : SignalManager) (mask : Mask) : Bool × SignalManager :=
  if m.pending.any (matching mask) then (true, m) else (false, { m with event := false })

def markStopped (m : SignalManager) (thread sequence : ℕ) : SignalManager :=
  { m with stopped := some (thread, sequence) }

end SignalManager

def x86Signal (vec : ℕ) : ℕ :=
  match vec with
  | 0 => sigfpe
  | 1 | 3 => sigtrap
  | 6 => sigill
  | 13 | 14 => sigsegv
  | 17 => sigbus
  | _ => sigill

/-- The signal of a user exception on RISC-V. -/
def riscvSignal (scause : ℕ) : ℕ :=
  match scause with
  | 2 => sigill
  | 3 => sigtrap
  | 0 | 1 | 4 | 5 | 6 | 7 => sigbus
  | 12 | 13 | 15 => sigsegv
  | _ => sigill

/-- The records that reach `enqueue`, by its four callers. Only an exception is synchronous. -/
inductive Raised : SignalInfo → Prop
  | kill {signal : ℕ} (pid serial : ℕ) (h : 1 ≤ signal ∧ signal ≤ signalMax) :
      Raised ⟨signal, 0, pid, 0, false, serial⟩
  | killThread {signal : ℕ} (pid serial : ℕ) (h : 1 ≤ signal ∧ signal ≤ signalMax) :
      Raised ⟨signal, -6, pid, 0, false, serial⟩
  | sendKernel {signal : ℕ} (serial : ℕ) (h : 1 ≤ signal ∧ signal ≤ signalMax) :
      Raised ⟨signal, 128, 0, 0, false, serial⟩
  | sendCurrentX86 (vec serial : ℕ) : Raised ⟨x86Signal vec, 128, 0, 0, true, serial⟩
  | sendCurrentRiscv (scause serial : ℕ) : Raised ⟨riscvSignal scause, 128, 0, 0, true, serial⟩

theorem Raised.asynchronous {info : SignalInfo} (h : Raised info) (hrt : sigrtmin ≤ info.signal) :
    info.synchronous = false := by
  cases h with
  | kill | killThread | sendKernel => rfl
  | sendCurrentX86 vec =>
    revert hrt
    simp only [x86Signal]
    split <;> decide
  | sendCurrentRiscv scause =>
    revert hrt
    simp only [riscvSignal]
    split <;> decide

/-- Why a signal that was raised is neither pending nor taken. -/
inductive Why where
  | ignored (action : SignalAction)
  | coalesced (pending : SignalInfo)
  | cancelled (cause : SignalInfo)
deriving DecidableEq, Repr

/-- The manager of one process, with the signals raised for it, taken from it and dropped, each in
order. -/
structure State where
  manager : SignalManager
  raised : List SignalInfo
  taken : List SignalInfo
  dropped : List (SignalInfo × Why)

namespace State

def new (m : SignalManager) : State := ⟨m, [], [], []⟩

def refused (m : SignalManager) (info : SignalInfo) : List (SignalInfo × Why) :=
  if m.ignores info then [(info, .ignored (m.actions info.signal))]
  else (m.duplicate info).toList.map fun p => (info, .coalesced p)

def enqueue (s : State) (info : SignalInfo) : State where
  manager := (s.manager.enqueue { info with serial := s.raised.length }).2
  raised := s.raised ++ [{ info with serial := s.raised.length }]
  taken := s.taken
  dropped := s.dropped ++
    ((s.manager.pending.filter (cancels { info with serial := s.raised.length })).map
      (·, .cancelled { info with serial := s.raised.length })) ++
    refused s.manager { info with serial := s.raised.length }

def setAction (s : State) (signal : ℕ) (action : SignalAction) : State :=
  { s with
    manager := (s.manager.setAction signal action).2
    dropped := s.dropped ++
      if action.handler = sigIgn then
        (s.manager.pending.filter (·.signal = signal)).map (·, .ignored action)
      else [] }

def takeDeliverable (s : State) : State :=
  { s with
    manager := s.manager.takeDeliverable.2
    taken := s.taken ++ s.manager.takeDeliverable.1.toList }

def takeMatchingWith (s : State) (mask : Mask) (deliver : SignalInfo → Bool) : State :=
  { s with
    manager := (s.manager.takeMatchingWith mask deliver).2
    taken := s.taken ++
      match (s.manager.takeMatchingWith mask deliver).1 with
      | some true => (s.manager.pending.find? (matching mask)).toList
      | _ => [] }

def prepareSignalWait (s : State) (waited : Mask) : State :=
  { s with
    manager := (s.manager.prepareSignalWait waited).2
    taken := s.taken ++
      match (s.manager.prepareSignalWait waited).1 with
      | .ready info => [info]
      | _ => [] }

end State

inductive Step (s : State) : State → Prop
  | enqueue {info : SignalInfo} (h : Raised info) : Step s (s.enqueue info)
  | setAction (signal : ℕ) (action : SignalAction) : Step s (s.setAction signal action)
  | updateMask (how : ℤ) (mask : Mask) :
      Step s { s with manager := (s.manager.updateMask how mask).2 }
  | restoreMask (mask : Mask) : Step s { s with manager := s.manager.restoreMask mask }
  | replaceAltStack (stack : Option SignalStack) :
      Step s { s with manager := s.manager.replaceAltStack stack }
  | beginSuspend (mask : Mask) : Step s { s with manager := s.manager.beginSuspend mask }
  | takeSuspendRestoreMask : Step s { s with manager := s.manager.takeSuspendRestoreMask.2 }
  | prepareInterruptWait : Step s { s with manager := s.manager.prepareInterruptWait.2 }
  | prepareSignalWait (waited : Mask) : Step s (s.prepareSignalWait waited)
  | takeDeliverable : Step s s.takeDeliverable
  | takeMatchingWith (mask : Mask) (deliver : SignalInfo → Bool) :
      Step s (s.takeMatchingWith mask deliver)
  | prepareMatchingWait (mask : Mask) :
      Step s { s with manager := (s.manager.prepareMatchingWait mask).2 }
  | markStopped (thread sequence : ℕ) :
      Step s { s with manager := s.manager.markStopped thread sequence }
  | resetForExec : Step s { s with manager := s.manager.resetForExec }
  /-- The run goes on in the child. -/
  | forkFrom : Step s (.new s.manager.forkFrom)

def machine : Lib.Machine State where
  init s := s = .new .new
  step := Step

end Roanix.Proc.Signal
