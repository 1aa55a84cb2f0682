import Roanix.Proc.Signal.Basic

/-! Delivery of pending signals on the way back to the user's code. Whether the frame of a handler
fits on the user's stack is a parameter, and while a thread is stopped other processes raise
signals. -/
namespace Roanix.Proc.Signal
open Lib SignalManager

def saNodefer : ℕ := 0x40000000

def saResethand : ℕ := 0x80000000

/-- What `deliver_pending` does about a signal it has taken. -/
inductive Disposition where
  | terminate
  | stop
  | skip
  | handle
deriving DecidableEq, Repr

/-- `Ok` with the frame as it was or set up for a handler, or `Err`. -/
inductive Outcome where
  | returned
  /-- The mask is the one that the frame keeps. -/
  | handler (address signal : ℕ) (oldMask : Mask)
  | terminate (signal : ℕ)
deriving DecidableEq, Repr

namespace SignalManager

def disposition (m : SignalManager) (signal : ℕ) : Disposition :=
  let handler := (m.actions signal).handler
  if signal = sigkill then .terminate
  else if signal = sigstop ∨ handler = sigDfl ∧ isStopSignal signal then .stop
  else if handler = sigIgn ∨ handler = sigDfl ∧ defaultIgnored signal then .skip
  else if handler = sigDfl then .terminate
  else .handle

/-- Nothing is left to deliver: the mask that a `sigsuspend` saved comes back. -/
def finish (m : SignalManager) : SignalManager :=
  match m.takeSuspendRestoreMask with
  | (some mask, m) => m.restoreMask mask
  | (none, m) => m

/-- The mask that the frame of a handler saves, and the state in which the handler runs. -/
def enterHandler (m : SignalManager) (signal : ℕ) : Mask × SignalManager :=
  let action := m.actions signal
  let (saved, taken) := m.takeSuspendRestoreMask
  let next := m.mask ||| action.mask |||
    if action.flags &&& saNodefer = 0 then signalBit signal else 0
  let entered := taken.restoreMask next
  (saved.getD m.mask,
    if action.flags &&& saResethand = 0 then entered else (entered.setAction signal .default).2)

end SignalManager

def Raises (m m' : SignalManager) : Prop := ∃ info, m' = (m.enqueue info).2

/-- The loop of `deliver_pending`. -/
inductive Delivers (frame : Bool) : SignalManager → Outcome → SignalManager → Prop
  | none {m m' : SignalManager} (h : m.takeDeliverable = (none, m')) :
      Delivers frame m .returned m'.finish
  | terminate {m m' : SignalManager} {info : SignalInfo} (h : m.takeDeliverable = (some info, m'))
      (hd : m'.disposition info.signal = .terminate) :
      Delivers frame m (.terminate info.signal) m'
  | stop {m m' woken m'' : SignalManager} {info : SignalInfo} {o : Outcome} (thread sequence : ℕ)
      (h : m.takeDeliverable = (some info, m')) (hd : m'.disposition info.signal = .stop)
      (hw : Relation.ReflTransGen Raises (m'.markStopped thread sequence) woken)
      (hl : Delivers frame woken o m'') : Delivers frame m o m''
  | skip {m m' m'' : SignalManager} {info : SignalInfo} {o : Outcome}
      (h : m.takeDeliverable = (some info, m')) (hd : m'.disposition info.signal = .skip)
      (hl : Delivers frame m' o m'') : Delivers frame m o m''
  | handle {m m' : SignalManager} {info : SignalInfo} (h : m.takeDeliverable = (some info, m'))
      (hd : m'.disposition info.signal = .handle) :
      Delivers frame m
        (if frame then
          .handler (m'.actions info.signal).handler info.signal (m'.enterHandler info.signal).1
          else .terminate sigsegv)
        (m'.enterHandler info.signal).2

inductive DeliverPending (frame : Bool) (m : SignalManager) : Outcome → SignalManager → Prop
  | idle (h : m.pendingWork = false) : DeliverPending frame m .returned m
  | deliver {o : Outcome} {m' : SignalManager} (h : m.pendingWork = true)
      (hl : Delivers frame m o m') : DeliverPending frame m o m'

variable {m m' : SignalManager} {info : SignalInfo}

def faultSignals : List ℕ := [sigill, sigtrap, sigbus, sigfpe, sigsegv]

theorem Raised.fault (h : Raised info) (hs : info.synchronous = true) :
    info.signal ∈ faultSignals := by
  cases h with
  | kill | killThread | sendKernel => cases hs
  | sendCurrentX86 vec =>
    simp only [x86Signal]
    split <;> decide
  | sendCurrentRiscv scause =>
    simp only [riscvSignal]
    split <;> decide

theorem fault_facts : ∀ signal ∈ faultSignals, signal ≠ sigcont ∧ signal ≠ sigkill ∧
    signal ≠ sigstop ∧ isStopSignal signal = false ∧ defaultIgnored signal = false := by
  decide

section
variable (hfault : info.signal ∈ faultSignals) (hign : (m.actions info.signal).handler ≠ sigIgn)
include hfault hign

theorem enqueue_fault (hnew : ∀ p ∈ m.pending, p.signal ≠ info.signal) :
    (m.enqueue info).2 =
      { m with pending := m.pending ++ [info], pendingWork := true, event := true } := by
  obtain ⟨hcont, hkill, -, hstop, -⟩ := fault_facts _ hfault
  have hkept : m.pending.filter (!cancels info ·) = m.pending := by
    simp [cancels, hcont, hkill, hstop]
  have hdup : m.duplicate info = none := by
    simpa [duplicate, hkept] using fun _ => hnew
  simp [enqueue, ignores, hkept, hdup, hign, hcont, hkill]

theorem disposition_fault :
    m.disposition info.signal = .terminate ∨ m.disposition info.signal = .handle := by
  obtain ⟨-, hkill, hstop, hstops, hdefault⟩ := fault_facts _ hfault
  by_cases hdfl : (m.actions info.signal).handler = sigDfl
  · rw [hdfl] at hign
    simp [disposition, hkill, hstop, hstops, hdefault, hign, hdfl]
  · simp [disposition, hkill, hstop, hign, hdfl]

end

/-! The masks of nested handlers. A handler is entered on the way back to the user's code and returns
through its frame; the user's code may wait in `sigsuspend`, at the top or inside a handler. -/
def Within (a b : Mask) : Prop := a &&& b = a

section
variable {a b c : Mask}

theorem within_and (a b : Mask) : Within (a &&& b) b := by
  unfold Within
  rw [BitVec.and_assoc, BitVec.and_self]

theorem within_left (a b : Mask) : Within a (a ||| b) := by
  unfold Within
  grind

theorem within_right (a b : Mask) : Within b (a ||| b) := by
  rw [BitVec.or_comm]
  exact within_left b a

theorem Within.and (hb : Within a b) (hc : Within a c) : Within a (b &&& c) := by
  unfold Within at *
  rw [← BitVec.and_assoc, hb, hc]

theorem Within.trans (hab : Within a b) (hbc : Within b c) : Within a c := by
  unfold Within at *
  rw [← hab, BitVec.and_assoc, hbc]

theorem within_signalBit {signal : ℕ} (hkill : signal ≠ sigkill) (hstop : signal ≠ sigstop) :
    Within (signalBit signal) (~~~unblockableMask) := by
  obtain hlow | hhigh := Nat.lt_or_ge signal 65
  · have hall : ∀ n < 65, n ≠ sigkill → n ≠ sigstop →
        signalBit n &&& ~~~unblockableMask = signalBit n := by decide
    exact hall signal hlow hkill hstop
  · unfold Within signalBit
    rw [BitVec.shiftLeft_eq_zero (by omega), BitVec.zero_and]

end

/-- The frame of a handler that has not returned. -/
structure Frame where
  signal : ℕ
  action : SignalAction
  oldMask : Mask
  /-- The mask before the entry, or before the `sigsuspend` that the entry ended. -/
  before : Mask
  woken : Bool

structure Thread where
  manager : SignalManager
  /-- The innermost one comes first. -/
  frames : List Frame
  /-- The mask before the `sigsuspend` in which the thread is. -/
  suspended : Option Mask

/-- What the action of a handler wants blocked is. -/
def Frame.BlockedBy (f : Frame) (mask : Mask) : Prop :=
  Within f.action.mask mask ∧
    (f.action.flags &&& saNodefer = 0 → Within (signalBit f.signal) mask)

/-- The handlers entered since the last `sigsuspend` ended in one. -/
def running : List Frame → List Frame
  | [] => []
  | f :: frames => f :: if f.woken then [] else running frames

namespace Thread
variable {m m' m₀ : SignalManager} {s s' : Thread} {frame : Bool} {o : Outcome} {signal : ℕ}

/-- The mask of the user's code, which a `sigsuspend` puts aside. -/
def base (s : Thread) : Mask := s.suspended.getD s.manager.mask

inductive Step (s : Thread) : Thread → Prop
  | raise {info : SignalInfo} (h : Raised info) :
      Step s { s with manager := (s.manager.enqueue info).2 }
  /-- `read_user_action` takes the two signals out of the mask. -/
  | setAction (signal : ℕ) (action : SignalAction) (hs : s.suspended = none)
      (hsignal : signal ≠ sigkill ∧ signal ≠ sigstop) :
      Step s { s with manager := (s.manager.setAction signal
        { action with mask := action.mask &&& ~~~unblockableMask }).2 }
  | suspend (mask : Mask) (hs : s.suspended = none) :
      Step s { s with manager := s.manager.beginSuspend mask, suspended := some s.manager.mask }
  | wait : Step s { s with manager := s.manager.prepareInterruptWait.2 }
  | resume {frame : Bool} {m : SignalManager} (h : DeliverPending frame s.manager .returned m) :
      Step s { s with manager := m, suspended := none }
  | enter {m : SignalManager} {address signal : ℕ} {oldMask : Mask}
      (h : DeliverPending true s.manager (.handler address signal oldMask) m) :
      Step s
        { manager := m
          frames := ⟨signal, s.manager.actions signal, oldMask, s.base, s.suspended.isSome⟩ :: s.frames
          suspended := none }
  | leave {f : Frame} {frames : List Frame} (hs : s.suspended = none) (hf : s.frames = f :: frames) :
      Step s { s with manager := s.manager.restoreMask f.oldMask, frames := frames }

def machine : Machine Thread where
  init s := Within s.manager.mask (~~~unblockableMask) ∧
    (∀ signal, Within (s.manager.actions signal).mask (~~~unblockableMask)) ∧
    s.manager.suspendRestoreMask = none ∧ s.frames = [] ∧ s.suspended = none
  step := Step

theorem enterHandler_spec (m : SignalManager) (signal : ℕ) :
    (m.enterHandler signal).2.mask = (m.mask ||| (m.actions signal).mask |||
      if (m.actions signal).flags &&& saNodefer = 0 then signalBit signal else 0) &&&
        ~~~unblockableMask ∧
    (m.enterHandler signal).2.suspendRestoreMask = none ∧
    ∀ other, (m.enterHandler signal).2.actions other = m.actions other ∨
      (m.enterHandler signal).2.actions other = .default := by
  by_cases hreset : (m.actions signal).flags &&& saResethand = 0
  · simp only [enterHandler, if_pos hreset]
    exact ⟨rfl, rfl, fun other => .inl rfl⟩
  · simp only [enterHandler, if_neg hreset]
    refine ⟨rfl, rfl, fun other => ?_⟩
    by_cases hother : other = signal
    · exact .inr (by simp [setAction, hother])
    · exact .inl (Function.update_of_ne hother _ _)

/-- What each frame keeps, under the mask in which its handler runs. -/
def Nested : Mask → List Frame → Prop
  | _, [] => True
  | mask, f :: frames => f.BlockedBy mask ∧ f.oldMask = f.before ∧
      Within f.before (~~~unblockableMask) ∧ (f.woken = false → Within f.before mask) ∧
      Nested f.before frames

theorem Nested.running {mask : Mask} {frames : List Frame} (h : Nested mask frames) :
    ∀ f ∈ running frames, f.BlockedBy mask := by
  induction frames generalizing mask with
  | nil => simp [Signal.running]
  | cons g frames ih =>
    obtain ⟨hblocked, -, -, hwithin, hrest⟩ := h
    intro f hf
    obtain rfl | hf := List.mem_cons.mp hf
    · exact hblocked
    · cases hw : g.woken with
      | true => simp [hw] at hf
      | false =>
        have hf := ih hrest f (by simpa [hw] using hf)
        exact ⟨hf.1.trans (hwithin hw), fun hd => (hf.2 hd).trans (hwithin hw)⟩

structure SameMasks (m m' : SignalManager) : Prop where
  mask : m'.mask = m.mask
  actions : m'.actions = m.actions
  slot : m'.suspendRestoreMask = m.suspendRestoreMask

theorem SameMasks.trans (h : SameMasks m m') (h' : SameMasks m' m₀) : SameMasks m m₀ :=
  ⟨h'.mask.trans h.mask, h'.actions.trans h.actions, h'.slot.trans h.slot⟩

theorem sameMasks_enqueue (m : SignalManager) (info : SignalInfo) :
    SameMasks m (m.enqueue info).2 := by
  unfold enqueue
  split_ifs <;> exact ⟨rfl, rfl, rfl⟩

theorem sameMasks_raises (h : Relation.ReflTransGen Raises m m') : SameMasks m m' := by
  induction h with
  | refl => exact ⟨rfl, rfl, rfl⟩
  | tail _ hr ih =>
    obtain ⟨info, rfl⟩ := hr
    exact ih.trans (sameMasks_enqueue _ info)

theorem sameMasks_take {o : Option SignalInfo} (h : m.takeDeliverable = (o, m')) :
    SameMasks m m' := by
  unfold takeDeliverable take at h
  cases hfind : m.pending.find? (deliverable m.mask) <;> rw [hfind] at h <;> cases h <;>
    exact ⟨rfl, rfl, rfl⟩

def Ends (m₀ : SignalManager) (o : Outcome) (m' : SignalManager) : Prop :=
  match o with
  | .returned => m' = m₀.finish
  | .handler _ signal oldMask => signal ≠ sigkill ∧ signal ≠ sigstop ∧
      m₀.enterHandler signal = (oldMask, m')
  | .terminate _ => True

theorem Delivers.ends (h : Delivers frame m o m') : ∃ m₀, SameMasks m m₀ ∧ Ends m₀ o m' := by
  induction h with
  | none h => exact ⟨_, sameMasks_take h, rfl⟩
  | terminate h => exact ⟨_, sameMasks_take h, trivial⟩
  | @stop _ taken _ _ _ _ thread sequence h _ hw _ ih =>
    obtain ⟨m₀, hsame, hends⟩ := ih
    have hmark : SameMasks taken (taken.markStopped thread sequence) := ⟨rfl, rfl, rfl⟩
    exact ⟨m₀, (((sameMasks_take h).trans hmark).trans (sameMasks_raises hw)).trans hsame, hends⟩
  | skip h _ _ ih =>
    obtain ⟨m₀, hsame, hends⟩ := ih
    exact ⟨m₀, (sameMasks_take h).trans hsame, hends⟩
  | handle h hd =>
    refine ⟨_, sameMasks_take h, ?_⟩
    cases frame with
    | true =>
      refine ⟨?_, ?_, rfl⟩ <;> intro hs <;> simp [disposition, hs, sigkill, sigstop] at hd
    | false => trivial

structure Inv (s : Thread) : Prop where
  slot : s.manager.suspendRestoreMask = s.suspended
  work : s.suspended ≠ none → s.manager.pendingWork = true
  mask : Within s.manager.mask (~~~unblockableMask)
  base : Within s.base (~~~unblockableMask)
  actions : ∀ signal, Within (s.manager.actions signal).mask (~~~unblockableMask)
  frames : Nested s.base s.frames

section
variable (h : Inv s)
include h

theorem Inv.same (hm : SameMasks s.manager m) (hw : s.manager.pendingWork = true → m.pendingWork = true) :
    Inv { s with manager := m } := by
  have hbase : Thread.base { s with manager := m } = s.base := by
    simp [Thread.base, hm.mask]
  exact
    { slot := hm.slot.trans h.slot
      work := fun hs => hw (h.work hs)
      mask := hm.mask ▸ h.mask
      base := hbase ▸ h.base
      actions := hm.actions ▸ h.actions
      frames := hbase ▸ h.frames }

theorem Inv.resumed (hd : DeliverPending frame s.manager .returned m) :
    m.mask = s.base ∧ m.actions = s.manager.actions ∧ m.suspendRestoreMask = none := by
  cases hd with
  | idle hw =>
    have hs : s.suspended = none := by
      by_contra hs
      rw [h.work hs] at hw
      cases hw
    exact ⟨by simp [Thread.base, hs], rfl, h.slot.trans hs⟩
  | deliver _ hl =>
    obtain ⟨m₀, hsame, rfl⟩ := Delivers.ends hl
    have hslot : m₀.suspendRestoreMask = s.suspended := hsame.slot.trans h.slot
    unfold finish takeSuspendRestoreMask
    rw [hslot]
    have hclean := h.base
    unfold Thread.base at hclean ⊢
    cases hs : s.suspended with
    | none => exact ⟨hsame.mask, hsame.actions, rfl⟩
    | some before =>
      rw [hs] at hclean
      exact ⟨hclean, hsame.actions, rfl⟩

theorem Inv.entered {address : ℕ} {oldMask : Mask}
    (hd : DeliverPending true s.manager (.handler address signal oldMask) m) :
    oldMask = s.base ∧ m.suspendRestoreMask = none ∧
      (∀ signal, Within (m.actions signal).mask (~~~unblockableMask)) ∧
      Within m.mask (~~~unblockableMask) ∧
      Within (s.manager.actions signal).mask m.mask ∧
      ((s.manager.actions signal).flags &&& saNodefer = 0 → Within (signalBit signal) m.mask) ∧
      Within s.manager.mask m.mask := by
  cases hd with
  | deliver _ hl =>
    obtain ⟨m₀, hsame, hkill, hstop, henter⟩ := Delivers.ends hl
    have hold : (m₀.enterHandler signal).1 = s.base := by
      simp [enterHandler, takeSuspendRestoreMask, hsame.slot, h.slot,
        hsame.mask, Thread.base]
    obtain ⟨hmask, hslot, hactions⟩ := enterHandler_spec m₀ signal
    simp only [henter, hsame.mask, hsame.actions] at hold hmask hslot hactions
    rw [hmask]
    refine ⟨hold, hslot, fun other => ?_, within_and _ _, ?_, fun hd => ?_, ?_⟩
    · obtain ha | ha := hactions other
      · exact ha ▸ h.actions other
      · rw [ha]
        exact BitVec.zero_and
    · exact ((within_right _ _).trans (within_left _ _)).and (h.actions signal)
    · rw [if_pos hd]
      exact (within_right _ _).and (within_signalBit hkill hstop)
    · exact ((within_left _ _).trans (within_left _ _)).and h.mask

theorem Inv.step (hstep : Step s s') : Inv s' := by
  cases hstep with
  | @raise info =>
    refine h.same (sameMasks_enqueue _ _) fun hw => ?_
    unfold enqueue
    by_cases hdrop : s.manager.ignores info || (s.manager.duplicate info).isSome
    · rw [if_pos hdrop]
      exact hw
    · rw [if_neg hdrop]
  | setAction signal action hs =>
    refine { h with actions := fun other => ?_ }
    simp only [setAction, Function.update_apply]
    split_ifs
    · exact within_and _ _
    · exact h.actions other
  | suspend mask hs =>
    have hbase : s.base = s.manager.mask := by simp [Thread.base, hs]
    refine ⟨?_, fun _ => rfl, within_and _ _, h.mask, h.actions, hbase ▸ h.frames⟩
    simp [beginSuspend, h.slot, hs]
  | wait =>
    unfold prepareInterruptWait
    split_ifs
    · exact h
    · exact h.same ⟨rfl, rfl, rfl⟩ id
  | @resume _ m hd =>
    obtain ⟨hmask, hactions, hslot⟩ := h.resumed hd
    have hbase : Thread.base { s with manager := m, suspended := none } = s.base := hmask
    exact ⟨hslot, fun hs => absurd rfl hs, hmask ▸ h.base, hbase ▸ h.base, hactions ▸ h.actions,
      hbase ▸ h.frames⟩
  | enter hd =>
    obtain ⟨hold, hslot, hactions, hclean, hmask, hsignal, hwithin⟩ := h.entered hd
    refine ⟨hslot, fun hs => absurd rfl hs, hclean, hclean, hactions, ⟨hmask, hsignal⟩, hold, h.base,
      fun hw => ?_, h.frames⟩
    have hs : s.suspended = none := by simpa using hw
    simpa [Thread.base, hs] using hwithin
  | @leave f frames hs hf =>
    have hframes := h.frames
    rw [hf] at hframes
    obtain ⟨-, hold, hclean, -, hrest⟩ := hframes
    have hmask : (s.manager.restoreMask f.oldMask).mask = f.before := by
      rw [hold]
      exact hclean
    have hbase : Thread.base { s with manager := s.manager.restoreMask f.oldMask, frames } = f.before := by
      simp [Thread.base, hs, hmask]
    exact ⟨h.slot, h.work, hmask ▸ hclean, hbase ▸ hclean, h.actions, hbase ▸ hrest⟩

end

/-- A return from a handler, or the end of a `sigsuspend` without one, brings back the mask before its
entry, or before the `sigsuspend` that the entry ended. A handler runs with its action's mask and,
without `SA_NODEFER`, its signal blocked. -/
theorem mask_restored (h : machine.Reachable s) :
    (∀ f frames, s.frames = f :: frames → (s.manager.restoreMask f.oldMask).mask = f.before) ∧
    (∀ before frame m, s.suspended = some before → DeliverPending frame s.manager .returned m →
      m.mask = before) ∧
    (s.suspended = none → ∀ f ∈ running s.frames, f.BlockedBy s.manager.mask) ∧
    Within s.manager.mask (~~~unblockableMask) := by
  have hinv : Inv s := by
    refine h.invariant ?_ fun s s' hs hstep => hs.step hstep
    rintro s ⟨hmask, hactions, hslot, hframes, hs⟩
    have hbase : s.base = s.manager.mask := by simp [Thread.base, hs]
    exact ⟨hslot.trans hs.symm, fun hne => absurd hs hne, hmask, hbase ▸ hmask, hactions,
      hframes ▸ trivial⟩
  refine ⟨fun f frames hf => ?_, fun before frame m hs hd => ?_, fun hs => ?_, hinv.mask⟩
  · have hframes := hinv.frames
    rw [hf] at hframes
    obtain ⟨-, hold, hclean, -⟩ := hframes
    rw [hold]
    exact hclean
  · rw [(hinv.resumed hd).1, Thread.base, hs]
    rfl
  · have hframes := hinv.frames.running
    simpa [Thread.base, hs] using hframes

theorem mask_restored_example : ∃ s : Thread, machine.Reachable s ∧ s.manager.mask = 2 ∧
    ∃ f, s.frames = [f] ∧ f.before = 4 ∧ (s.manager.restoreMask f.oldMask).mask = 4 := by
  have h : machine.Reachable ⟨{ new with mask := 4 }, [], none⟩ :=
    .init ⟨rfl, fun _ => BitVec.zero_and, rfl, rfl, rfl⟩
  have hraised : Raised ⟨2, 0, 7, 0, false, 0⟩ := .kill 7 0 (by decide)
  have h := h.step (.setAction 2 ⟨4096, 0, 0, 0⟩ rfl (by decide))
  have h := (h.step (.suspend 0 rfl)).step (.raise hraised)
  have h := h.step (.enter (.deliver rfl (.handle rfl rfl)))
  exact ⟨_, h, rfl, _, rfl, rfl, (mask_restored h).1 _ _ rfl⟩

end Thread
end Roanix.Proc.Signal
