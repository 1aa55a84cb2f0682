import Roanix.Lib.Act
import Roanix.Lib.Index
import Roanix.Mem.Io

/-! Filesystem notification descriptors. The operations on one open-file description run under its
state lock, so each is one step; a read that finds nothing may sleep and then starts over. -/
namespace Roanix.Proc.InotifyM
open Lib Lib.Act
open Mem.Io

def inAccess : UInt32 := 0x00000001
def inModify : UInt32 := 0x00000002
def inAttrib : UInt32 := 0x00000004
def inCloseWrite : UInt32 := 0x00000008
def inCloseNowrite : UInt32 := 0x00000010
def inOpen : UInt32 := 0x00000020
def inMovedFrom : UInt32 := 0x00000040
def inMovedTo : UInt32 := 0x00000080
def inCreate : UInt32 := 0x00000100
def inDelete : UInt32 := 0x00000200
def inDeleteSelf : UInt32 := 0x00000400
def inMoveSelf : UInt32 := 0x00000800
def inQOverflow : UInt32 := 0x00004000
def inIgnored : UInt32 := 0x00008000
def inOnlydir : UInt32 := 0x01000000
def inDontFollow : UInt32 := 0x02000000
def inExclUnlink : UInt32 := 0x04000000
def inMaskAdd : UInt32 := 0x20000000
def inOneshot : UInt32 := 0x80000000

def inAllEvents : UInt32 :=
  inAccess ||| inModify ||| inAttrib ||| inCloseWrite ||| inCloseNowrite ||| inOpen |||
    inMovedFrom ||| inMovedTo ||| inCreate ||| inDelete ||| inDeleteSelf ||| inMoveSelf

def inControlFlags : UInt32 :=
  inOnlydir ||| inDontFollow ||| inExclUnlink ||| inMaskAdd ||| inOneshot

def eventHeaderSize : ℕ := 16

def maxQueueBytes : ℕ := 1024 * 1024

inductive Errno where
  | invalid
  | overflow
  | fault
  | tryAgain
deriving DecidableEq, Repr

inductive Panic where
  | keyIndexLostWatch
deriving DecidableEq, Repr

/-- `AtomicI32::fetch_add` by one, which wraps. -/
def fetchAdd (n : ℤ) : ℤ := if n = 2 ^ 31 - 1 then -2 ^ 31 else n + 1

structure Watch (κ : Type) where
  key : κ
  mask : UInt32
deriving DecidableEq, Repr

abbrev Record := List UInt8

/-- `Inotify` with its locked state. -/
structure Inotify (κ : Type) [LinearOrder κ] where
  watches : Index ℤ (Watch κ)
  byKey : Index κ ℤ
  queue : List Record
  queuedBytes : ℕ
  overflowed : Bool
  nextWatch : ℤ
  nonblocking : Bool

abbrev Call (κ : Type) [LinearOrder κ] := Act Errno Panic (Inotify κ)

variable {κ : Type} [LinearOrder κ]

def Inotify.new (nonblocking : Bool) : Inotify κ := ⟨.empty, .empty, [], 0, false, 1, nonblocking⟩

/-- `u32::to_ne_bytes` on a little-endian machine. -/
def toNeBytes (x : UInt32) : List UInt8 :=
  [UInt8.ofNat x.toNat, UInt8.ofNat (x.toNat / 2 ^ 8), UInt8.ofNat (x.toNat / 2 ^ 16),
    UInt8.ofNat (x.toNat / 2 ^ 24)]

/-- `u32::from_ne_bytes`; the source's slice always has four bytes. -/
def fromNeBytes : List UInt8 → UInt32
  | [a, b, c, d] =>
    UInt32.ofNat (a.toNat + 2 ^ 8 * b.toNat + 2 ^ 16 * c.toNat + 2 ^ 24 * d.toNat)
  | _ => 0

/-- The name with its terminator, rounded up to four bytes. A name is a slice, so no sum here can
leave 64 bits. -/
def paddedNameLength (name : Option (List UInt8)) : ℕ :=
  ((name.elim 0 fun name => name.length + 1) + 3) / 4 * 4

def encodeRecord (wd : ℤ) (mask cookie : UInt32) (name : Option (List UInt8)) : Record :=
  toNeBytes (UInt32.ofInt wd) ++ toNeBytes mask ++ toNeBytes cookie ++
    toNeBytes (UInt32.ofNat (paddedNameLength name)) ++ name.getD [] ++
    List.replicate (paddedNameLength name - (name.getD []).length) 0

def eventMask (record : Record) : UInt32 := fromNeBytes ((record.drop 4).take 4)

/-- `encode_record(-1, IN_Q_OVERFLOW, 0, None)`. -/
def overflowRecord : Record := encodeRecord (-1) inQOverflow 0 none

def validateMask (mask : UInt32) : Call κ Unit :=
  ensure (¬ (mask &&& inAllEvents = 0 ∨ mask &&& ~~~(inAllEvents ||| inControlFlags) ≠ 0)) .invalid

def queueRecord (wd : ℤ) (mask cookie : UInt32) (name : Option (List UInt8))
    (s : Inotify κ) : Inotify κ :=
  if s.queuedBytes + (eventHeaderSize + paddedNameLength name) > maxQueueBytes then
    if s.overflowed then s
    else
      { s with
        overflowed := true
        queuedBytes := s.queuedBytes + overflowRecord.length
        queue := s.queue ++ [overflowRecord] }
  else
    { s with
      queuedBytes := s.queuedBytes + (encodeRecord wd mask cookie name).length
      queue := s.queue ++ [encodeRecord wd mask cookie name] }

def updatedMask (old mask : UInt32) : UInt32 :=
  if mask &&& inMaskAdd ≠ 0 then old ||| (mask &&& ~~~inMaskAdd) else mask

/-- The watch behind a descriptor of the key index. -/
def indexedWatch (wd : ℤ) : Call κ (Watch κ) := fun s =>
  match s.watches.get wd with
  | some watch => .ok watch s
  | none => .panic .keyIndexLostWatch

def updateWatch (wd : ℤ) (mask : UInt32) : Call κ ℤ := do
  let watch ← indexedWatch wd
  modify fun s => { s with watches := s.watches.insert wd ⟨watch.key, updatedMask watch.mask mask⟩ }
  pure wd

def createWatch (key : κ) (mask : UInt32) : Call κ ℤ := do
  let s ← get
  let wd := s.nextWatch
  set { s with nextWatch := fetchAdd wd }
  ensure (0 < wd) .overflow
  modify fun s =>
    { s with
      watches := s.watches.insert wd ⟨key, mask &&& ~~~inMaskAdd⟩
      byKey := s.byKey.insert key wd }
  pure wd

def addWatch (key : κ) (mask : UInt32) : Call κ ℤ := do
  validateMask mask
  let s ← get
  match s.byKey.get key with
  | some wd => updateWatch wd mask
  | none => createWatch key mask

/-- Take a watch out of both indexes and say so in the queue. -/
def dropWatch (wd : ℤ) (key : κ) (s : Inotify κ) : Inotify κ :=
  queueRecord wd inIgnored 0 none
    { s with watches := s.watches.remove wd, byKey := s.byKey.remove key }

def removeWatch (wd : ℤ) : Call κ Unit := do
  let s ← get
  let watch ← okOr (s.watches.get wd) .invalid
  set (dropWatch wd watch.key s)

/-- Whether an event ends the watch that it is reported to. -/
def ends (watchMask mask : UInt32) : Prop := watchMask &&& inOneshot ≠ 0 ∨ mask &&& inDeleteSelf ≠ 0

instance (watchMask mask : UInt32) : Decidable (ends watchMask mask) :=
  inferInstanceAs (Decidable (_ ∨ _))

/-- What `queue_for_key` does once it has a watch. -/
def report (wd : ℤ) (watch : Watch κ) (key : κ) (mask cookie : UInt32)
    (name : Option (List UInt8)) (s : Inotify κ) : Inotify κ :=
  if watch.mask &&& mask &&& inAllEvents = 0 then s
  else if ends watch.mask mask then dropWatch wd key (queueRecord wd mask cookie name s)
  else queueRecord wd mask cookie name s

def queueForKey (key : κ) (mask cookie : UInt32) (name : Option (List UInt8)) :
    Call κ Unit := do
  let s ← get
  match s.byKey.get key with
  | none => pure ()
  | some wd =>
    let watch ← indexedWatch wd
    modify (report wd watch key mask cookie name)

def popFront (record : Record) (rest : List Record) (s : Inotify κ) : Inotify κ :=
  { s with
    queue := rest
    queuedBytes := s.queuedBytes - record.length
    overflowed := if eventMask record &&& inQOverflow ≠ 0 then false else s.overflowed }

/-- The copying loop of `read`, over the records of the queue; the first component tells whether a
copy failed. -/
def deliver : List Record → ℕ → IoSink → Inotify κ → Bool × ℕ × IoSink × Inotify κ
  | [], written, sink, s => (false, written, sink, s)
  | record :: rest, written, sink, s =>
    if written + record.length > sink.len then (false, written, sink, s)
    else
      match sink.store written record with
      | (false, sink) => (true, written, sink, s)
      | (true, sink) => deliver rest (written + record.length) sink (popFront record rest s)

inductive ReadResult where
  | done (written : ℕ)
  | failed (error : Errno)
  | sleeps
deriving DecidableEq, Repr

def read (sink : IoSink) (s : Inotify κ) : ReadResult × IoSink × Inotify κ :=
  match s.queue with
  | [] => (if s.nonblocking then .failed .tryAgain else .sleeps, sink, s)
  | first :: rest =>
    if first.length > sink.len then (.failed .invalid, sink, s)
    else
      let (faulted, written, sink, s) := deliver (first :: rest) 0 sink s
      if faulted ∧ written = 0 then (.failed .fault, sink, s) else (.done written, sink, s)

end Roanix.Proc.InotifyM
