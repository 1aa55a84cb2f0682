import Roanix.Lib.Machine

/-! The ring of kernel log records. Any thread appends or fetches; every load, every store and every
copy of one header field or one payload byte is a step of its own. -/
namespace Roanix.Sys.Klog
open Function

def packetMagic : ℕ := 0x474f4c4b

def packetVersion : ℕ := 1

def headerSize : ℕ := 40

def payloadCapacity : ℕ := 256

def ringSlots : ℕ := 512

def subsystemLimit : ℕ := 32

def fileLimit : ℕ := 48

def flagTruncated : ℕ := 1

structure RecordData where
  level : ℕ
  flags : ℕ
  timestampNs : ℕ
  cpu : ℕ
  line : ℕ
  thread : ℕ
  subsystem : List ℕ
  file : List ℕ
  message : List ℕ
deriving DecidableEq, Repr

inductive Field where
  | magic | length | level | version | sequence | timestampNs | cpu | line | thread
  | subsystemLen | fileLen | messageLen | flags | reserved
deriving DecidableEq, Repr

/-- The fields in the order in which they lie in memory. -/
def fields : List Field :=
  [.magic, .length, .level, .version, .sequence, .timestampNs, .cpu, .line, .thread, .subsystemLen,
    .fileLen, .messageLen, .flags, .reserved]

abbrev Header : Type := Field → ℕ

def Header.empty : Header
  | .magic => packetMagic
  | .length => headerSize
  | .version => packetVersion
  | _ => 0

/-- The walk of `clamp` back over continuation bytes. -/
def clampEnd (bytes : List ℕ) : ℕ → ℕ
  | 0 => 0
  | n + 1 => if bytes.getD (n + 1) 0 &&& 0xc0 = 0x80 then clampEnd bytes n else n + 1

def clamp (bytes : List ℕ) (limit : ℕ) : List ℕ :=
  if bytes.length ≤ limit then bytes else bytes.take (clampEnd bytes limit)

namespace RecordData

def storedSubsystem (r : RecordData) : List ℕ := clamp r.subsystem subsystemLimit

def storedFile (r : RecordData) : List ℕ := clamp r.file fileLimit

def storedMessage (r : RecordData) : List ℕ :=
  clamp r.message (payloadCapacity - r.storedSubsystem.length - r.storedFile.length)

def payload (r : RecordData) : List ℕ := r.storedSubsystem ++ r.storedFile ++ r.storedMessage

def header (r : RecordData) (sequence : ℕ) : Header
  | .length =>
    headerSize + r.storedSubsystem.length + r.storedFile.length + r.storedMessage.length
  | .level => r.level
  | .sequence => sequence
  | .timestampNs => r.timestampNs
  | .cpu => r.cpu
  | .line => r.line
  | .thread => r.thread
  | .subsystemLen => r.storedSubsystem.length
  | .fileLen => r.storedFile.length
  | .messageLen => r.storedMessage.length
  | .flags =>
    if r.storedMessage.length ≠ r.message.length then r.flags ||| flagTruncated else r.flags
  | f => Header.empty f

end RecordData

/-- What one copy of a slot moves. -/
inductive Cell where
  | field (f : Field)
  | byte (i : ℕ)
deriving DecidableEq, Repr

abbrev Cells : Type := Cell → ℕ

/-- The stores of `append`, in order. -/
def writes (r : RecordData) (sequence : ℕ) : List (Cell × ℕ) :=
  r.payload.zipIdx.map (fun (b, i) => (.byte i, b)) ++
    fields.map fun f => (.field f, r.header sequence f)

/-- The loads of `fetch` between its two loads of the state word. -/
def reads : List Cell := fields.map .field ++ (List.range payloadCapacity).map .byte

inductive Fetch where
  | ready (header : Header) (payload : List ℕ)
  | pending
  | lost (resume : ℕ)

/-- What `fetch` makes of the cells that it copied. -/
def deliver (cells : Cells) : Fetch :=
  let subsystemLen := min (cells (.field .subsystemLen)) payloadCapacity
  let fileLen := min (cells (.field .fileLen)) (payloadCapacity - subsystemLen)
  let messageLen :=
    min (cells (.field .messageLen)) (payloadCapacity - subsystemLen - fileLen)
  let payloadLen := subsystemLen + fileLen + messageLen
  let header : Header
    | .subsystemLen => subsystemLen
    | .fileLen => fileLen
    | .messageLen => messageLen
    | .length => headerSize + payloadLen
    | f => cells (.field f)
  .ready header ((List.range payloadLen).map fun i => cells (.byte i))

structure Slot where
  word : ℕ
  cells : Cells

/-- Where a thread is. A fetch remembers whether the append of its record had returned when it was
called; no code reads that. -/
inductive Place where
  | idle
  | reserve (sequence : ℕ) (record : RecordData)
  | write (sequence : ℕ) (record : RecordData) (todo : List (Cell × ℕ))
  | load (sequence : ℕ) (returned : Bool)
  | copy (sequence : ℕ) (returned : Bool) (before : ℕ) (todo : List Cell) (copied : Cells)
  | lose (sequence : ℕ) (returned : Bool)

def Place.appends : Place → Option ℕ
  | .reserve sequence _ | .write sequence _ _ => some sequence
  | _ => none

/-- A fetch that returned, with the next sequence at that moment. -/
structure Event where
  sequence : ℕ
  returned : Bool
  next : ℕ
  result : Fetch

/-- The ring, with two things that no code reads: for which record a sequence was last claimed, and
the sequences that `append` returned. -/
structure Ring where
  next : ℕ
  slots : ℕ → Slot
  records : ℕ → Option RecordData
  returned : List ℕ

structure State (ι : Type) where
  ring : Ring
  party : ι → Place
  fetched : List Event

def slotOf (sequence : ℕ) : ℕ := sequence % ringSlots

/-- `sequence << 1`. -/
def reservedWord (sequence : ℕ) : ℕ := sequence * 2 % 2 ^ 64

/-- `(sequence << 1) | COMMITTED`. -/
def committedWord (sequence : ℕ) : ℕ := reservedWord sequence + 1

namespace Ring

def new : Ring where
  next := 0
  slots _ := ⟨0, fun | .field f => Header.empty f | .byte _ => 0⟩
  records _ := none
  returned := []

def slot (r : Ring) (sequence : ℕ) : Slot := r.slots (slotOf sequence)

/-- `fetch_add` on the next sequence. -/
def claim (r : Ring) (record : RecordData) : Ring :=
  { r with
    next := (r.next + 1) % 2 ^ 64
    records := update r.records r.next (some record) }

def setSlot (r : Ring) (sequence : ℕ) (slot : Slot) : Ring :=
  { r with slots := update r.slots (slotOf sequence) slot }

/-- The store that retires the record before. -/
def reserve (r : Ring) (sequence : ℕ) : Ring :=
  r.setSlot sequence { r.slot sequence with word := reservedWord sequence }

def setCell (r : Ring) (sequence : ℕ) (c : Cell) (value : ℕ) : Ring :=
  r.setSlot sequence
    { r.slot sequence with cells := update (r.slot sequence).cells c value }

/-- The store that makes a record visible, after which `append` returns. -/
def publish (r : Ring) (sequence : ℕ) : Ring :=
  { r.setSlot sequence { r.slot sequence with word := committedWord sequence } with
    returned := sequence :: r.returned }

end Ring

variable {ι : Type} [DecidableEq ι]

namespace State

def new : State ι := ⟨.new, fun _ => .idle, []⟩

def move (s : State ι) (t : ι) (p : Place) : State ι :=
  { s with party := update s.party t p }

def finish (s : State ι) (t : ι) (sequence : ℕ) (returned : Bool) (result : Fetch) : State ι :=
  { s.move t .idle with fetched := s.fetched ++ [⟨sequence, returned, s.ring.next, result⟩] }

/-- What `fetch` does with the state word that it loaded first. -/
def load (s : State ι) (t : ι) (sequence : ℕ) (returned : Bool) : State ι :=
  let before := (s.ring.slot sequence).word
  if before = 0 then s.finish t sequence returned .pending
  else if before / 2 > sequence then s.move t (.lose sequence returned)
  else if before / 2 < sequence ∨ before % 2 = 0 then s.finish t sequence returned .pending
  else s.move t (.copy sequence returned before reads fun _ => 0)

/-- The second load of the state word and the end of `fetch`. -/
def validate (s : State ι) (t : ι) (sequence : ℕ) (returned : Bool) (before : ℕ) (copied : Cells) :
    State ι :=
  if (s.ring.slot sequence).word ≠ before then s.move t (.lose sequence returned)
  else s.finish t sequence returned (deliver copied)

end State

/-- The steps of a thread, which claims a sequence only where `ok` allows it. -/
inductive Step (ok : State ι → Prop) (s : State ι) (t : ι) : State ι → Prop
  | claim (record : RecordData) (hp : s.party t = .idle) (hok : ok s) :
      Step ok s t ({ s with ring := s.ring.claim record }.move t (.reserve s.ring.next record))
  | reserve {sequence : ℕ} {record : RecordData} (hp : s.party t = .reserve sequence record) :
      Step ok s t ({ s with ring := s.ring.reserve sequence }.move t
        (.write sequence record (writes record sequence)))
  | write {sequence : ℕ} {record : RecordData} {c : Cell} {value : ℕ} {todo : List (Cell × ℕ)}
      (hp : s.party t = .write sequence record ((c, value) :: todo)) :
      Step ok s t ({ s with ring := s.ring.setCell sequence c value }.move t
        (.write sequence record todo))
  | publish {sequence : ℕ} {record : RecordData} (hp : s.party t = .write sequence record []) :
      Step ok s t ({ s with ring := s.ring.publish sequence }.move t .idle)
  | call (sequence : ℕ) (hp : s.party t = .idle) (hword : sequence < 2 ^ 64) :
      Step ok s t (s.move t (.load sequence (sequence ∈ s.ring.returned)))
  | load {sequence : ℕ} {returned : Bool} (hp : s.party t = .load sequence returned) :
      Step ok s t (s.load t sequence returned)
  | copy {sequence before : ℕ} {returned : Bool} {c : Cell} {todo : List Cell} {copied : Cells}
      (hp : s.party t = .copy sequence returned before (c :: todo) copied) :
      Step ok s t (s.move t (.copy sequence returned before todo
        (update copied c ((s.ring.slot sequence).cells c))))
  | validate {sequence before : ℕ} {returned : Bool} {copied : Cells}
      (hp : s.party t = .copy sequence returned before [] copied) :
      Step ok s t (s.validate t sequence returned before copied)
  | lose {sequence : ℕ} {returned : Bool} (hp : s.party t = .lose sequence returned) :
      Step ok s t (s.finish t sequence returned (.lost (s.ring.next - ringSlots)))

/-- The ring under threads whose claims are made where `ok` allows them; the code itself has no such
condition. -/
def machine (ι : Type) [DecidableEq ι] (ok : State ι → Prop) : Lib.Machine (State ι) where
  init s := s = .new
  step s s' := ∃ t, Step ok s t s'

/-- The slot of the next sequence is not being written, and the sequence fits beside the flag of
the state word. -/
def Clear (s : State ι) : Prop :=
  (∀ t sequence, (s.party t).appends = some sequence → slotOf sequence ≠ slotOf s.ring.next) ∧
    s.ring.next + 1 < 2 ^ 63

end Roanix.Sys.Klog
