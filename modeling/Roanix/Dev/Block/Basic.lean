import Roanix.Lib.Word
import Roanix.Mem.Addr
import Roanix.Mem.Io

/-! The block layer: byte ranges over a backend that transfers whole blocks. The backend is an array
of blocks that may refuse any call, and a write that it refuses may have reached some of its
blocks. -/
namespace Roanix.Dev.Block
open Lib (Act slice splice)
open Lib.Act
open Mem (IsPowerOfTwo)
open Mem.Io

def ioBatchBytes : ℕ := 128 * 1024

def maxLogicalBlockSize : ℕ := 1024 * 1024

/-- What `register_module` accepts. -/
structure Accepted (logicalBlockSize maxTransferBlocks blockCount : ℕ) : Prop where
  min_size : 512 ≤ logicalBlockSize
  power : IsPowerOfTwo logicalBlockSize
  max_size : logicalBlockSize ≤ maxLogicalBlockSize
  count_pos : blockCount ≠ 0
  size_lt : blockCount * logicalBlockSize < 2 ^ 64
  transfer_lt : maxTransferBlocks < 2 ^ 32

structure BlockDevice where
  logicalBlockSize : ℕ
  maxTransferBlocks : ℕ
  blockCount : ℕ
  accepted : Accepted logicalBlockSize maxTransferBlocks blockCount

inductive Error where
  | invalidArgument
  | noSpace
  | outOfMemory
  | backend
deriving DecidableEq, Repr

inductive FsError where
  | io
  | invalidArgument
  | driver (e : Error)
deriving DecidableEq, Repr

inductive Panic where
  | overflow
  | bounds
deriving DecidableEq, Repr

structure Call where
  lba : ℕ
  blocks : ℕ
  length : ℕ
  failed : Bool
deriving DecidableEq, Repr

/-- The contents behind a device, and what it was asked for so far. -/
structure Disk where
  bytes : List UInt8
  calls : List Call
  refused : ℕ
  turn : ℕ
deriving DecidableEq, Repr

/-- What the surroundings do, by turn: a backend call fails, with the blocks that a write reached all
the same; an allocation fails. -/
structure Env where
  device : BlockDevice
  fails : ℕ → Option (ℕ → Bool)
  refuses : ℕ → Bool

abbrev BlockM : Type → Type := Act Error Panic Disk

/-- The bytes after a write of which only some blocks arrived. -/
def reached (bytes : List UInt8) (blockSize start : ℕ) (buffer : List UInt8) (hits : ℕ → Bool) :
    List UInt8 :=
  bytes.mapIdx fun i old =>
    if start ≤ i ∧ hits ((i - start) / blockSize) then buffer.getD (i - start) old else old

namespace BlockDevice

def sizeBytes (b : BlockDevice) : ℕ := min (b.blockCount * b.logicalBlockSize) Roanix.Mem.u64Max

def limit (b : BlockDevice) : ℕ :=
  if b.maxTransferBlocks = 0 then 2 ^ 32 - 1 else b.maxTransferBlocks

end BlockDevice

variable (env : Env)

def backendRead (lba blocks length : ℕ) : BlockM (List UInt8) := fun d =>
  let log := fun failed =>
    { d with calls := d.calls ++ [⟨lba, blocks, length, failed⟩], turn := d.turn + 1 }
  match env.fails d.turn with
  | none => .ok (slice d.bytes (lba * env.device.logicalBlockSize) length) (log false)
  | some _ => .err .backend (log true)

def backendWrite (lba blocks : ℕ) (buffer : List UInt8) : BlockM Unit := fun d =>
  let start := lba * env.device.logicalBlockSize
  let log := fun failed bytes =>
    { d with
      bytes
      calls := d.calls ++ [⟨lba, blocks, buffer.length, failed⟩]
      turn := d.turn + 1 }
  match env.fails d.turn with
  | none => .ok () (log false (splice d.bytes start buffer))
  | some hits => .err .backend
      (log true (reached d.bytes env.device.logicalBlockSize start buffer hits))

/-- `block_buffer`; what it holds is zero and is overwritten before use. -/
def blockBuffer : BlockM Unit := fun d =>
  if env.refuses d.turn then .err .outOfMemory { d with refused := d.refused + 1, turn := d.turn + 1 }
  else .ok () { d with turn := d.turn + 1 }

def checkTransfer (lba blocks length : ℕ) : BlockM Unit :=
  if blocks = 0 then if length = 0 then pure () else fail .invalidArgument
  else
    match Roanix.Mem.checkedAdd lba blocks with
    | none => fail .invalidArgument
    | some end' => do
      let expected ← mul 64 .overflow blocks env.device.logicalBlockSize
      if end' > env.device.blockCount ∨ length ≠ expected then fail .invalidArgument else pure ()

/-- `transfer_chunks` of `read_blocks`. The fuel is the number of blocks left. -/
def readChunks (length : ℕ) : ℕ → ℕ → ℕ → ℕ → BlockM (List UInt8)
  | 0, _, _, _ => pure []
  | fuel + 1, lba, blocks, offset =>
    if blocks = 0 then pure []
    else do
      let count := min blocks env.device.limit
      let bytes ← mul 64 .overflow count env.device.logicalBlockSize
      let stop ← add 64 .overflow offset bytes
      check (stop ≤ length) .bounds
      let data ← backendRead env lba count bytes
      let lba ← add 64 .overflow lba count
      let rest ← readChunks length fuel lba (blocks - count) stop
      pure (data ++ rest)

def readBlocks (lba blocks length : ℕ) : BlockM (List UInt8) := do
  checkTransfer env lba blocks length
  readChunks env length blocks lba blocks 0

def writeChunks (buffer : List UInt8) : ℕ → ℕ → ℕ → ℕ → BlockM Unit
  | 0, _, _, _ => pure ()
  | fuel + 1, lba, blocks, offset =>
    if blocks = 0 then pure ()
    else do
      let count := min blocks env.device.limit
      let bytes ← mul 64 .overflow count env.device.logicalBlockSize
      let stop ← add 64 .overflow offset bytes
      check (stop ≤ buffer.length) .bounds
      backendWrite env lba count (slice buffer offset bytes)
      let lba ← add 64 .overflow lba count
      writeChunks buffer fuel lba (blocks - count) stop

def writeBlocks (lba blocks : ℕ) (buffer : List UInt8) : BlockM Unit := do
  checkTransfer env lba blocks buffer.length
  writeChunks env buffer blocks lba blocks 0

def asU32 (n : ℕ) : ℕ := n % 2 ^ 32

/-- The bytes of a block in whose middle a range starts, and the block after it. -/
def readHead (first leading length : ℕ) : BlockM (List UInt8 × ℕ) :=
  if leading ≠ 0 then do
    let bs := env.device.logicalBlockSize
    let bounce ← readBlocks env first 1 bs
    let take := min length (bs - leading)
    check (leading + take ≤ bounce.length) .bounds
    let lba ← add 64 .overflow first 1
    pure (slice bounce leading take, lba)
  else pure ([], first)

def readBody (lba middle : ℕ) : BlockM (List UInt8 × ℕ) :=
  if middle ≠ 0 then do
    let blocks := middle / env.device.logicalBlockSize
    let body ← readBlocks env lba (asU32 blocks) middle
    let lba ← add 64 .overflow lba blocks
    pure (body, lba)
  else pure ([], lba)

/-- The bytes of a block in whose middle a range ends. -/
def readTail (lba tail : ℕ) : BlockM (List UInt8) :=
  if tail ≠ 0 then do
    let bounce ← readBlocks env lba 1 env.device.logicalBlockSize
    check (tail ≤ bounce.length) .bounds
    pure (bounce.take tail)
  else pure []

/-- `read_bytes`, by the bytes that it puts at the start of its buffer. -/
def readBytes (offset length : ℕ) : BlockM (List UInt8) := do
  let available := env.device.sizeBytes - offset
  let length := min length available
  if length = 0 then pure []
  else
    let bs := env.device.logicalBlockSize
    let first := offset / bs
    let leading := offset % bs
    if leading = 0 ∧ length % bs = 0 then readBlocks env first (asU32 (length / bs)) length
    else do
      blockBuffer env
      let (head, lba) ← readHead env first leading length
      let left ← sub .overflow length head.length
      let middle := left / bs * bs
      let (body, lba) ← readBody env lba middle
      let tail ← sub .overflow left middle
      let rest ← readTail env lba tail
      pure (head ++ body ++ rest)

/-- Reads one block, changes part of it and writes it back. -/
def rewriteBlock (lba within : ℕ) (part : List UInt8) : BlockM Unit := do
  let bounce ← readBlocks env lba 1 env.device.logicalBlockSize
  check (within + part.length ≤ bounce.length) .bounds
  writeBlocks env lba 1 (splice bounce within part)

/-- Writes the part of a range that starts in the middle of a block: its length, and the block after
it. -/
def writeHead (first leading : ℕ) (buffer : List UInt8) : BlockM (ℕ × ℕ) :=
  if leading ≠ 0 then do
    let take := min buffer.length (env.device.logicalBlockSize - leading)
    rewriteBlock env first leading (buffer.take take)
    let lba ← add 64 .overflow first 1
    pure (take, lba)
  else pure (0, first)

def writeBody (lba : ℕ) (middle : List UInt8) : BlockM ℕ :=
  if middle ≠ [] then do
    let blocks := middle.length / env.device.logicalBlockSize
    writeBlocks env lba (asU32 blocks) middle
    add 64 .overflow lba blocks
  else pure lba

def writeTail (lba : ℕ) (tail : List UInt8) : BlockM Unit :=
  if tail ≠ [] then rewriteBlock env lba 0 tail else pure ()

def writeBytes (offset : ℕ) (buffer : List UInt8) : BlockM ℕ :=
  match Roanix.Mem.checkedAdd offset buffer.length with
  | none => fail .invalidArgument
  | some end' =>
    if end' > env.device.sizeBytes then fail .noSpace
    else if buffer = [] then pure 0
    else
      let bs := env.device.logicalBlockSize
      let first := offset / bs
      let leading := offset % bs
      if leading = 0 ∧ buffer.length % bs = 0 then do
        writeBlocks env first (asU32 (buffer.length / bs)) buffer
        pure buffer.length
      else do
        blockBuffer env
        let (done, lba) ← writeHead env first leading buffer
        let left ← sub .overflow buffer.length done
        let middle := left / bs * bs
        let lba ← writeBody env lba (slice buffer done middle)
        let done ← add 64 .overflow done middle
        writeTail env lba (buffer.drop done)
        pure buffer.length

/-- The state of a read into a caller's buffer. -/
structure Delivery where
  disk : Disk
  sink : IoSink

abbrev DeliveryM : Type → Type := Act FsError Panic Delivery

def onDisk {α : Type} (m : BlockM α) : DeliveryM (Except Error α) :=
  zoom Delivery.disk (fun disk s => { s with disk }) (attempt m)

inductive Flow where
  | next (done : ℕ)
  | return (done : ℕ)

/-- The windows of one batch in `read_into`. The fuel is the number of bytes left. -/
def deliver (data : List UInt8) : ℕ → ℕ → ℕ → DeliveryM Flow
  | 0, done, _ => pure (.next done)
  | fuel + 1, done, copied =>
    if copied < data.length then do
      let s ← get
      match s.sink.window done (data.length - copied) with
      | none => if done ≠ 0 then pure (.return done) else fail .invalidArgument
      | some 0 => fail .io
      | some count => do
        set { s with sink := s.sink.copyFromSlice done (slice data copied count) }
        let copied ← add 64 .overflow copied count
        let done ← add 64 .overflow done count
        deliver data fuel done copied
    else pure (.next done)

/-- The batches of `read_into`. -/
def readBatches (offset length : ℕ) : ℕ → ℕ → DeliveryM ℕ
  | 0, done => pure done
  | fuel + 1, done =>
    if done < length then do
      let take := min (min length ioBatchBytes) (length - done)
      let start ← add 64 .overflow offset done
      match ← onDisk (readBytes env start take) with
      | .ok data =>
        if data.length = take then
          match ← deliver data take done 0 with
          | .next done => readBatches offset length fuel done
          | .return done => pure done
        else if done ≠ 0 then pure done
        else fail .io
      | .error e => if done ≠ 0 then pure done else fail (.driver e)
    else pure done

def readInto (offset : ℕ) : DeliveryM ℕ := do
  let s ← get
  let length := min s.sink.len (env.device.sizeBytes - offset)
  if length = 0 then pure 0
  else
    match ← onDisk (blockBuffer env) with
    | .ok () => readBatches env offset length length 0
    | .error e => fail (.driver e)

/-- One batch of `write_from`. -/
def writeBatch (source : IoSource) (done take start : ℕ) : Act FsError Panic Disk ℕ :=
  match source.load done take with
  | none => fail .invalidArgument
  | some data => mapErr .driver (writeBytes env start data)

/-- The batches of `write_from`. -/
def writeBatches (offset : ℕ) (source : IoSource) : ℕ → ℕ → Act FsError Panic Disk ℕ
  | 0, done => pure done
  | fuel + 1, done =>
    if done < source.len then do
      let take := min (min source.len ioBatchBytes) (source.len - done)
      match Roanix.Mem.checkedAdd offset done with
      | none => fail .invalidArgument
      | some start =>
        match ← attempt (writeBatch env source done take start) with
        | .ok count => do
          let done ← add 64 .overflow done count
          if count < take then pure done else writeBatches offset source fuel done
        | .error e => if done ≠ 0 then pure done else fail e
    else pure done

def writeFrom (offset : ℕ) (source : IoSource) : Act FsError Panic Disk ℕ :=
  if source.len = 0 then pure 0
  else do
    mapErr .driver (blockBuffer env)
    writeBatches env offset source source.len 0

end Roanix.Dev.Block
