import Roanix.Lib.Bytes

/-! Partition discovery on a disk whose contents, read failures and allocation failures are left
open: each may even change from one request to the next. -/
namespace Roanix.Fs.PartitionM
open Lib Lib.Act

def gptSignature : List UInt8 := [0x45, 0x46, 0x49, 0x20, 0x50, 0x41, 0x52, 0x54]
def gptMinHeader : ℕ := 92
def gptMinEntry : ℕ := 128
def maxGptEntries : ℕ := 4096
def maxGptBytes : ℕ := 16 * 1024 * 1024
def maxEbrLinks : ℕ := 128

inductive Error where
  | invalidArgument
  | notFound
  | io
  | outOfMemory
  | device
deriving DecidableEq, Repr

inductive Panic where
  | bounds
  | overflow
deriving DecidableEq, Repr

structure Container where
  base : ℕ
  blocks : ℕ
deriving DecidableEq, Repr

/-- `Partition`, with the container through which it was reached; the source does not keep that. -/
structure Partition where
  number : ℕ
  first : ℕ
  blocks : ℕ
  container : Option Container
deriving DecidableEq, Repr

/-- The device and its surroundings. The buffer of a read has a fixed length; the order of equal keys
after an unstable sort is not fixed. -/
structure Env where
  blockSize : ℕ
  blockCount : ℕ
  size_lt : blockSize < 2 ^ 32
  count_lt : blockCount < 2 ^ 64
  /-- What the request of a turn for blocks into a buffer of a length brings, if it succeeds. -/
  read : (turn lba blocks length : ℕ) → Option (List UInt8)
  read_length : ∀ {turn lba blocks length bytes}, read turn lba blocks length = some bytes →
    bytes.length = length
  refuses : ℕ → Bool
  sort : (Partition → ℕ) → List Partition → List Partition
  sort_perm : ∀ key l, (sort key l).Perm l
  sort_sorted : ∀ key l, (sort key l).Pairwise fun p q => key p ≤ key q

abbrev ScanM : Type → Type := Act Error Panic ℕ

def le32 (bytes : List UInt8) (offset : ℕ) : ScanM ℕ := okOr (field 4 bytes offset) .invalidArgument

def le64 (bytes : List UInt8) (offset : ℕ) : ScanM ℕ := okOr (field 8 bytes offset) .invalidArgument

def crcBit (crc : UInt32) : UInt32 := (crc >>> 1) ^^^ (0xedb88320 &&& (0 - (crc &&& 1)))

def crcByte (crc : UInt32) (byte : UInt8) : UInt32 := Nat.iterate crcBit 8 (crc ^^^ byte.toUInt32)

def crc32 (bytes : List UInt8) : UInt32 := ~~~(bytes.foldl crcByte (~~~0))

def isExtended (kind : UInt8) : Bool := kind = 0x05 || kind = 0x0f || kind = 0x85

variable (env : Env)

def zeroed : ScanM Unit := fun turn =>
  if env.refuses turn then .err .outOfMemory (turn + 1) else .ok () (turn + 1)

def readBlocks (lba blocks length : ℕ) : ScanM (List UInt8) := fun turn =>
  match env.read turn lba blocks length with
  | some bytes => .ok bytes (turn + 1)
  | none => .err .device (turn + 1)

def readSector (lba : ℕ) : ScanM (List UInt8) := do
  zeroed env
  readBlocks env lba 1 env.blockSize

section Validate

/-- The loop of `validate_ranges`. -/
def rangesOk : List Partition → ℕ → ScanM Unit
  | [], _ => pure ()
  | p :: rest, previousEnd => do
    let stop ← okOr (checked 64 (p.first + p.blocks)) .invalidArgument
    ensure (¬ (p.blocks = 0 ∨ p.first = 0 ∨ p.first ≥ env.blockCount ∨ stop > env.blockCount ∨
      p.first < previousEnd)) .invalidArgument
    rangesOk rest stop

def validateRanges (partitions : List Partition) : ScanM (List Partition) := do
  let sorted := env.sort Partition.first partitions
  rangesOk env sorted 0
  pure (env.sort Partition.number sorted)

end Validate

section Gpt

/-- The loop over the entry array, from `index` on. -/
def gptEntries (entries : List UInt8) (entrySize firstUsable lastUsable : ℕ) :
    ℕ → ℕ → List Partition → ScanM (List Partition)
  | 0, _, output => pure output
  | left + 1, index, output => do
    let start ← mul 64 .overflow index entrySize
    let next ← add 64 .overflow index 1
    let stop ← mul 64 .overflow next entrySize
    let entry ← subslice .bounds entries start stop
    let kind ← subslice .bounds entry 0 16
    if kind.all (· = 0) then gptEntries entries entrySize firstUsable lastUsable left next output
    else do
      let first ← le64 entry 32
      let last ← le64 entry 40
      ensure (¬ (first < firstUsable ∨ last > lastUsable ∨ first > last)) .invalidArgument
      let span ← sub .overflow last first
      let blocks ← add 64 .overflow span 1
      gptEntries entries entrySize firstUsable lastUsable left next
        (output ++ [⟨next, first, blocks, none⟩])

structure Table where
  firstUsable : ℕ
  lastUsable : ℕ
  entriesLba : ℕ
  entryCount : ℕ
  entrySize : ℕ

/-- The checks of the header, up to the entry array. -/
def gptHeader (header : List UInt8) : ScanM Table := do
  ensure (slice header 0 8 = gptSignature) .invalidArgument
  let headerSize ← le32 header 12
  ensure (gptMinHeader ≤ headerSize ∧ headerSize ≤ env.blockSize) .invalidArgument
  let storedCrc ← le32 header 16
  let covered ← subslice .bounds header 0 headerSize
  check (20 ≤ covered.length) .bounds
  ensure ((crc32 (splice covered 16 [0, 0, 0, 0])).toNat = storedCrc) .io
  let current ← le64 header 24
  ensure (current = 1) .invalidArgument
  let backup ← le64 header 32
  ensure (backup < env.blockCount) .invalidArgument
  let firstUsable ← le64 header 40
  let lastUsable ← le64 header 48
  ensure (firstUsable ≤ lastUsable ∧ lastUsable < env.blockCount) .invalidArgument
  let entriesLba ← le64 header 72
  let entryCount ← le32 header 80
  let entrySize ← le32 header 84
  ensure (entryCount ≠ 0 ∧ entryCount ≤ maxGptEntries ∧ gptMinEntry ≤ entrySize ∧ entrySize % 8 = 0)
    .invalidArgument
  pure ⟨firstUsable, lastUsable, entriesLba, entryCount, entrySize⟩

def discoverGpt : ScanM (List Partition) := do
  ensure (2 ≤ env.blockCount) .invalidArgument
  let header ← readSector env 1
  let table ← gptHeader env header
  let bytes ← okOr (checked 64 (table.entryCount * table.entrySize)) .invalidArgument
  ensure (bytes ≤ maxGptBytes) .invalidArgument
  let blocks := (bytes + env.blockSize - 1) / env.blockSize
  let stop ← okOr (checked 64 (table.entriesLba + blocks)) .invalidArgument
  ensure (¬ (table.entriesLba = 0 ∨ stop > env.blockCount)) .invalidArgument
  let length ← mul 64 .overflow blocks env.blockSize
  zeroed env
  ensure (blocks < 2 ^ 32) .invalidArgument
  let entries ← readBlocks env table.entriesLba blocks length
  let covered ← subslice .bounds entries 0 bytes
  let entriesCrc ← le32 header 88
  ensure ((crc32 covered).toNat = entriesCrc) .io
  let output ← gptEntries entries table.entrySize table.firstUsable table.lastUsable table.entryCount
    0 []
  validateRanges env output

end Gpt

section Mbr

def pushLogical (container : Container) (containerEnd ebrLba : ℕ) (kind : UInt8)
    (firstRelative blocks number : ℕ) (output : List Partition) : ScanM (ℕ × List Partition) :=
  if kind ≠ 0 ∧ blocks ≠ 0 ∧ ¬ isExtended kind then do
    let first ← okOr (checked 64 (ebrLba + firstRelative)) .invalidArgument
    ensure (¬ (first < container.base ∨
      (checked 64 (first + blocks)).all (· > containerEnd))) .invalidArgument
    let next ← add 64 .overflow number 1
    pure (next, output ++ [⟨number, first, blocks, some container⟩])
  else pure (number, output)

/-- The loop of `discover_ebr` over the chain of links; its bound is the number of links left. -/
def ebrLoop (container : Container) (containerEnd : ℕ) :
    ℕ → ℕ → List ℕ → ℕ → List Partition → ScanM (ℕ × List Partition)
  | 0, _, _, _, _ => fail .invalidArgument
  | links + 1, relative, visited, number, output => do
    let ebrLba ← okOr (checked 64 (container.base + relative)) .invalidArgument
    ensure (¬ (ebrLba < container.base ∨ ebrLba ≥ containerEnd ∨ ebrLba ∈ visited)) .invalidArgument
    let sector ← readSector env ebrLba
    ensure (slice sector 510 2 = [0x55, 0xaa]) .invalidArgument
    let logical ← subslice .bounds sector 446 462
    let kind ← byteAt .bounds logical 4
    let firstRelative ← le32 logical 8
    let blocks ← le32 logical 12
    let found ← pushLogical container containerEnd ebrLba kind firstRelative blocks number output
    let link ← subslice .bounds sector 462 478
    let linkKind ← byteAt .bounds link 4
    if ¬ isExtended linkKind then pure found
    else do
      let linkBlocks ← le32 link 12
      if linkBlocks = 0 then pure found
      else do
        let linkFirst ← le32 link 8
        ebrLoop container containerEnd links linkFirst (visited ++ [ebrLba]) found.1 found.2

def discoverEbr (base containerBlocks number : ℕ) (output : List Partition) :
    ScanM (ℕ × List Partition) := do
  let containerEnd ← okOr ((checked 64 (base + containerBlocks)).filter (· ≤ env.blockCount))
    .invalidArgument
  ebrLoop env ⟨base, containerBlocks⟩ containerEnd maxEbrLinks 0 [] number output

def mbrEntries (sector : List UInt8) :
    ℕ → ℕ → ℕ → List Partition → ScanM (List Partition)
  | 0, _, _, output => pure output
  | left + 1, index, number, output => do
    let entry ← subslice .bounds sector (446 + index * 16) (462 + index * 16)
    let kind ← byteAt .bounds entry 4
    let first ← le32 entry 8
    let blocks ← le32 entry 12
    if kind = 0 ∨ blocks = 0 then mbrEntries sector left (index + 1) number output
    else if isExtended kind then do
      let found ← discoverEbr env first blocks number output
      mbrEntries sector left (index + 1) found.1 found.2
    else if kind ≠ 0xee then
      mbrEntries sector left (index + 1) number (output ++ [⟨index + 1, first, blocks, none⟩])
    else mbrEntries sector left (index + 1) number output

def discoverMbr (sector : List UInt8) : ScanM (List Partition) := do
  let output ← mbrEntries env sector 4 0 5 []
  ensure (output ≠ []) .notFound
  validateRanges env output

end Mbr

/-- Whether one of the entries is that of a protective table. -/
def protective (sector : List UInt8) : ℕ → ℕ → ScanM Bool
  | 0, _ => pure false
  | left + 1, index => do
    let kind ← byteAt .bounds sector (446 + index * 16 + 4)
    if kind = 0xee then pure true else protective sector left (index + 1)

def discover : ScanM (List Partition) := do
  ensure (512 ≤ env.blockSize) .invalidArgument
  let sector ← readSector env 0
  ensure (slice sector 510 2 = [0x55, 0xaa]) .notFound
  let gpt ← protective sector 4 0
  if gpt then discoverGpt env else discoverMbr env sector

/-- The device below a partition, by its requests. -/
structure Parent (σ : Type) where
  readBlocks : (lba blocks length : ℕ) → Act Error Panic σ (List UInt8)
  writeBlocks : (lba blocks : ℕ) → List UInt8 → Act Error Panic σ Unit
  discard : (lba blocks : ℕ) → Act Error Panic σ Unit

structure PartitionBackend where
  first : ℕ
  blocks : ℕ
deriving DecidableEq, Repr

namespace PartitionBackend
variable {σ α : Type}

def map (b : PartitionBackend) (lba blocks : ℕ) : Act Error Panic σ ℕ := do
  let stop ← okOr (checked 64 (lba + blocks)) .invalidArgument
  ensure (stop ≤ b.blocks) .invalidArgument
  okOr (checked 64 (b.first + lba)) .invalidArgument

/-- A request at a place of the partition, made at its place of the parent. -/
def forward (b : PartitionBackend) (lba blocks : ℕ) (request : ℕ → Act Error Panic σ α) :
    Act Error Panic σ α := do
  let at' ← b.map lba blocks
  request at'

def readBlocks (b : PartitionBackend) (parent : Parent σ) (lba blocks length : ℕ) :
    Act Error Panic σ (List UInt8) :=
  b.forward lba blocks fun at' => parent.readBlocks at' blocks length

def writeBlocks (b : PartitionBackend) (parent : Parent σ) (lba blocks : ℕ) (buffer : List UInt8) :
    Act Error Panic σ Unit :=
  b.forward lba blocks fun at' => parent.writeBlocks at' blocks buffer

def discard (b : PartitionBackend) (parent : Parent σ) (lba blocks : ℕ) : Act Error Panic σ Unit :=
  b.forward lba blocks fun at' => parent.discard at' blocks

end PartitionBackend

end Roanix.Fs.PartitionM
