import Mathlib.Data.Finset.Insert
import Roanix.Dev.Block.Basic

/-! Reading a FAT32 volume: the geometry that the boot sector describes, the file allocation table and
the index of a file's clusters that its reads share. -/
namespace Roanix.Fs.Fat32
open Lib (Act slice)
open Lib.Act
open Mem (IsPowerOfTwo checkedAdd)
open Dev

def fatEntryMask : ℕ := 0x0fffffff

def fatBadCluster : ℕ := 0x0ffffff7

def fatEndMin : ℕ := 0x0ffffff8

inductive Error where
  | io
  | invalidArgument
  | outOfMemory
  | driver (e : Block.Error)
deriving DecidableEq, Repr

def le16 (bytes : List UInt8) (offset : ℕ) : ℕ :=
  (bytes.getD offset 0).toNat + 2 ^ 8 * (bytes.getD (offset + 1) 0).toNat

def le32 (bytes : List UInt8) (offset : ℕ) : ℕ :=
  le16 bytes offset + 2 ^ 16 * le16 bytes (offset + 2)

structure Geometry where
  bytesPerCluster : ℕ
  fatOffset : ℕ
  fatBytes : ℕ
  dataOffset : ℕ
  totalBytes : ℕ
  clusterCount : ℕ
  rootCluster : ℕ
  activeFat : ℕ
  fsInfoOffset : Option ℕ
  freeClusters : Option ℕ
deriving DecidableEq, Repr

structure Boot where
  bytesPerSector : ℕ
  sectorsPerCluster : ℕ
  reserved : ℕ
  fats : ℕ
  rootEntries : ℕ
  total16 : ℕ
  fat16 : ℕ
  totalSectors : ℕ
  fatSectors : ℕ
  flags : ℕ
  version : ℕ
  rootCluster : ℕ
  fsInfoSector : ℕ

def Boot.decode (boot : List UInt8) : Boot where
  bytesPerSector := le16 boot 11
  sectorsPerCluster := (boot.getD 13 0).toNat
  reserved := le16 boot 14
  fats := (boot.getD 16 0).toNat
  rootEntries := le16 boot 17
  total16 := le16 boot 19
  fat16 := le16 boot 22
  totalSectors := le32 boot 32
  fatSectors := le32 boot 36
  flags := le16 boot 40
  version := le16 boot 42
  rootCluster := le32 boot 44 &&& fatEntryMask
  fsInfoSector := le16 boot 48

/-- What the fields are refused for, one by one. -/
def Boot.Bad (b : Boot) : Prop :=
  ¬ (b.bytesPerSector = 512 ∨ b.bytesPerSector = 1024 ∨ b.bytesPerSector = 2048 ∨
      b.bytesPerSector = 4096) ∨
    b.sectorsPerCluster = 0 ∨ ¬ IsPowerOfTwo b.sectorsPerCluster ∨ b.sectorsPerCluster > 128 ∨
    b.reserved = 0 ∨ b.fats = 0 ∨ b.rootEntries ≠ 0 ∨ b.total16 ≠ 0 ∨ b.fat16 ≠ 0 ∨
    b.totalSectors = 0 ∨ b.fatSectors = 0 ∨ b.version ≠ 0

instance (b : Boot) : Decidable b.Bad := inferInstanceAs (Decidable (_ ∨ _))

/-- The table in use: the flags may name one instead of the first. -/
def Boot.activeFat (b : Boot) : ℕ := if b.flags &&& 0x80 ≠ 0 then b.flags &&& 0x0f else 0

section Parse
variable {σ : Type}

/-- The geometry of a volume whose fields are not refused. -/
def Boot.geometry (b : Boot) (deviceBytes : ℕ) : Act Error Block.Panic σ Geometry := do
  let fatsSectors ← okOr (checked 32 (b.fats * b.fatSectors)) .invalidArgument
  let firstDataSector ← okOr (checked 32 (b.reserved + fatsSectors)) .invalidArgument
  ensure (firstDataSector < b.totalSectors) .invalidArgument
  let dataSectors ← sub .overflow b.totalSectors firstDataSector
  let clusterCount := dataSectors / b.sectorsPerCluster
  ensure (65525 ≤ clusterCount ∧ 2 ≤ b.rootCluster) .invalidArgument
  let clusterEnd ← add 32 .overflow clusterCount 2
  ensure (b.rootCluster < clusterEnd) .invalidArgument
  let totalBytes ← okOr ((checked 64 (b.totalSectors * b.bytesPerSector)).filter (· ≤ deviceBytes))
    .invalidArgument
  let fatBytes ← mul 64 .overflow b.fatSectors b.bytesPerSector
  let tableBytes ← mul 64 .overflow clusterEnd 4
  ensure (tableBytes ≤ fatBytes) .invalidArgument
  ensure (b.activeFat < b.fats) .invalidArgument
  let bytesPerCluster ← mul 32 .overflow b.bytesPerSector b.sectorsPerCluster
  let fatOffset ← mul 64 .overflow b.reserved b.bytesPerSector
  let dataOffset ← mul 64 .overflow firstDataSector b.bytesPerSector
  let fsInfoBytes ← mul 64 .overflow b.fsInfoSector b.bytesPerSector
  pure {
    bytesPerCluster
    fatOffset
    fatBytes
    dataOffset
    totalBytes
    clusterCount
    rootCluster := b.rootCluster
    activeFat := b.activeFat
    fsInfoOffset := if b.fsInfoSector ≠ 0 ∧ b.fsInfoSector < b.reserved then some fsInfoBytes else none
    freeClusters := none }

def parseBoot (boot : List UInt8) (deviceBytes : ℕ) : Act Error Block.Panic σ Geometry := do
  ensure (slice boot 510 2 = [0x55, 0xaa]) .invalidArgument
  ensure (¬ (Boot.decode boot).Bad) .invalidArgument
  (Boot.decode boot).geometry deviceBytes

end Parse

/-- The clusters of a file that were found so far. -/
structure ClusterChain where
  clusters : List ℕ
  seen : Finset ℕ
deriving DecidableEq

instance : Inhabited ClusterChain := ⟨[], ∅⟩

/-- The pager of a regular file. Its directory entry holds the size in 32 bits. -/
structure FatPager where
  firstCluster : ℕ
  size : ℕ
  size_lt : size < 2 ^ 32

abbrev Run := ℕ × ℕ

/-- A mounted volume, with the index of each pager. -/
structure FatVolume where
  disk : Block.Disk
  chains : ℕ → ClusterChain
  /-- Every range that was asked of the device. -/
  asked : List Run
  failed : ℕ
  turn : ℕ

/-- What the surroundings do: those of the device, and by turn whether the metadata object brings in
its page and whether memory is there. -/
structure Env where
  block : Block.Env
  metadataFails : ℕ → Bool
  refuses : ℕ → Bool

abbrev FatM : Type → Type := Act Error Block.Panic FatVolume

variable (env : Env) (g : Geometry)

/-- `VmObject::read_at` of the metadata object, which holds what the device holds. -/
def readAt (offset length : ℕ) : FatM (List UInt8) := fun v =>
  let v' := { v with asked := v.asked ++ [(offset, length)], turn := v.turn + 1 }
  if env.metadataFails v.turn then .err .io { v' with failed := v.failed + 1 }
  else .ok (slice v.disk.bytes offset (min length (env.block.device.sizeBytes - offset))) v'

def tryReserve : FatM Unit := fun v =>
  if env.refuses v.turn then .err .outOfMemory { v with failed := v.failed + 1, turn := v.turn + 1 }
  else .ok () { v with turn := v.turn + 1 }

/-- `read_bytes` of the device, by the bytes that it returns. -/
def deviceRead (start count : ℕ) : FatM (List UInt8) := do
  modify fun v => { v with asked := v.asked ++ [(start, count)] }
  zoom FatVolume.disk (fun disk v => { v with disk })
    (mapErr .driver (Block.readBytes env.block start count))

def validateCluster (cluster : ℕ) : FatM Unit :=
  ensure (2 ≤ cluster ∧ cluster < min (g.clusterCount + 2) (2 ^ 32 - 1)) .io

def clusterOffset (cluster : ℕ) : FatM ℕ := do
  validateCluster g cluster
  let index ← sub .overflow cluster 2
  let bytes ← mul 64 .overflow index g.bytesPerCluster
  okOr ((checkedAdd g.dataOffset bytes).filter (· < g.totalBytes)) .io

def fatEntry (cluster : ℕ) : FatM ℕ := do
  validateCluster g cluster
  let skip ← mul 64 .overflow g.activeFat g.fatBytes
  let fat ← okOr (checkedAdd g.fatOffset skip) .io
  let index ← mul 64 .overflow cluster 4
  let offset ← okOr (checkedAdd fat index) .io
  let stop ← add 64 .overflow offset 4
  let limit ← add 64 .overflow fat g.fatBytes
  ensure (stop ≤ limit) .io
  let bytes ← readAt env offset 4
  ensure (bytes.length = 4) .io
  pure (le32 bytes 0 &&& fatEntryMask)

def nextCluster (cluster : ℕ) : FatM (Option ℕ) := do
  let next ← fatEntry env g cluster
  if next ≥ fatEndMin then pure none
  else do
    ensure (¬ (next = 0 ∨ next = 1 ∨ next = fatBadCluster)) .io
    validateCluster g next
    pure (some next)

/-- The cluster that `visit_directory` decodes. -/
def readCluster (cluster : ℕ) : FatM (List UInt8) := do
  let absolute ← clusterOffset g cluster
  let bytes ← readAt env absolute g.bytesPerCluster
  ensure (bytes.length = g.bytesPerCluster) .io
  pure bytes

def follow (firstCluster : ℕ) (clusters : List ℕ) : FatM ℕ :=
  match clusters.getLast? with
  | some last => do okOr (← nextCluster env g last) .io
  | none => pure firstCluster

/-- The loop that extends an index. The fuel is the number of clusters that it may lack. -/
def extendChain (firstCluster p stop : ℕ) : ℕ → FatM Unit
  | 0 => pure ()
  | fuel + 1 => do
    let v ← get
    if (v.chains p).clusters.length < stop then do
      let next ← follow env g firstCluster (v.chains p).clusters
      validateCluster g next
      ensure (next ∉ (v.chains p).seen) .io
      modify fun v =>
        { v with
          chains := Function.update v.chains p
            ⟨(v.chains p).clusters ++ [next], insert next (v.chains p).seen⟩ }
      extendChain firstCluster p stop fuel
    else pure ()

/-- Adds a range to the last one if it goes on there. -/
def pushRun (runs : List Run) (start take : ℕ) : FatM (List Run) :=
  match runs.getLast? with
  | some (last, count) => do
    let stop ← add 64 .overflow last count
    if stop = start then do
      let count ← add 64 .overflow count take
      pure (runs.dropLast ++ [(last, count)])
    else pure (runs ++ [(start, take)])
  | none => pure [(start, take)]

/-- The loop over the clusters of a range. -/
def collectRuns : List ℕ → ℕ → ℕ → List Run → FatM (List Run)
  | [], _, _, runs => pure runs
  | cluster :: clusters, remaining, within, runs => do
    let offset ← clusterOffset g cluster
    let start ← add 64 .overflow offset within
    let room ← sub .overflow g.bytesPerCluster within
    let take := min remaining room
    let runs ← pushRun runs start take
    let remaining ← sub .overflow remaining take
    collectRuns clusters remaining 0 runs

/-- `read_file` up to the release of the index: where the bytes are. -/
def locate (firstCluster p offset length : ℕ) : FatM (List Run) := do
  let last ← add 64 .overflow offset length
  let stop := (last + g.bytesPerCluster - 1) / g.bytesPerCluster
  ensure (stop ≤ g.clusterCount) .io
  tryReserve env
  extendChain env g firstCluster p stop stop
  let first := offset / g.bytesPerCluster
  let count ← sub .overflow stop first
  tryReserve env
  let v ← get
  check (stop ≤ (v.chains p).clusters.length) .bounds
  collectRuns g (slice (v.chains p).clusters first count) length (offset % g.bytesPerCluster) []

/-- `read_file` after the release of the index, into a buffer of some length. -/
def fetch (length : ℕ) : List Run → ℕ → FatM (List UInt8)
  | [], _ => pure []
  | (start, count) :: runs, done => do
    let stop ← add 64 .overflow done count
    check (stop ≤ length) .bounds
    let data ← deviceRead env start count
    ensure (data.length = count) .io
    let rest ← fetch length runs stop
    pure (data ++ rest)

def FatPager.clip (pager : FatPager) (offset length : ℕ) : ℕ := min length (pager.size - offset)

/-- `read_file`, by what is in the buffer. -/
def readFile (pager : FatPager) (p offset length : ℕ) : FatM (List UInt8) :=
  if pager.clip offset length = 0 then pure (List.replicate length 0)
  else do
    let runs ← locate env g pager.firstCluster p offset (pager.clip offset length)
    let data ← fetch env length runs 0
    pure (data ++ List.replicate (length - pager.clip offset length) 0)

def Geometry.withInfo (info : List UInt8) : Geometry :=
  if info.length = 512 ∧ le32 info 0 = 0x41615252 ∧ le32 info 484 = 0x61417272 ∧
      le32 info 508 = 0xaa550000 ∧ le32 info 488 ≠ 2 ^ 32 - 1 ∧ le32 info 488 ≤ g.clusterCount then
    { g with freeClusters := some (le32 info 488) }
  else g

def new : FatM Geometry := do
  let boot ← deviceRead env 0 512
  ensure (boot.length = 512) .io
  let g ← parseBoot boot env.block.device.sizeBytes
  let g ← match g.fsInfoOffset with
    | some offset => do pure (g.withInfo (← deviceRead env offset 512))
    | none => pure g
  validateCluster g g.rootCluster
  pure g

end Roanix.Fs.Fat32
