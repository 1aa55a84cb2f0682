import Roanix.Mem.Phys.Basic

/-! The rest of `phys.rs`: contiguous runs, returning frames, zeroing free frames in advance, and
the set-up of the allocator from the boot memory map. -/
namespace Roanix.Mem
open Lib

namespace Phys

/-- The free frames in a row from a frame on, counted up to a bound. -/
def runFrom (m : Phys) : ℕ → ℕ → ℕ
  | _, 0 => 0
  | index, n + 1 =>
    if (m.pageByIndex index).isSome ∧ m.IsLinkedFree index then m.runFrom (index + 1) n + 1 else 0

end Phys

namespace PhysM
open Act

/-- Empty one cache: its dirty frames first. -/
def drainCache (id : Fin maxPageCpus) : ℕ → PhysM Unit
  | 0 => do
    let cache := (← get).caches id
    check (cache.dirty = [] ∧ cache.zero = []) .endlessList
  | fuel + 1 => do
    match ← popEither (cachePop id) false with
    | none => return ()
    | some (pfn, zeroed) =>
      match (← get).pageByIndex pfn with
      | none => drainCache id fuel
      | some page => do
        addFree 1
        pushBack zeroed page
        drainCache id fuel

def drainCaches : List (Fin maxPageCpus) → PhysM Unit
  | [] => pure ()
  | id :: rest => do
    let cache := (← get).caches id
    drainCache id (cache.dirty.length + cache.zero.length)
    drainCaches rest

def drainPageCaches : PhysM Unit := drainCaches (List.finRange maxPageCpus)

/-- The search of `alloc_contiguous` from a frame on. -/
def findRun (count align entries : ℕ) : ℕ → ℕ → PhysM (Option ℕ)
  | 0, start => do
    check (entries < start + count) .endlessList
    return none
  | fuel + 1, start => do
    let m ← get
    if entries < start + count then return none
    else
      match PhysSegment.next m.segments start with
      | none => return none
      | some found =>
        let start := alignIndex found align
        if entries < start + count then return none
        else if m.runFrom start count = count then return some start
        else
          -- resume after the frame that broke the run
          findRun count align entries fuel
            (alignIndex (max (start + m.runFrom start count) start + 1) align)

/-- `cursor_mut_from_ptr(page).remove()`: the caller has to know the list the frame is on. -/
def unlink (zero : Bool) (pfn : ℕ) : PhysM Unit := do
  check (pfn ∈ (← get).queue zero) .danglingLink
  modify fun m => m.setQueue zero ((m.queue zero).erase pfn)

/-- Take a run off the shared lists; the result counts its zeroed frames. -/
def removeRun : ℕ → ℕ → PhysM (Option ℕ)
  | _, 0 => return some 0
  | pfn, n + 1 => do
    let m ← get
    match m.pageByIndex pfn with
    | none => return none
    | some page => do
      let wasZero := decide ((m.frames page).state = .zero)
      unlink wasZero page
      match ← removeRun (pfn + 1) n with
      | none => return none
      | some zeroed => return some (wasZero.toNat + zeroed)

def prepareRun (usage : PageUse) : ℕ → ℕ → PhysM Bool
  | _, 0 => return true
  | pfn, n + 1 => do
    match (← get).pageByIndex pfn with
    | none => return false
    | some page => do
      prepareAllocation usage page
      prepareRun usage (pfn + 1) n

/-- `alloc_contiguous` once a run of free frames has been found. -/
def claimRun (usage : PageUse) (count base : ℕ) : PhysM (Option ℕ) := do
  match ← removeRun base count with
  | none => return none
  | some zeroed => do
    subFree count
    if ← prepareRun usage base count then do
      countAllocated count zeroed
      return (← get).pageByIndex base
    else return none

/-- `alloc_contiguous` after the caches have been drained. -/
def claimContiguous (caller : Caller) (usage : PageUse) (count align maxAddress : ℕ) :
    PhysM (Option ℕ) := do
  let m ← get
  let entries := min m.maxPfn (min (maxAddress + 1) u64Max / pageSize)
  if entries < count then return none
  else if m.nfree < count + (if caller.daemon then 0 else daemonPages) then return none
  else
    match ← findRun count align entries (entries + 1) (alignIndex 0 align) with
    | none => return none
    | some base => claimRun usage count base

def allocContiguous (caller : Caller) (usage : PageUse) (count alignPages maxAddress : ℕ) :
    PhysM (Option ℕ) := do
  if count = 0 then return none
  else do
    check usage.Dynamic .invalidPageUse
    if ¬ IsPowerOfTwo (max alignPages 1) then return none
    else do
      drainPageCaches
      claimContiguous caller usage count (max alignPages 1) maxAddress

def popMany (pop : PhysM (Option ℕ)) : ℕ → PhysM (List ℕ)
  | 0 => return []
  | n + 1 => do
    match ← pop with
    | none => return []
    | some pfn => return pfn :: (← popMany pop n)

def appendAll (zeroed : Bool) : List ℕ → PhysM Unit
  | [] => pure ()
  | pfn :: rest => do
    addFree 1
    match (← get).pageByIndex pfn with
    | none => stop .invalidCachedFrame
    | some page => do
      pushBack zeroed page
      appendAll zeroed rest

/-- The second half of `free_page_inner`: a full cache spills before it takes the frame. -/
def cacheFreed (id : Fin maxPageCpus) (pfn : ℕ) (zeroed : Bool) : PhysM Unit := do
  if ← cachePush id pfn zeroed then return ()
  else do
    let spill ← popMany (cachePop id zeroed) pageCacheRefill
    let pushed ← cachePush id pfn zeroed
    check (pushed = true) .pageCacheFull
    appendAll zeroed spill

def freePageInner (caller : Caller) (pfn : ℕ) (zeroed : Bool) : PhysM Unit := do
  prepareFree pfn zeroed
  countFreed zeroed
  let id ← cacheId caller.cpu
  cacheFreed id pfn zeroed

def freePage (caller : Caller) (pfn : ℕ) : PhysM Unit := freePageInner caller pfn false

def freeZeroedPage (caller : Caller) (pfn : ℕ) : PhysM Unit := freePageInner caller pfn true

def freeContiguous (caller : Caller) : ℕ → ℕ → PhysM Unit
  | _, 0 => pure ()
  | pfn, n + 1 => do
    match (← get).pageByIndex pfn with
    | none => return ()
    | some page => do
      freePage caller page
      freeContiguous caller (pfn + 1) n

/-- One withdrawal of `zero_free_pages` from the shared free list. -/
def popFree : PhysM (Option ℕ) := do
  match ← popFront false with
  | none => return none
  | some pfn => do
    subFree 1
    return some pfn

def zeroAll : List ℕ → PhysM Unit
  | [] => pure ()
  | pfn :: rest => do
    zeroPage pfn
    modify fun m => m.setFrame pfn { m.frames pfn with state := .zero }
    zeroAll rest

/-- The second half of `zero_free_pages`: the frames return as zeroed ones. -/
def returnZeroed : List ℕ → PhysM Unit
  | [] => pure ()
  | pfn :: rest => do
    addFree 1
    pushBack true pfn
    returnZeroed rest

def zeroFreePages (maximum : ℕ) : PhysM ℕ := do
  let pages ← popMany popFree (min maximum pageCacheRefill)
  zeroAll pages
  returnZeroed pages
  modify fun m => { m with zeroPages := wrappingAdd m.zeroPages pages.length }
  return pages.length

end PhysM

structure MemoryEntry where
  base : ℕ
  length : ℕ
  usable : Bool
deriving DecidableEq, Repr

def alignUp (value align : ℕ) : Except Panic ℕ :=
  match checkedAdd value (align - 1) with
  | some v => .ok (alignDown v align)
  | none => .error .alignmentOverflow

def pagesForLen (len : ℕ) : Except Panic ℕ :=
  if len = 0 then .ok 0 else (alignUp len pageSize).map (· / pageSize)

def saturatingAdd (a b : ℕ) : ℕ := min (a + b) u64Max

def usablePageRange (entry : MemoryEntry) : Except Panic (Option (ℕ × ℕ)) :=
  if !entry.usable then .ok none
  else do
    let start ← alignUp entry.base pageSize
    let limit := alignDown (saturatingAdd entry.base entry.length) pageSize
    return if start < limit then some (start, limit) else none

/-- The frame numbers of a range of bytes, in the order of its addresses. -/
def rangeFrames (range : ℕ × ℕ) : List ℕ :=
  List.range' (range.1 / pageSize) (range.2 / pageSize - range.1 / pageSize)

namespace Phys

def blank (segments : List PhysSegment) (maxPfn : ℕ) (memory : ℕ → Page) : Phys where
  segments := segments
  maxPfn := maxPfn
  frames _ := Frame.new
  memory := memory
  free := []
  zero := []
  nfree := 0
  caches _ := ⟨[], []⟩
  freePages := 0
  zeroPages := 0
  usedPages := 0

/-- The last loop of `init`: frames of the database chunk are in use, the others free. -/
def place (chunk : ℕ → Bool) : List ℕ → Phys → Except Panic Phys
  | [], m => .ok m
  | pfn :: rest, m =>
    match m.pageByIndex pfn with
    | none => .error .usableFrameMissing
    | some page =>
      if chunk page then
        place chunk rest
          { m.setFrame page { m.frames page with state := .allocated, usage := .pfnDatabase } with
            usedPages := m.usedPages + 1 }
      else
        place chunk rest
          { m.setFrame page { m.frames page with state := .free, usage := .none } with
            free := m.free ++ [page]
            freePages := m.freePages + 1 }

/-- Where `init` puts the database: its first byte and its size, with room for the page tables that
map it. A segment takes 24 bytes. -/
def chooseChunk (entryBytes : ℕ) (ranges : List (ℕ × ℕ)) : Except Panic (ℕ × ℕ) := do
  let usablePages := (ranges.map fun range => (range.2 - range.1) / pageSize).sum
  let pagedbPages ← pagesForLen (entryBytes * usablePages)
  let segmentPages ← pagesForLen (ranges.length * 24)
  let l1 := (pagedbPages + 511) / 512
  let l2 := (l1 + 511) / 512
  let l3 := (l2 + 511) / 512
  let l4 := (l3 + 511) / 512
  let chunkSize := (pagedbPages + segmentPages + (l1 + l2 + l3 + l4 + 8)) * pageSize
  match ranges.find? fun range => chunkSize ≤ range.2 - range.1 with
  | none => throw .noChunkForFrameDatabase
  | some (base, _) => return (base, chunkSize)

/-- The second half of `init`: the segments, and every usable frame in its place. -/
def populate (ranges : List (ℕ × ℕ)) (maximumPfn : ℕ) (memory : ℕ → Page) (chunk : ℕ → Bool) :
    Except Panic Phys := do
  let (segments, total) ← PhysSegment.initializeSegments
    (ranges.map fun range => ⟨range.1 / pageSize, range.2 / pageSize, 0⟩)
  if total ≠ (ranges.map fun range => (range.2 - range.1) / pageSize).sum then
    throw .invalidPhysicalSegments
  let m ← place chunk (ranges.flatMap rangeFrames) (blank segments maximumPfn memory)
  return { m with nfree := m.freePages }

/-- `phys::init`; `entryBytes` is the size of a database entry. -/
def init (entryBytes : ℕ) (mmap : List MemoryEntry) (memory : ℕ → Page) : Except Panic Phys := do
  let ranges := (← mmap.mapM usablePageRange).reduceOption
  let maxUsableEnd := ranges.foldl (fun limit range => max limit range.2) 0
  if maxUsableEnd = 0 then throw .noUsableMemory
  let maximumPfn ← pagesForLen maxUsableEnd
  if 2 ^ 32 - 1 < maximumPfn then throw .tooManyFrames
  let (base, chunkSize) ← chooseChunk entryBytes ranges
  populate ranges maximumPfn memory
    fun pfn => base ≤ pfn * pageSize ∧ pfn * pageSize < base + chunkSize

end Phys
end Roanix.Mem
