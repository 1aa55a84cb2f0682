import Roanix.Mem.Pool
import Roanix.Mem.Swap.Basic

/-! Physical segments of `physseg.rs`: sorted ranges of frame numbers, each with its slice of the
compact frame database. Every frame of a segment has an entry of its own. -/
namespace Roanix.Mem
open Lib

/-- `physseg::Segment`: the frames `[start, limit)`, described from entry `first` on. -/
structure PhysSegment where
  start : ℕ
  limit : ℕ
  first : ℕ
deriving DecidableEq, Repr

namespace PhysSegment
open List

variable {result segments : List PhysSegment} {count pfn previous total : ℕ}

/-- `partition_point` of a slice partitioned by the predicate. -/
def partitionPoint (segments : List PhysSegment) (p : PhysSegment → Bool) : ℕ :=
  (segments.takeWhile p).length

/-- The loop of `physseg::initialize` over the sorted segments. -/
def assign (count previous : ℕ) : List PhysSegment → Except Panic (List PhysSegment × ℕ)
  | [] => .ok ([], count)
  | segment :: rest =>
    if previous ≤ segment.start ∧ segment.start < segment.limit then
      if count + (segment.limit - segment.start) < 2 ^ 64 then
        match assign (count + (segment.limit - segment.start)) segment.limit rest with
        | .ok (rest, total) => .ok ({ segment with first := count } :: rest, total)
        | .error e => .error e
      else .error .physicalPageCountOverflow
    else .error .invalidPhysicalSegments

def initializeSegments (segments : List PhysSegment) : Except Panic (List PhysSegment × ℕ) :=
  assign 0 0 (segments.insertionSort fun a b => a.start ≤ b.start)

def lookup (segments : List PhysSegment) (pfn : ℕ) : Option ℕ :=
  match partitionPoint segments fun s => s.start ≤ pfn with
  | 0 => none
  | index + 1 =>
    match segments[index]? with
    | none => none
    | some s => if pfn < s.limit then some (s.first + pfn - s.start) else none

def next (segments : List PhysSegment) (pfn : ℕ) : Option ℕ :=
  segments[partitionPoint segments fun s => s.limit ≤ pfn]?.map fun s => max pfn s.start

def frameNumbers (segments : List PhysSegment) : List ℕ :=
  segments.flatMap fun s => List.range' s.start (s.limit - s.start)

/-- Segments in order, none empty and none overlapping, with consecutive slices. -/
inductive Laid : ℕ → ℕ → List PhysSegment → Prop
  | nil (count previous : ℕ) : Laid count previous []
  | cons {count previous : ℕ} {s : PhysSegment} {rest : List PhysSegment} (after : previous ≤ s.start)
      (nonempty : s.start < s.limit) (slice : s.first = count)
      (tail : Laid (count + (s.limit - s.start)) s.limit rest) : Laid count previous (s :: rest)

theorem mem_frameNumbers :
    pfn ∈ frameNumbers segments ↔ ∃ s ∈ segments, s.start ≤ pfn ∧ pfn < s.limit := by
  simp only [frameNumbers, mem_flatMap, mem_range'_1]
  exact exists_congr fun s => and_congr_right fun _ => by omega

theorem Laid.bounds (h : Laid count previous segments) :
    ∀ s ∈ segments, previous ≤ s.start ∧ s.start < s.limit ∧ count ≤ s.first := by
  induction h with
  | nil => simp
  | cons after nonempty slice tail ih =>
    intro s hs
    rcases mem_cons.mp hs with rfl | hs
    · exact ⟨after, nonempty, slice.ge⟩
    · obtain ⟨h1, h2, h3⟩ := ih s hs
      exact ⟨by omega, h2, by omega⟩

theorem Laid.nodup (h : Laid count previous segments) : (frameNumbers segments).Nodup := by
  induction h with
  | nil => exact nodup_nil
  | @cons count previous s rest after nonempty slice tail ih =>
    apply List.Nodup.append (nodup_range' _) ih
    intro pfn hmem hrest
    obtain ⟨t, ht, hle, -⟩ := mem_frameNumbers.mp hrest
    have := (tail.bounds t ht).1
    rw [mem_range'_1] at hmem
    omega

theorem lookup_cons (s : PhysSegment) (rest : List PhysSegment) (pfn : ℕ) :
    lookup (s :: rest) pfn =
      if s.start ≤ pfn then
        if partitionPoint rest (fun s => s.start ≤ pfn) = 0 then
          if pfn < s.limit then some (s.first + pfn - s.start) else none
        else lookup rest pfn
      else none := by
  unfold lookup partitionPoint
  by_cases hs : s.start ≤ pfn
  · rw [takeWhile_cons_of_pos (by simpa using hs), length_cons, if_pos hs]
    cases (rest.takeWhile fun s => decide (s.start ≤ pfn)).length with
    | zero | succ n => rfl
  · rw [takeWhile_cons_of_neg (by simpa using hs), if_neg hs]
    rfl

theorem partitionPoint_eq_zero {p : PhysSegment → Bool} :
    partitionPoint segments p = 0 ↔ ∀ s, segments.head? = some s → p s = false := by
  unfold partitionPoint
  cases segments with
  | nil => simp
  | cons s rest => cases h : p s <;> simp [h]

theorem Laid.lookup_eq_some (h : Laid count previous segments) (pfn index : ℕ) :
    lookup segments pfn = some index ↔
      ∃ s ∈ segments, s.start ≤ pfn ∧ pfn < s.limit ∧ index = s.first + pfn - s.start := by
  induction h with
  | nil => simp [lookup, partitionPoint]
  | @cons count previous s rest after nonempty slice tail ih =>
    have hrest (hp : partitionPoint rest (fun s => s.start ≤ pfn) = 0) :
        ¬ ∃ t ∈ rest, t.start ≤ pfn ∧ pfn < t.limit ∧ index = t.first + pfn - t.start := by
      -- the first remaining segment starts above the frame, and so do the later ones
      rintro ⟨t, ht, hle, _⟩
      cases tail with
      | nil => simp at ht
      | @cons _ _ u us _ hu _ htail =>
        have := partitionPoint_eq_zero.mp hp u rfl
        rw [decide_eq_false_iff_not] at this
        rcases mem_cons.mp ht with rfl | ht
        · omega
        · have := (htail.bounds t ht).1
          omega
    rw [lookup_cons]
    simp only [mem_cons, exists_eq_or_imp]
    split_ifs with hs hp hlt
    · rw [or_iff_left (hrest hp), Option.some.injEq, eq_comm]
      exact ⟨fun h => ⟨hs, hlt, h⟩, fun h => h.2.2⟩
    · simp only [hrest hp, or_false, false_iff]
      omega
    · rw [ih, iff_or_self]
      rintro ⟨_, hlt, _⟩
      exfalso
      apply hp
      rw [partitionPoint_eq_zero]
      intro t ht
      have := (tail.bounds t (mem_of_mem_head? ht)).1
      rw [decide_eq_false_iff_not]
      omega
    · simp only [false_iff]
      intro h
      rcases h with h | ⟨t, ht, hle, -⟩
      · omega
      · have := (tail.bounds t ht).1
        omega

theorem Laid.isSome_lookup (h : Laid count previous segments) (pfn : ℕ) :
    (lookup segments pfn).isSome ↔ pfn ∈ frameNumbers segments := by
  simp only [Option.isSome_iff_exists, h.lookup_eq_some, mem_frameNumbers]
  constructor
  · rintro ⟨_, s, hs, hle, hlt, _⟩
    exact ⟨s, hs, hle, hlt⟩
  · rintro ⟨s, hs, hle, hlt⟩
    exact ⟨_, s, hs, hle, hlt, rfl⟩

theorem Laid.next_le (h : Laid count previous segments) {start : ℕ} (hle : start ≤ pfn)
    (hp : pfn ∈ frameNumbers segments) : ∃ found, next segments start = some found ∧ found ≤ pfn := by
  induction h with
  | nil => simp [frameNumbers] at hp
  | @cons _ _ s rest after nonempty slice tail ih =>
    unfold next partitionPoint
    by_cases hs : s.limit ≤ start
    · rw [takeWhile_cons_of_pos (by simpa using hs), length_cons]
      refine ih (mem_frameNumbers.mpr ?_)
      obtain ⟨t, ht, hfrom, hto⟩ := mem_frameNumbers.mp hp
      rcases mem_cons.mp ht with rfl | ht
      · omega
      · exact ⟨t, ht, hfrom, hto⟩
    · rw [takeWhile_cons_of_neg (by simpa using hs)]
      refine ⟨max start s.start, rfl, max_le hle ?_⟩
      obtain ⟨t, ht, hfrom, -⟩ := mem_frameNumbers.mp hp
      rcases mem_cons.mp ht with rfl | ht
      · exact hfrom
      · have := (tail.bounds t ht).1
        omega

theorem assign_spec (h : assign count previous segments = .ok (result, total))
    (hcount : count < 2 ^ 64) :
    Laid count previous result ∧ frameNumbers result = frameNumbers segments ∧
      total = count + (frameNumbers result).length ∧ total < 2 ^ 64 := by
  induction segments generalizing count previous result total with
  | nil =>
    obtain ⟨rfl, rfl⟩ : [] = result ∧ count = total := by simpa [assign] using h
    exact ⟨.nil _ _, rfl, rfl, hcount⟩
  | cons s rest ih =>
    unfold assign at h
    split_ifs at h with horder hfits
    split at h
    · rename_i rest' total' hrest
      obtain ⟨rfl, rfl⟩ : { s with first := count } :: rest' = result ∧ total' = total := by
        simpa using h
      obtain ⟨hlaid, hframes, htotal, hlt⟩ := ih hrest hfits
      have hlaid' : Laid count previous ({ s with first := count } :: rest') :=
        .cons horder.1 horder.2 rfl hlaid
      have hcons : frameNumbers ({ s with first := count } :: rest') = frameNumbers (s :: rest) := by
        simp only [frameNumbers, flatMap_cons] at hframes ⊢
        rw [hframes]
      have hlength : (frameNumbers ({ s with first := count } :: rest')).length =
          s.limit - s.start + (frameNumbers rest').length := by
        simp [frameNumbers]
      exact ⟨hlaid', hcons, by omega, hlt⟩
    · cases h

/-- The table of segments describes the frames it was built from, each once. -/
theorem initializeSegments_spec (h : initializeSegments segments = .ok (result, total)) :
    Laid 0 0 result ∧ (frameNumbers result).Perm (frameNumbers segments) ∧
      total = (frameNumbers result).length ∧ total < 2 ^ 64 := by
  obtain ⟨hlaid, hframes, htotal, hlt⟩ := assign_spec h (Nat.two_pow_pos 64)
  have hperm := perm_insertionSort (fun a b : PhysSegment => a.start ≤ b.start) segments
  rw [zero_add] at htotal
  exact ⟨hlaid, hframes ▸ hperm.flatMap_right _, htotal, hlt⟩

end PhysSegment

/-! The physical page allocator of `phys.rs`: the frame database, the shared lists of free and of
zeroed frames, one cache of each kind for every CPU, and the counters. A database entry is named
by its frame number; replacement queues and owner pointers are not modelled. -/
inductive PageState where
  | reserved
  | free
  | zero
  | allocated
deriving DecidableEq, Repr

inductive PageUse where
  | none
  | managed
  | kernelHeap
  | pageTable
  | pfnDatabase
  | reserved
deriving DecidableEq, Repr

inductive PageOwnerKind where
  | none
  | anonymous
  | file
  | kernel
deriving DecidableEq, Repr

/-- The database entry of one frame. -/
structure Frame where
  state : PageState
  usage : PageUse
  ownerKind : PageOwnerKind
  flags : ℕ
  wireCount : ℕ
  loanCount : ℕ
  mapCount : ℕ
deriving DecidableEq, Repr

def Frame.new : Frame where
  state := .reserved
  usage := .reserved
  ownerKind := .none
  flags := 0
  wireCount := 0
  loanCount := 0
  mapCount := 0

def maxPageCpus : ℕ := 256

def pageCacheCapacity : ℕ := 16

def pageCacheRefill : ℕ := 8

/-- Two stacks of frame numbers, the last pushed first. -/
structure PageCache where
  dirty : List ℕ
  zero : List ℕ
deriving DecidableEq, Repr

def PageCache.slots (cache : PageCache) (zero : Bool) : List ℕ :=
  if zero then cache.zero else cache.dirty

def PageCache.setSlots (cache : PageCache) (zero : Bool) (slots : List ℕ) : PageCache :=
  if zero then { cache with zero := slots } else { cache with dirty := slots }

/-- The allocator with the contents of the frames. -/
structure Phys where
  segments : List PhysSegment
  maxPfn : ℕ
  frames : ℕ → Frame
  memory : ℕ → Page
  free : List ℕ
  zero : List ℕ
  nfree : ℕ
  caches : Fin maxPageCpus → PageCache
  freePages : ℕ
  zeroPages : ℕ
  usedPages : ℕ

namespace Phys

def queue (m : Phys) (zero : Bool) : List ℕ := if zero then m.zero else m.free

def setQueue (m : Phys) (zero : Bool) (queue : List ℕ) : Phys :=
  { m with free := if zero then m.free else queue, zero := if zero then queue else m.zero }

def setCache (m : Phys) (id : Fin maxPageCpus) (zero : Bool) (slots : List ℕ) : Phys :=
  { m with caches := Function.update m.caches id ((m.caches id).setSlots zero slots) }

def setFrame (m : Phys) (pfn : ℕ) (frame : Frame) : Phys :=
  { m with frames := Function.update m.frames pfn frame }

def recordAllocated (m : Phys) (count zeroed : ℕ) : Phys :=
  { m with
    freePages := wrappingSub m.freePages count
    usedPages := wrappingAdd m.usedPages count
    zeroPages := wrappingSub m.zeroPages zeroed }

def recordFreed (m : Phys) (zeroed : Bool) : Phys :=
  { m with
    usedPages := wrappingSub m.usedPages 1
    freePages := wrappingAdd m.freePages 1
    zeroPages := wrappingAdd m.zeroPages zeroed.toNat }

def Linked (m : Phys) (pfn : ℕ) : Prop := pfn ∈ m.free ∨ pfn ∈ m.zero

instance (m : Phys) (pfn : ℕ) : Decidable (m.Linked pfn) :=
  inferInstanceAs (Decidable (pfn ∈ m.free ∨ pfn ∈ m.zero))

def pageByIndex (m : Phys) (pfn : ℕ) : Option ℕ :=
  (PhysSegment.lookup m.segments pfn).map fun _ => pfn

def IsLinkedFree (m : Phys) (pfn : ℕ) : Prop :=
  ((m.frames pfn).state = .free ∨ (m.frames pfn).state = .zero) ∧ m.Linked pfn

instance (m : Phys) (pfn : ℕ) : Decidable (m.IsLinkedFree pfn) :=
  inferInstanceAs (Decidable (_ ∧ _))

end Phys

/-- Who asks: its CPU, the number of CPUs, and whether it is a kernel thread or the page daemon. -/
structure Caller where
  cpu : ℕ
  cpus : ℕ
  kernel : Bool
  daemon : Bool
deriving DecidableEq, Repr

structure PageAllocFlags where
  zero : Bool
  useReserve : Bool
deriving DecidableEq, Repr

def PageUse.Dynamic (usage : PageUse) : Prop :=
  usage ≠ .none ∧ usage ≠ .reserved ∧ usage ≠ .pfnDatabase

instance (usage : PageUse) : Decidable usage.Dynamic := inferInstanceAs (Decidable (_ ∧ _ ∧ _))

inductive Access where
  | denied
  | single
  | fill
deriving DecidableEq, Repr

def kernelPagesPerCpu : ℕ := 5

def daemonPages : ℕ := 1

def access (free cpus : ℕ) (useReserve daemon : Bool) : Access :=
  if free = 0 then .denied
  else if free ≤ kernelPagesPerCpu * max cpus 1 then
    if !useReserve || (free ≤ daemonPages && !daemon) then .denied else .single
  else .fill

/-- `usize::next_multiple_of`. -/
def alignIndex (index align : ℕ) : ℕ := (index + (align - 1)) / align * align

def freeState (zero : Bool) : PageState := if zero then .zero else .free

abbrev PhysM := Act Error Panic Phys

namespace PhysM
open Act

def cacheId (cpu : ℕ) : PhysM (Fin maxPageCpus) :=
  if h : cpu < maxPageCpus then pure ⟨cpu, h⟩ else stop .cpuBeyondPageCaches

def cachePop (id : Fin maxPageCpus) (zero : Bool) : PhysM (Option ℕ) := do
  match ((← get).caches id).slots zero with
  | [] => return none
  | pfn :: rest => do
    modify fun m => m.setCache id zero rest
    return some pfn

def cachePush (id : Fin maxPageCpus) (pfn : ℕ) (zero : Bool) : PhysM Bool := do
  let m ← get
  if ((m.caches id).slots zero).length = pageCacheCapacity then return false
  else do
    set (m.setCache id zero (pfn :: (m.caches id).slots zero))
    return true

def popFront (zero : Bool) : PhysM (Option ℕ) := do
  match (← get).queue zero with
  | [] => return none
  | pfn :: rest => do
    modify fun m => m.setQueue zero rest
    return some pfn

/-- An intrusive list refuses a frame that is already on one. -/
def pushBack (zero : Bool) (pfn : ℕ) : PhysM Unit := do
  check (¬ (← get).Linked pfn) .pageLinked
  modify fun m => m.setQueue zero (m.queue zero ++ [pfn])

def pushFront (zero : Bool) (pfn : ℕ) : PhysM Unit := do
  check (¬ (← get).Linked pfn) .pageLinked
  modify fun m => m.setQueue zero (pfn :: m.queue zero)

def addFree (count : ℕ) : PhysM Unit := modify fun m => { m with nfree := m.nfree + count }

def subFree (count : ℕ) : PhysM Unit := do
  check (count ≤ (← get).nfree) .arithmeticOverflow
  modify fun m => { m with nfree := m.nfree - count }

def popEither (pop : Bool → PhysM (Option ℕ)) (zero : Bool) : PhysM (Option (ℕ × Bool)) := do
  match ← pop zero with
  | some pfn => return some (pfn, zero)
  | none =>
    match ← pop !zero with
    | some pfn => return some (pfn, !zero)
    | none => return none

def named (entry : Option (ℕ × Bool)) : PhysM (Option (ℕ × Bool)) := do
  match entry with
  | none => return none
  | some (pfn, zero) => return ((← get).pageByIndex pfn).map fun page => (page, zero)

def popCache (id : Fin maxPageCpus) (wantZero : Bool) : PhysM (Option (ℕ × Bool)) := do
  let entry ← popEither (cachePop id) wantZero
  named entry

def refillRounds (caller : Caller) (id : Fin maxPageCpus) (wantZero useReserve : Bool) :
    ℕ → PhysM Unit
  | 0 => pure ()
  | n + 1 => do
    let granted := access (← get).nfree caller.cpus useReserve caller.daemon
    if granted = .denied then return ()
    else
      match ← popEither popFront wantZero with
      | none => return ()
      | some (pfn, zero) => do
        subFree 1
        if ← cachePush id pfn zero then
          -- near a reserve only the requested page is taken
          if granted = .single then return ()
          else refillRounds caller id wantZero useReserve n
        else do
          addFree 1
          pushFront zero pfn

def refillCache (caller : Caller) (id : Fin maxPageCpus) (wantZero useReserve : Bool) :
    PhysM Unit :=
  refillRounds caller id wantZero useReserve pageCacheRefill

/-- `steal_cached_page`, over the caches still to be tried. -/
def stealFrom (localId : Fin maxPageCpus) (wantZero : Bool) :
    List (Fin maxPageCpus) → PhysM (Option (ℕ × Bool))
  | [] => return none
  | id :: rest => do
    if id = localId then stealFrom localId wantZero rest
    else
      match ← popEither (cachePop id) wantZero with
      | some entry => named (some entry)
      | none => stealFrom localId wantZero rest

def stealCachedPage (localId : Fin maxPageCpus) (wantZero : Bool) : PhysM (Option (ℕ × Bool)) :=
  stealFrom localId wantZero (List.finRange maxPageCpus)

def takePage (caller : Caller) (wantZero useReserve : Bool) : PhysM (Option (ℕ × Bool)) := do
  let id ← cacheId caller.cpu
  match ← popCache id wantZero with
  | some entry => return some entry
  | none => do
    refillCache caller id wantZero useReserve
    match ← popCache id wantZero with
    | some entry => return some entry
    | none => stealCachedPage id wantZero

def prepareAllocation (usage : PageUse) (pfn : ℕ) : PhysM Unit := do
  let m ← get
  check ((m.frames pfn).state = .free ∨ (m.frames pfn).state = .zero) .pageNotFree
  check (¬ m.Linked pfn) .pageLinked
  set (m.setFrame pfn
    { state := .allocated, usage := usage, ownerKind := .none, flags := 0
      wireCount := 0, loanCount := 0, mapCount := 0 })

def prepareFree (pfn : ℕ) (zeroed : Bool) : PhysM Unit := do
  let m ← get
  let frame := m.frames pfn
  check (frame.state = .allocated) .pageNotAllocated
  check (frame.ownerKind = .none) .pageStillOwned
  check (frame.wireCount = 0) .pageStillReferenced
  check (frame.loanCount = 0) .pageStillReferenced
  check (frame.mapCount = 0) .pageStillReferenced
  check (¬ m.Linked pfn) .pageLinked
  set (m.setFrame pfn
    { frame with state := freeState zeroed, usage := .none, ownerKind := .none, flags := 0 })

def countAllocated (count zeroed : ℕ) : PhysM Unit := modify fun m => m.recordAllocated count zeroed

def countFreed (zeroed : Bool) : PhysM Unit := modify fun m => m.recordFreed zeroed

def zeroPage (pfn : ℕ) : PhysM Unit :=
  modify fun m => { m with memory := Function.update m.memory pfn default }

def zeroPageIf (needed : Bool) (pfn : ℕ) : PhysM Unit := if needed then zeroPage pfn else pure ()

def allocPage (caller : Caller) (usage : PageUse) (flags : PageAllocFlags) : PhysM (Option ℕ) := do
  check usage.Dynamic .invalidPageUse
  match ← takePage caller flags.zero (flags.useReserve || caller.kernel) with
  | none => return none
  | some (pfn, wasZero) => do
    countAllocated 1 wasZero.toNat
    prepareAllocation usage pfn
    zeroPageIf (flags.zero && !wasZero) pfn
    return some pfn

end PhysM
end Roanix.Mem
