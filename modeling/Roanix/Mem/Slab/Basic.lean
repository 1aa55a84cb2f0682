import Mathlib.Data.Fin.VecNotation
import Roanix.Lib.Machine

/-! The small allocations of `alloc.rs`: slab pages with their free lists, the pools that link them,
and the magazines. A section under a magazine's lock or under a pool's lock is one step. Which CPU a
thread runs on, where the arena finds a free run, whether a frame can be had, and when a retired page
is free again are left open. A free list inside a page is the list of its slots. -/
namespace Roanix.Mem.Slab
open Lib Function

def PAGE_SIZE : ℕ := 4096
def HEAP_PAGES : ℕ := 2 ^ 32 / PAGE_SIZE
def MAGAZINE_CAPACITY : ℕ := 8
def SLAB_RESERVE : ℕ := 16
def HEADER_SIZE : ℕ := 64

/-- An index into `SIZE_CLASSES`. -/
abbrev SizeClass := Fin 9

def SIZE_CLASSES : SizeClass → ℕ := ![8, 16, 32, 64, 128, 256, 512, 1024, 2048]

/-- How many slots `init_slab_page` makes of a page. -/
def capacity (c : SizeClass) : ℕ :=
  let slotSize := SIZE_CLASSES c
  let slotsOffset := (HEADER_SIZE + slotSize - 1) / slotSize * slotSize
  (PAGE_SIZE - slotsOffset) / slotSize

theorem capacity_pos (c : SizeClass) : 0 < capacity c := by
  revert c
  decide

abbrev Slot := ℕ × ℕ

/-- `HeapPageMeta::kind`; `large` stands for `LargeHead` and `LargeTail`. -/
inductive PageKind where
  | free
  | busy
  | large
  | retired
deriving DecidableEq, Repr

/-- `SlabHeader`, with the free list that `free_head` starts. -/
@[ext] structure Header (κ : Type) where
  owner : κ
  cls : SizeClass
  freeCount : ℕ
  free : List ℕ
  prev : Option ℕ
  next : Option ℕ

/-- `SlabPool`; a first page of each list of slabs with a free slot. -/
structure Pool where
  first : SizeClass → Option ℕ
  emptyCache : SizeClass → Option ℕ
  nextPage : ℕ
  sparePages : ℕ

@[ext] structure State (κ : Type) where
  pages : ℕ → PageKind
  live : ℕ → Bool
  header : ℕ → Header κ
  pool : κ → Pool
  magazine : κ × SizeClass → List Slot
  held : List Slot
  /-- The slots on their way back to a pool: freed past the magazines, spilled or drained. -/
  returning : List (Slot × SizeClass)

namespace State
variable {κ : Type}

def setPage (s : State κ) (p : ℕ) (kind : PageKind) : State κ :=
  { s with pages := update s.pages p kind }

def setHeader (s : State κ) (p : ℕ) (h : Header κ) : State κ :=
  { s with header := update s.header p h }

variable [DecidableEq κ]

def setPool (s : State κ) (cpu : κ) (pool : Pool) : State κ :=
  { s with pool := update s.pool cpu pool }

def setFirst (s : State κ) (cpu : κ) (c : SizeClass) (p : Option ℕ) : State κ :=
  s.setPool cpu { s.pool cpu with first := update (s.pool cpu).first c p }

def setEmpty (s : State κ) (cpu : κ) (c : SizeClass) (p : Option ℕ) : State κ :=
  s.setPool cpu { s.pool cpu with emptyCache := update (s.pool cpu).emptyCache c p }

def setMagazine (s : State κ) (cpu : κ) (c : SizeClass) (l : List Slot) : State κ :=
  { s with magazine := update s.magazine (cpu, c) l }

/-- `insert_partial`. -/
def link (s : State κ) (cpu : κ) (c : SizeClass) (p : ℕ) : State κ :=
  let first := (s.pool cpu).first c
  let s := s.setHeader p { s.header p with prev := none, next := first }
  let s := match first with
    | none => s
    | some n => s.setHeader n { s.header n with prev := some p }
  s.setFirst cpu c (some p)

/-- `remove_partial`. -/
def unlink (s : State κ) (cpu : κ) (c : SizeClass) (p : ℕ) : State κ :=
  let next := (s.header p).next
  let prev := (s.header p).prev
  let s := match prev with
    | some q => s.setHeader q { s.header q with next := next }
    | none => s.setFirst cpu c next
  let s := match next with
    | some n => s.setHeader n { s.header n with prev := prev }
    | none => s
  s.setHeader p { s.header p with next := none, prev := none }

/-- `HeapArena::release_page`. -/
def release (s : State κ) (p : ℕ) : State κ :=
  { s.setPage p .retired with live := update s.live p false }

def setHeld (s : State κ) (held : List Slot) : State κ := { s with held := held }

/-- `alloc_slab` takes the first slot of a slab off its free list. -/
def takeSlot (s : State κ) (cpu : κ) (c : SizeClass) (p : ℕ) (free : List ℕ) : State κ :=
  let wasEmpty := (s.header p).freeCount = capacity (s.header p).cls
  let s := s.setHeader p { s.header p with
    free := free, freeCount := (s.header p).freeCount - 1 }
  if wasEmpty ∧ (s.pool cpu).emptyCache c = some p then s.setEmpty cpu c none else s

/-- `alloc_slab`, once it has a slab with a free slot. -/
def allocSlab (s : State κ) (cpu : κ) (c : SizeClass) (p i : ℕ) (free : List ℕ) : State κ :=
  let s := s.takeSlot cpu c p free
  let s := if (s.header p).freeCount = 0 then s.unlink cpu c p else s
  s.setHeld ((p, i) :: s.held)

/-- `dealloc_slab` puts the slot on the free list and links a slab that had none. -/
def putSlot (s : State κ) (p i : ℕ) (c : SizeClass) : State κ :=
  let cpu := (s.header p).owner
  let wasFull := (s.header p).freeCount = 0
  let s := s.setHeader p { s.header p with
    free := i :: (s.header p).free, freeCount := (s.header p).freeCount + 1 }
  if wasFull then s.link cpu c p else s

def deallocSlab (s : State κ) (p i : ℕ) (c : SizeClass) : State κ :=
  let cpu := (s.header p).owner
  let s := s.putSlot p i c
  if (s.header p).freeCount ≠ capacity (s.header p).cls then s
  else
    let cache := (s.pool cpu).emptyCache c
    if cache = none ∨ cache = some p then s.setEmpty cpu c (some p)
    else (s.unlink cpu c p).release p

/-- `grow_slab` reserves pages of the arena. -/
def reserve (s : State κ) (cpu : κ) (start count : ℕ) : State κ :=
  { s with pages := fun i => if start ≤ i ∧ i < start + count then .busy else s.pages i }.setPool
    cpu { s.pool cpu with nextPage := start, sparePages := count }

/-- `grow_slab` maps the next reserved page as a slab with all its slots free. -/
def mapSlab (s : State κ) (cpu : κ) (c : SizeClass) : State κ :=
  let p := (s.pool cpu).nextPage
  let s := s.setHeader p ⟨cpu, c, capacity c, List.range (capacity c), none, none⟩
  let s := { s with live := update s.live p true }
  s.setPool cpu { s.pool cpu with nextPage := p + 1, sparePages := (s.pool cpu).sparePages - 1 }

/-- `grow_slab`, once a page is reserved. -/
def growSlab (s : State κ) (cpu : κ) (c : SizeClass) : State κ :=
  (s.mapSlab cpu c).link cpu c (s.pool cpu).nextPage

/-- `trim` gives the reserved pages back. -/
def trimSpare (s : State κ) (cpu : κ) : State κ :=
  let start := (s.pool cpu).nextPage
  let count := (s.pool cpu).sparePages
  { s with pages := fun i => if start ≤ i ∧ i < start + count then .free else s.pages i }.setPool
    cpu { s.pool cpu with sparePages := 0 }

/-- `trim` gives the empty slab of a class back. -/
def trimEmpty (s : State κ) (cpu : κ) (c : SizeClass) (p : ℕ) : State κ :=
  ((s.unlink cpu c p).setEmpty cpu c none).release p

end State

variable {κ : Type} [DecidableEq κ]

open State in
inductive Step (s : State κ) : State κ → Prop
  /-- `allocate` finds a slot in the magazine. -/
  | hit (cpu : κ) (c : SizeClass) {slot : Slot} {rest : List Slot}
      (h : s.magazine (cpu, c) = slot :: rest) :
      Step s { s.setMagazine cpu c rest with held := slot :: s.held }
  | allocSlab (cpu : κ) (c : SizeClass) {p i : ℕ} {free : List ℕ}
      (h : (s.pool cpu).first c = some p) (hf : (s.header p).free = i :: free) :
      Step s (s.allocSlab cpu c p i free)
  /-- The growth may still fail after the run was reserved. -/
  | reserve (cpu : κ) (start count : ℕ) (h : (s.pool cpu).sparePages = 0)
      (hc : count = SLAB_RESERVE ∨ count = 1) (hb : start + count ≤ HEAP_PAGES)
      (hf : ∀ i, start ≤ i → i < start + count → s.pages i = .free) :
      Step s (s.reserve cpu start count)
  | growSlab (cpu : κ) (c : SizeClass) {i : ℕ} {free : List ℕ}
      (h : (s.pool cpu).first c = none) (hs : 0 < (s.pool cpu).sparePages)
      (hf : List.range (capacity c) = i :: free) :
      Step s ((s.growSlab cpu c).allocSlab cpu c (s.pool cpu).nextPage i free)
  /-- `cache_deallocation`: a caller returns a slot with the layout it asked for. -/
  | cache (cpu : κ) {slot : Slot} (h : slot ∈ s.held)
      (hl : (s.magazine (cpu, (s.header slot.1).cls)).length < MAGAZINE_CAPACITY) :
      Step s { s.setMagazine cpu (s.header slot.1).cls
          (slot :: s.magazine (cpu, (s.header slot.1).cls)) with held := s.held.erase slot }
  | spill (cpu : κ) {slot : Slot} (h : slot ∈ s.held)
      (hl : (s.magazine (cpu, (s.header slot.1).cls)).length = MAGAZINE_CAPACITY) :
      Step s { s.setMagazine cpu (s.header slot.1).cls
          (slot :: (s.magazine (cpu, (s.header slot.1).cls)).drop (MAGAZINE_CAPACITY / 2)) with
        held := s.held.erase slot
        returning := ((s.magazine (cpu, (s.header slot.1).cls)).take (MAGAZINE_CAPACITY / 2)).map
          (·, (s.header slot.1).cls) ++ s.returning }
  /-- `deallocate_uncached` where no magazine is in use. -/
  | uncached {slot : Slot} (h : slot ∈ s.held) :
      Step s { s with
        held := s.held.erase slot
        returning := (slot, (s.header slot.1).cls) :: s.returning }
  | deallocSlab {p i : ℕ} {c : SizeClass} (h : ((p, i), c) ∈ s.returning) :
      Step s { s.deallocSlab p i c with returning := s.returning.erase ((p, i), c) }
  /-- `drain_caches` detaches a magazine. -/
  | detach (cpu : κ) (c : SizeClass) :
      Step s { s.setMagazine cpu c [] with
        returning := (s.magazine (cpu, c)).map (·, c) ++ s.returning }
  | trimSpare (cpu : κ) : Step s (s.trimSpare cpu)
  | trimEmpty (cpu : κ) (c : SizeClass) {p : ℕ} (h : (s.pool cpu).emptyCache c = some p) :
      Step s (s.trimEmpty cpu c p)
  /-- The arena frees a page whose invalidation is done. -/
  | reclaim (p : ℕ) (h : s.pages p = .retired) : Step s (s.setPage p .free)
  /-- A large allocation takes a page, and gives it back. -/
  | largeTake (p : ℕ) (h : s.pages p = .free) : Step s (s.setPage p .large)
  | largeRetire (p : ℕ) (h : s.pages p = .large) : Step s (s.setPage p .retired)

def State.IsNew (s : State κ) : Prop :=
  (∀ p, s.pages p = .free) ∧ (∀ p, s.live p = false) ∧
    (∀ cpu, s.pool cpu = ⟨fun _ => none, fun _ => none, 0, 0⟩) ∧
    (∀ k, s.magazine k = []) ∧ s.held = [] ∧ s.returning = []

def machine (κ : Type) [DecidableEq κ] : Machine (State κ) where
  init := State.IsNew
  step := Step

end Roanix.Mem.Slab
