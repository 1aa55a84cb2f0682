import Mathlib.Data.Int.Basic
import Roanix.Lib.Dense
import Roanix.Lib.Runs
import Roanix.Mem.Addr
import Roanix.Mem.Pool

/-! Anonymous maps of `anon.rs`: the slots of a private mapping, the list of occupied slots with
their positions, how many references cover each slot, and the operations on a reference. Arrays are
functions together with their length; an access beyond the length stops, and so does a subtraction
below zero. Counts and lengths stay far below the bounds of the source's 32-bit cells: the reference
total is checked against them, and no array is longer than the largest metadata class. -/
namespace Roanix.Mem
open Lib Function

inductive PartialReferences where
  | unestablished
  | disabled
  | counts (cells : ℕ → ℤ)

/-- `AmapState`; `capacity` is the length of its arrays. -/
structure Amap (α : Type) where
  nslot : ℕ
  references : ℕ
  shared : Bool
  capacity : ℕ
  slots : ℕ → Option α
  used : List ℕ
  back : ℕ → ℕ
  counts : PartialReferences

structure MapRef where
  offset : ℕ
  length : ℕ
deriving DecidableEq, Repr

structure AmapCell (α : Type) where
  amap : Amap α
  supply : Supply

abbrev AmapM (α : Type) := Act Error Panic (AmapCell α)

def sizeClass (bytes : ℕ) : Option ℕ :=
  [64, 128, 256, 512, 1024, 2048, 3072].find? fun size => bytes ≤ size

/-- One request to the metadata classes; larger layouts are refused outright. -/
def Supply.request (supply : Supply) (bytes : ℕ) : Bool × Supply :=
  if bytes = 0 then (true, supply)
  else if 3072 < bytes then (false, supply)
  else supply.draw

namespace Amap
variable {α : Type}

def blank (length capacity : ℕ) : Amap α where
  nslot := length
  references := 1
  shared := false
  capacity := capacity
  slots _ := none
  used := []
  back _ := 0
  counts := .unestablished

/-- `AmapState::allocate`: arrays of 4, 8 and 4 bytes a cell, requested in this order. -/
def allocate (length : ℕ) (supply : Supply) : Except Error (Amap α) × Supply :=
  match sizeClass (length * 4) with
  | none => (.error .outOfMemory, supply)
  | some bytes =>
    let capacity := bytes / 4
    let (used, supply) := supply.request (capacity * 4)
    if !used then (.error .outOfMemory, supply)
    else
      let (slots, supply) := supply.request (capacity * 8)
      if !slots then (.error .outOfMemory, supply)
      else
        let (back, supply) := supply.request (capacity * 4)
        if !back then (.error .outOfMemory, supply)
        else (.ok (blank length capacity), supply)

end Amap

/-- `AnonymousMap::with_owner`: the state, then the shared cell around it. -/
def AnonymousMap.withOwner {α : Type} (pages : ℕ) (supply : Supply) :
    Except Error (Amap α × MapRef) × Supply :=
  if 2 ^ 32 - 1 < pages then (.error .outOfMemory, supply)
  else match Amap.allocate pages supply with
    | (.error e, supply) => (.error e, supply)
    | (.ok m, supply) =>
      let (granted, supply) := supply.draw
      if granted then (.ok (m, { offset := 0, length := pages }), supply)
      else (.error .outOfMemory, supply)

/-- `AnonymousMap::allocate`: a new owner lock first. -/
def AnonymousMap.allocate {α : Type} (pages : ℕ) (supply : Supply) :
    Except Error (Amap α × MapRef) × Supply :=
  let (granted, supply) := supply.draw
  if granted then AnonymousMap.withOwner pages supply else (.error .outOfMemory, supply)

def largePages : ℕ := 256

namespace AmapM
open Act
variable {α : Type}

def amap : AmapM α (Amap α) := do return (← get).amap

def modifyAmap (f : Amap α → Amap α) : AmapM α Unit := modify fun s => { s with amap := f s.amap }

def bound (index : ℕ) : AmapM α Unit := do check (index < (← amap).capacity) .indexOutOfBounds

def insert (index : ℕ) (slot : α) : AmapM α Unit := do
  bound index
  modifyAmap fun m =>
    let m :=
      if m.slots index = none then
        { m with back := update m.back index m.used.length, used := m.used ++ [index] }
      else m
    { m with slots := update m.slots index (some slot) }

/-- Swap the last used index into the removed index's place. -/
def remove (index : ℕ) : AmapM α Unit := do
  bound index
  let m ← amap
  if m.slots index = none then return ()
  let position := m.back index
  check (position < m.used.length) .indexOutOfBounds
  let used := swapRemove m.used position
  modifyAmap fun m => { m with used := used }
  match used[position]? with
  | some moved => do
    bound moved
    modifyAmap fun m => { m with back := update m.back moved position }
  | none => pure ()
  modifyAmap fun m => { m with slots := update m.slots index none }

def removeRange (start : ℕ) : ℕ → AmapM α Unit
  | 0 => pure ()
  | n + 1 => do
    remove start
    removeRange (start + 1) n

/-- The traversal of `wipe` over the used list, from a position on. -/
def removeUsed (start limit : ℕ) : ℕ → ℕ → AmapM α Unit
  | 0, position => do check ((← amap).used.length ≤ position) .endlessList
  | fuel + 1, position => do
    match (← amap).used[position]? with
    | none => pure ()
    | some index =>
      if start ≤ index ∧ index < limit then
        remove index
        removeUsed start limit fuel position
      else
        removeUsed start limit fuel (position + 1)

/-- Choose the cheaper of slot and used-index traversal. -/
def wipe (start length : ℕ) : AmapM α Unit := do
  let m ← amap
  if length < m.used.length then removeRange start length
  else removeUsed start (start + length) m.used.length 0

def checkedSub (a b : ℕ) : AmapM α ℕ := do
  check (b ≤ a) .arithmeticOverflow
  return a - b

def checkedSub₂ (a b c : ℕ) : AmapM α ℕ := do checkedSub (← checkedSub a b) c

/-- `get_run` with the bounds of the array. -/
def readRun (cells : ℕ → ℤ) (p : ℕ) : AmapM α (ℤ × ℕ) := do
  bound p
  if 0 < cells p then pure () else bound (p + 1)
  return getRun cells p

/-- `set_run` with the bounds of the array. -/
def writeRun (cells : ℕ → ℤ) (p : ℕ) (refs : ℤ) (n : ℕ) : AmapM α (ℕ → ℤ) := do
  if n = 0 then return cells
  bound (p + (if n = 1 then 0 else 1))
  return setRun cells p refs n

/-- `array::<i32>(length)`: one request of 4 bytes a cell. -/
def requestCounts (length : ℕ) : AmapM α Bool := do
  let s ← get
  let (granted, supply) := s.supply.request (length * 4)
  set { s with supply := supply }
  return granted

/-- Without storage for the counts, unused slots are kept rather than the caller failed. -/
def establish (offset : ℕ) : AmapM α Unit := do
  let m ← amap
  match m.counts with
  | .unestablished =>
    if ← requestCounts m.capacity then
      let cells ← writeRun (fun _ => 0) 0 0 offset
      let cells ← writeRun cells offset m.references (← checkedSub m.nslot offset)
      modifyAmap fun m => { m with counts := .counts cells }
    else modifyAmap fun m => { m with counts := .disabled }
  | _ => pure ()

def resetSingleCoverage (offset length : ℕ) : AmapM α Unit := do
  let m ← amap
  match m.counts with
  | .counts cells =>
    let cells ← writeRun cells 0 0 offset
    let cells ← writeRun cells offset 1 length
    let tail ← checkedSub₂ m.nslot offset length
    let cells ← writeRun cells (offset + length) 0 tail
    modifyAmap fun m => { m with counts := .counts cells }
  | _ => pure ()

/-- First loop of `adjust`: walk to `start`, splitting the run that contains it. Returns the
cells, the position reached and the position of the run before it. -/
def seekRun (start : ℕ) : ℕ → (ℕ → ℤ) → ℕ → ℕ → AmapM α ((ℕ → ℤ) × ℕ × ℕ)
  | 0, cells, current, previous => do
    check (start ≤ current) .endlessList
    return (cells, current, previous)
  | fuel + 1, cells, current, previous => do
    if start ≤ current then return (cells, current, previous)
    else
      let (refs, run) ← readRun cells current
      if start < current + run then
        let cells ← writeRun cells current refs (start - current)
        let cells ← writeRun cells start refs (run - (start - current))
        seekRun start fuel cells start current
      else
        seekRun start fuel cells (current + run) current

/-- The run at `current`, cut off at `limit`: the cells, its count and its length. -/
def cutRun (limit : ℕ) (cells : ℕ → ℤ) (current : ℕ) : AmapM α ((ℕ → ℤ) × ℤ × ℕ) := do
  let (refs, run) ← readRun cells current
  if limit < current + run then
    let cells ← writeRun cells current refs (limit - current)
    let cells ← writeRun cells limit refs (run - (limit - current))
    return (cells, refs, limit - current)
  else return (cells, refs, run)

/-- Store a changed run, joined with the run before it when the counts agree. -/
def writeAdjusted (cells : ℕ → ℤ) (previous : ℕ) (previousRefs : ℤ) (previousLen current : ℕ)
    (refs : ℤ) (run : ℕ) : AmapM α (ℕ → ℤ) :=
  if current = previous + previousLen ∧ refs = previousRefs then
    writeRun cells previous refs (previousLen + run)
  else writeRun cells current refs run

def wipeUnreferenced (refs : ℤ) (start length : ℕ) : AmapM α Unit :=
  if refs = 0 then wipe start length else pure ()

/-- The run before `current`, or none that could be joined. -/
def previousRun (cells : ℕ → ℤ) (current previous : ℕ) : AmapM α (ℤ × ℕ) :=
  if current = 0 then pure (-1, 0) else readRun cells previous

/-- Second loop of `adjust`: change every run up to `limit`, splitting the last one, joining the
first with the run before it when the counts agree, and wiping what is no longer covered. -/
def adjustRuns (limit : ℕ) (delta : ℤ) (previous : ℕ) (previousRefs : ℤ) (previousLen : ℕ) :
    ℕ → ℕ → AmapM α Unit
  | 0, current => check (limit ≤ current) .endlessList
  | fuel + 1, current => do
    if limit ≤ current then return ()
    else match (← amap).counts with
    | .counts cells =>
      let (cells, refs, run) ← cutRun limit cells current
      let refs := refs + delta
      check (0 ≤ refs ∧ refs ≤ (← amap).references) .partialReferenceRange
      let cells ← writeAdjusted cells previous previousRefs previousLen current refs run
      modifyAmap fun m => { m with counts := .counts cells }
      wipeUnreferenced refs current run
      adjustRuns limit delta previous previousRefs previousLen fuel (current + run)
    | _ => stop .unreachableCode

def adjust (start length : ℕ) (delta : ℤ) : AmapM α Unit := do
  match (← amap).counts with
  | .counts cells =>
    let (cells, current, previous) ← seekRun start start cells 0 0
    modifyAmap fun m => { m with counts := .counts cells }
    let (previousRefs, previousLen) ← previousRun cells current previous
    adjustRuns (start + length) delta previous previousRefs previousLen length current
  | _ => pure ()

def addReference (originalOffset offset length : ℕ) : AmapM α Unit := do
  let m ← amap
  check (0 < m.references ∧ offset + length ≤ m.capacity) .amapNotReferenced
  establish originalOffset
  check (m.references + 1 < 2 ^ 31 - 1) .amapReferenceOverflow
  modifyAmap fun m => { m with references := m.references + 1 }
  adjust offset length 1

def clone (r : MapRef) : AmapM α MapRef := do
  addReference r.offset r.offset r.length
  return r

/-- Adds a reference to a part of the range; clipping copies no slots. -/
def clipped (r : MapRef) (offset count : ℕ) : AmapM α MapRef := do
  check (r.offset ≤ offset ∧ offset + count ≤ r.offset + r.length) .clipOutsideReference
  addReference r.offset offset count
  return { offset := offset, length := count }

def drop (r : MapRef) : AmapM α Unit := do
  let m ← amap
  check (m.references ≠ 0) .amapReferenceUnderflow
  if m.references = 1 then
    modifyAmap fun m => { m with references := 0 }
    wipe 0 m.capacity
  else
    establish r.offset
    modifyAmap fun m => { m with
      shared := if m.references = 2 then false else m.shared
      references := m.references - 1 }
    adjust r.offset r.length (-1)

/-- `extend` of a map without counts first empties what its only reference does not cover. -/
def wipeUncovered (r : MapRef) : AmapM α Unit := do
  match (← amap).counts with
  | .disabled =>
    wipe 0 r.offset
    let tail ← checkedSub (← amap).nslot (r.offset + r.length)
    wipe (r.offset + r.length) tail
  | _ => pure ()

/-- The slots of the range, last one first, to their places from `area` on. -/
def moveSlots (offset area : ℕ) : ℕ → AmapM α Unit
  | 0 => pure ()
  | n + 1 => do
    bound (offset + n)
    bound (area + n)
    modifyAmap fun m => { m with
      slots := Function.update (Function.update m.slots (offset + n) none) (area + n)
        (m.slots (offset + n)) }
    moveSlots offset area n

/-- `extend` backwards within the arrays: the range moves to their end. -/
def extendBelow (r : MapRef) (added : ℕ) : AmapM α MapRef := do
  let capacity := (← amap).capacity
  let area ← checkedSub capacity r.length
  moveSlots r.offset area r.length
  check (r.offset + r.length ≤ capacity ∧ area + r.length ≤ capacity) .indexOutOfBounds
  let shift ← checkedSub area r.offset
  modifyAmap fun m => { m with
    back := fun i => if area ≤ i ∧ i < area + r.length then m.back (i - area + r.offset)
      else m.back i
    used := m.used.map (· + shift) }
  let offset ← checkedSub area added
  modifyAmap fun m => { m with nslot := capacity }
  resetSingleCoverage offset (r.length + added)
  return { offset := offset, length := r.length + added }

def coverBeyond (nslot need : ℕ) : AmapM α Unit := do
  match (← amap).counts with
  | .counts cells =>
    let cells ← writeRun cells nslot 1 (← checkedSub need nslot)
    modifyAmap fun m => { m with counts := .counts cells }
  | _ => pure ()

/-- `extend` forwards within the arrays. -/
def extendAbove (r : MapRef) (added need : ℕ) : AmapM α MapRef := do
  let nslot := (← amap).nslot
  if r.offset + r.length < nslot then
    adjust (r.offset + r.length) (nslot - (r.offset + r.length)) 1
  coverBeyond nslot need
  modifyAmap fun m => { m with nslot := need }
  return { r with length := r.length + added }

/-- Move the used slots of the old arrays, last one first, into the new ones. -/
def moveUsed (capacity shift : ℕ) : (ℕ → Option α) → List ℕ → AmapM α Unit
  | _, [] => pure ()
  | slots, index :: rest => do
    check (index < capacity) .indexOutOfBounds
    match slots index with
    | none => stop .missingUsedAnon
    | some slot =>
      insert (index + shift) slot
      moveUsed capacity shift (Function.update slots index none) rest

def allocateState (length : ℕ) : AmapM α (Amap α) := do
  let s ← get
  let (result, supply) := Amap.allocate length s.supply
  set { s with supply := supply }
  match result with
  | .ok m => return m
  | .error e => fail e

def replaceCounts (capacity : ℕ) : PartialReferences → AmapM α PartialReferences
  | .counts _ => do
    if ← requestCounts capacity then return .counts fun _ => 0 else return .disabled
  | .disabled => pure .disabled
  | .unestablished => pure .unestablished

/-- `capacity - length - k` when extending backwards, where the range ends with the arrays. -/
def fromEnd (backwards : Bool) (capacity length k other : ℕ) : AmapM α ℕ :=
  if backwards then checkedSub₂ capacity length k else pure other

/-- `extend` with new arrays, kept below the threshold of large maps. -/
def extendReplace (r : MapRef) (added need : ℕ) (backwards : Bool) : AmapM α MapRef := do
  if largePages ≤ need then fail .outOfMemory
  else
    let replacement ← allocateState need
    let old ← amap
    let counts ← replaceCounts replacement.capacity old.counts
    check (old.references = 1) .extendOfSharedAmap
    let capacity := replacement.capacity
    let shift ← fromEnd backwards capacity r.length r.offset 0
    modifyAmap fun _ => { replacement with counts := counts, shared := old.shared }
    moveUsed old.capacity shift old.slots old.used.reverse
    let offset ← fromEnd backwards capacity r.length added r.offset
    modifyAmap fun m => { m with nslot := if backwards then capacity else m.nslot }
    resetSingleCoverage offset (r.length + added)
    return { offset := offset, length := r.length + added }

/-- An exclusive reference may extend into unused slots, activate preallocated slots, or
replace the arrays. -/
def extend (r : MapRef) (added : ℕ) (backwards : Bool) : AmapM α MapRef := do
  if (← amap).references ≠ 1 then fail .alreadyMapped
  else
    wipeUncovered r
    match checkedAdd (if backwards then r.length else r.offset + r.length) added with
    | none => fail .outOfMemory
    | some need =>
      let m ← amap
      if backwards = false ∧ need ≤ m.nslot then
        adjust (r.offset + r.length) added 1
        return { r with length := r.length + added }
      else if backwards ∧ added ≤ r.offset then
        adjust (r.offset - added) added 1
        return { offset := r.offset - added, length := r.length + added }
      else if need ≤ m.capacity then
        if backwards then extendBelow r added else extendAbove r added need
      else extendReplace r added need backwards

/-- `AnonymousMap::commit`; `install` is the caller's page-table step, which may fail. -/
def commit [DecidableEq α] (index : ℕ) (expected replacement : Option α)
    (install : Except Error Unit) : AmapM α Bool := do
  let m ← amap
  if m.references = 0 ∨ m.nslot ≤ index ∨ m.capacity ≤ index then return false
  if m.slots index ≠ expected then return false
  match install with
  | .error e => fail e
  | .ok () =>
    match replacement with
    | some slot => insert index slot
    | none => pure ()
    return true

end AmapM
end Roanix.Mem
