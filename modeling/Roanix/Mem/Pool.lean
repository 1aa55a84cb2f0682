import Roanix.Lib.Act
import Roanix.Lib.Index

/-! Metadata reservation. Index nodes come from nonblocking pools that may be exhausted at any
request, so a computation carries the answers the pools will give; nodes are reserved under a
key before a change and published under that key afterwards. -/
namespace Roanix.Mem
open Lib

/-- The failed internal assertions of the memory subsystem. -/
inductive Panic where
  | invalidQuantum
  | missingBoundaryTag
  | doubleFree
  | reservedRangeNotFree
  | danglingLink
  | endlessList
  | missingListHead
  | insertionWithoutReservation
  | reservationKeyMismatch
  | indexOutOfBounds
  | arithmeticOverflow
  | unreachableCode
  | partialReferenceRange
  | amapReferenceUnderflow
  | amapReferenceOverflow
  | amapNotReferenced
  | clipOutsideReference
  | extendOfSharedAmap
  | missingUsedAnon
  | swapSlotInUse
  | swapFreeListFull
  | residentTransitionDuringSwapIo
  | alignmentOverflow
  | invalidPhysicalSegments
  | physicalPageCountOverflow
  | usableFrameMissing
  | noUsableMemory
  | tooManyFrames
  | noChunkForFrameDatabase
  | invalidPageUse
  | pageNotFree
  | pageNotAllocated
  | pageStillOwned
  | pageStillReferenced
  | pageLinked
  | cpuBeyondPageCaches
  | pageCacheFull
  | invalidCachedFrame
  | pageBusy
  | nonresidentMapping
  | swapHandleNotLive
  | droppingMappedPage
  | droppingWiredPage
  | pageAccountUnderflow
  | missingObjectPage
  | endlessRetry
  | missingMergeEntry
  | rekeyMissingEntry
  | rekeyOntoExistingEntry
  | unalignedMapLength
  | overlappingEntry
  | faultLacksAmap
  | amapRangeOutOfBounds
  | amapCommitOutOfBounds
deriving DecidableEq, Repr

inductive Error where
  | outOfMemory
  | invalidAddress
  | alreadyMapped
  | notMapped
  | protection
  | limitExceeded
  | swapUnavailable
  | corruptSwap
  | pmap
  | fileRead
deriving DecidableEq, Repr

/-- Answers of the pools, in the order of the requests; a list that has run out grants. -/
abbrev Supply := List Bool

def Supply.draw : Supply → Bool × Supply
  | [] => (true, [])
  | b :: bs => (b, bs)

/-- `Index::insert`: an existing key keeps its node, a new key needs a node reserved for it. -/
def insertReserved {α : Type} (i : Index ℕ α) (key : ℕ) (value : α) (reserved : Option ℕ) :
    Except Panic (Index ℕ α) :=
  match i.get key with
  | some _ => .ok (i.insert key value)
  | none =>
    match reserved with
    | none => .error .insertionWithoutReservation
    | some node => if node = key then .ok (i.insert key value) else .error .reservationKeyMismatch

theorem insertReserved_node {α : Type} (i : Index ℕ α) (key : ℕ) (value : α) :
    insertReserved i key value (some key) = .ok (i.insert key value) := by
  cases h : i.get key <;> simp [insertReserved, h]

end Roanix.Mem
