import Roanix.Mem.Pool
import Roanix.Mem.Addr

/-! The boundary-tag arena of `vmem.rs`. A link to a tag is its base address, which never
changes while the tag lives; following a link to a removed tag stops the computation. -/
namespace Roanix.Mem
open Lib

abbrev Link := Option ℕ

inductive VmemFit where
  | instant
  | best
deriving DecidableEq, Repr

inductive VmemError where
  | noSpace
  | noMemory
  | invalid
deriving DecidableEq, Repr

structure Segment where
  base : ℕ
  size : ℕ
  span : ℕ
  free : Bool
  previous : Link := none
  next : Link := none
deriving DecidableEq, Repr

def Segment.endAddr (t : Segment) : ℕ := t.base + t.size

/-- Tag nodes reserved before a placement is published. -/
structure Reservation where
  base : ℕ
  size : ℕ
  start : Option ℕ
  trailing : Option ℕ
deriving DecidableEq, Repr

def freelistCount : ℕ := 64

structure Vmem where
  segments : Index ℕ Segment
  freelists : ℕ → Link
  freelistMap : BitVec 64
  quantum : ℕ
  total : ℕ
  used : ℕ

structure Arena where
  vmem : Vmem
  supply : Supply

abbrev VmemM := Act VmemError Panic Arena

namespace Vmem

def empty (quantum : ℕ) : Vmem where
  segments := .empty
  freelists := fun _ => none
  freelistMap := 0
  quantum := quantum
  total := 0
  used := 0

def new (quantum : ℕ) : Except Panic Vmem :=
  if IsPowerOfTwo quantum then .ok (empty quantum) else .error .invalidQuantum

def available (v : Vmem) : ℕ := v.total - v.used

/-- `63 - leading_zeros`, the floor of the binary logarithm. -/
def freelistIndex (size : ℕ) : ℕ := (max size 1).log2

def guaranteedFreelist (size : ℕ) : ℕ :=
  freelistIndex size + if IsPowerOfTwo size then 0 else 1

def trailingZeros (x : BitVec 64) : ℕ := ((List.range 64).find? fun l => x.getLsbD l).getD 64

def placement (segment : Segment) (size align min max : ℕ) : Option ℕ := do
  let raised ← checkedAdd (Nat.max segment.base min) (align - 1)
  let base := alignDown raised align
  let limit ← checkedAdd base size
  if limit ≤ segment.endAddr ∧ limit ≤ max then some base else none

def roundSize (v : Vmem) (size : ℕ) : Except VmemError ℕ :=
  if size = 0 then .error .invalid
  else
    match checkedAdd size (v.quantum - 1) with
    | some n => .ok (alignDown n v.quantum)
    | none => .error .invalid

def fixedSize (v : Vmem) (base size : ℕ) : Except VmemError ℕ :=
  match v.roundSize size with
  | .error e => .error e
  | .ok size =>
    if ¬ v.quantum ∣ base ∨ checkedAdd base size = none then .error .invalid else .ok size

def freeSegmentContaining (v : Vmem) (address : ℕ) : Option ℕ :=
  ((v.segments.last (· ≤ address)).filter fun e => e.2.free && address < e.2.endAddr).map Prod.fst

def isFree (v : Vmem) (base size : ℕ) : Bool :=
  match checkedAdd base size with
  | none => false
  | some limit =>
    match v.freeSegmentContaining base with
    | none => false
    | some key => (v.segments.get key).any fun tag => limit ≤ tag.endAddr

end Vmem

namespace VmemM
open Act

def vmem : VmemM Vmem := do return (← get).vmem

def modifyVmem (f : Vmem → Vmem) : VmemM Unit := modify fun s => { s with vmem := f s.vmem }

def liftResult {α : Type} : Except VmemError α → VmemM α
  | .ok a => pure a
  | .error e => fail e

def tag (base : ℕ) : VmemM Segment := do
  match (← vmem).segments.get base with
  | some t => pure t
  | none => stop .missingBoundaryTag

def updateTag (base : ℕ) (f : Segment → Segment) : VmemM Unit := do
  let _ ← tag base
  modifyVmem fun v => { v with segments := v.segments.modify base f }

def link (pointer : ℕ) : VmemM Segment := do
  match (← vmem).segments.get pointer with
  | some t => pure t
  | none => stop .danglingLink

def updateLink (pointer : ℕ) (f : Segment → Segment) : VmemM Unit := do
  let _ ← link pointer
  modifyVmem fun v => { v with segments := v.segments.modify pointer f }

def reserveTag (base : ℕ) : VmemM ℕ := do
  let (granted, supply) := (← get).supply.draw
  modify fun s => { s with supply := supply }
  if granted then pure base else fail .noMemory

/-- `needed.then(|| reserve_tag(base)).transpose()`. -/
def reserveTagIf (needed : Prop) [Decidable needed] (base : ℕ) : VmemM (Option ℕ) :=
  if needed then some <$> reserveTag base else pure none

def insertTag (key : ℕ) (value : Segment) (reserved : Option ℕ) : VmemM Unit := do
  match insertReserved (← vmem).segments key value reserved with
  | .ok segments => modifyVmem fun v => { v with segments := segments }
  | .error p => stop p

def setFreelist (list : ℕ) (head : Link) : VmemM Unit :=
  modifyVmem fun v => { v with freelists := Function.update v.freelists list head }

def pushFree (base : ℕ) : VmemM Unit := do
  let t ← tag base
  let list := Vmem.freelistIndex t.size
  let head := (← vmem).freelists list
  updateTag base fun t => { t with previous := none, next := head }
  match head with
  | some head => updateLink head fun t => { t with previous := some base }
  | none => pure ()
  setFreelist list (some base)
  modifyVmem fun v => { v with freelistMap := v.freelistMap ||| (1#64 <<< list) }

def popFree (base : ℕ) : VmemM Unit := do
  let t ← tag base
  let list := Vmem.freelistIndex t.size
  updateTag base fun t => { t with previous := none, next := none }
  match t.previous with
  | some previous => updateLink previous fun p => { p with next := t.next }
  | none =>
    setFreelist list t.next
    if t.next = none then
      modifyVmem fun v => { v with freelistMap := v.freelistMap &&& ~~~(1#64 <<< list) }
  match t.next with
  | some next => updateLink next fun n => { n with previous := t.previous }
  | none => pure ()

def addSpan (base size : ℕ) : VmemM Unit := do
  let v ← vmem
  match checkedAdd base size, checkedAdd v.total size with
  | some limit, some total =>
    if size = 0 ∨ ¬ v.quantum ∣ base ∨ ¬ v.quantum ∣ size ∨
        (v.segments.last (· < limit)).any (fun e => base < e.2.endAddr) then
      fail .invalid
    let node ← reserveTag base
    insertTag base { base := base, size := size, span := base, free := true } (some node)
    pushFree base
    modifyVmem fun v => { v with total := total }
  | _, _ => fail .invalid

def prepareTake (segment base size : ℕ) : VmemM Reservation := do
  let t ← tag segment
  let start ← reserveTagIf (base ≠ segment) base
  let trailing ← reserveTagIf (base + size ≠ t.endAddr) (base + size)
  return { base := base, size := size, start := start, trailing := trailing }

def take (segment : ℕ) (reservation : Reservation) : VmemM Unit := do
  let { base, size, start, trailing } := reservation
  let original ← tag segment
  let limit := original.endAddr
  let span := original.span
  popFree segment
  if segment < base then
    updateTag segment fun t => { t with size := base - segment }
    pushFree segment
    insertTag base { base := base, size := size, span := span, free := false } start
  else
    updateTag segment fun t => { t with size := size }
    updateTag segment fun t => { t with free := false }
  if base + size < limit then
    insertTag (base + size)
      { base := base + size, size := limit - base - size, span := span, free := true } trailing
    pushFree (base + size)
  modifyVmem fun v => { v with used := v.used + size }

def walkFit (size : ℕ) : ℕ → Link → VmemM (Option (ℕ × ℕ))
  | _, none => pure none
  | 0, some _ => stop .endlessList
  | fuel + 1, some pointer => do
    let t ← link pointer
    if size ≤ t.size then return some (t.base, t.base)
    walkFit size fuel t.next

def instantFit (size : ℕ) : VmemM (Option (ℕ × ℕ)) := do
  let v ← vmem
  let guaranteed := Vmem.guaranteedFreelist size
  let candidates : BitVec 64 :=
    if guaranteed < freelistCount then v.freelistMap &&& (BitVec.allOnes 64 <<< guaranteed) else 0
  if candidates ≠ 0 then
    match v.freelists (Vmem.trailingZeros candidates) with
    | none => stop .missingListHead
    | some pointer =>
      let t ← link pointer
      return some (t.base, t.base)
  else
    walkFit size v.segments.entries.length (v.freelists (Vmem.freelistIndex size))

/-- Walk one free list; a first fit ends the walk, a best fit keeps the smallest so far. -/
def walkScan (size align min max : ℕ) (best : Bool) :
    ℕ → Link → Option (ℕ × ℕ × ℕ) → VmemM (Option (ℕ × ℕ × ℕ))
  | _, none, chosen => pure chosen
  | 0, some _, _ => stop .endlessList
  | fuel + 1, some pointer, chosen => do
    let t ← link pointer
    match Vmem.placement t size align min max with
    | some base =>
      if !best then return some (t.base, base, t.size)
      if chosen.all fun c => t.size < c.2.2 then
        walkScan size align min max best fuel t.next (some (t.base, base, t.size))
      else
        walkScan size align min max best fuel t.next chosen
    | none => walkScan size align min max best fuel t.next chosen

def scanLists (size align min max : ℕ) (best : Bool) : List ℕ → VmemM (Option (ℕ × ℕ))
  | [] => pure none
  | list :: lists => do
    let v ← vmem
    match ← walkScan size align min max best v.segments.entries.length (v.freelists list) none with
    | some (segment, base, _) => return some (segment, base)
    | none => scanLists size align min max best lists

def scanFit (size align min max : ℕ) (best : Bool) : VmemM (Option (ℕ × ℕ)) :=
  let first := Vmem.freelistIndex size
  scanLists size align min max best (List.range' first (freelistCount - first))

def takeFound (base size segment : ℕ) : VmemM ℕ := do
  let reservation ← prepareTake segment base size
  take segment reservation
  return base

def xalloc (size align min max : ℕ) (fit : VmemFit) : VmemM ℕ := do
  let v ← vmem
  let size ← liftResult (v.roundSize size)
  if align = 0 ∨ ¬ IsPowerOfTwo align ∨ max ≤ min then fail .invalid
  let align := Nat.max align v.quantum
  let found ←
    if min = 0 ∧ max = u64Max ∧ align = v.quantum ∧ fit = .instant then instantFit size
    else scanFit size align min max (fit = .best)
  match found with
  | none => fail .noSpace
  | some (segment, base) => takeFound base size segment

def alloc (size align : ℕ) (fit : VmemFit) : VmemM ℕ := xalloc size align 0 u64Max fit

def allocRandom (size align entropy : ℕ) : VmemM ℕ := do
  let v ← vmem
  let size ← liftResult (v.roundSize size)
  if align = 0 ∨ ¬ IsPowerOfTwo align then fail .invalid
  let align := Nat.max align v.quantum
  let found ← if align = v.quantum then instantFit size else scanFit size align 0 u64Max false
  match found with
  | none => fail .noSpace
  | some (segment, start) =>
    let t ← tag segment
    let slack := t.endAddr - start - size
    takeFound (start + entropy % (slack / align + 1) * align) size segment

/-- The free tag that holds a whole fixed range. -/
def fixedSegment (v : Vmem) (base size : ℕ) : Option ℕ :=
  (v.freeSegmentContaining base).filter fun key =>
    (v.segments.get key).any fun t => base + size ≤ t.endAddr

def allocFixed (base size : ℕ) : VmemM Unit := do
  let v ← vmem
  let size ← liftResult (v.fixedSize base size)
  match fixedSegment v base size with
  | none => fail .noSpace
  | some segment => do let _ ← takeFound base size segment

def reserveFixed (base size : ℕ) : VmemM Reservation := do
  let v ← vmem
  let size ← liftResult (v.fixedSize base size)
  let start ← reserveTag base
  let trailing ← reserveTag (base + size)
  return { base := base, size := size, start := some start, trailing := some trailing }

def allocReserved (reservation : Reservation) : VmemM Unit := do
  match fixedSegment (← vmem) reservation.base reservation.size with
  | none => stop .reservedRangeNotFree
  | some segment => take segment reservation

/-- First part of `free`: the free tag right after the range joins it. -/
def absorbFollowing (base : ℕ) (t : Segment) : VmemM Unit := do
  let following := ((← vmem).segments.first (base < ·)).filter fun e =>
    e.2.free && e.2.span = t.span && e.2.base = t.endAddr
  match following with
  | some (next, _) =>
    popFree next
    let n ← tag next
    updateTag base fun t => { t with size := t.size + n.size }
    modifyVmem fun v => { v with segments := v.segments.remove next }
  | none => pure ()

/-- Second part of `free`: the range joins the free tag right before it, or is freed itself.
Returns the base of the tag that is now free. -/
def joinPreceding (base span : ℕ) : VmemM ℕ := do
  let preceding := ((← vmem).segments.last (· < base)).filter fun e =>
    e.2.free && e.2.span = span && e.2.endAddr = base
  match preceding with
  | some (previous, _) =>
    popFree previous
    let b ← tag base
    updateTag previous fun t => { t with size := t.size + b.size }
    modifyVmem fun v => { v with segments := v.segments.remove base }
    return previous
  | none =>
    updateTag base fun t => { t with free := true }
    return base

def free (base : ℕ) : VmemM ℕ := do
  let t ← tag base
  check (t.free = false) .doubleFree
  absorbFollowing base t
  let free ← joinPreceding base t.span
  pushFree free
  modifyVmem fun v => { v with used := v.used - t.size }
  return t.size

section Rules
variable {T : Panic → Prop} {E : VmemError → Arena → Prop} {s : Arena} {base : ℕ} {t : Segment}

@[simp] theorem wp_vmem (Q : Vmem → Arena → Prop) : wp T vmem Q E s = Q s.vmem s := rfl

@[simp] theorem wp_modifyVmem (f : Vmem → Vmem) (Q : Unit → Arena → Prop) :
    wp T (modifyVmem f) Q E s = Q () { s with vmem := f s.vmem } := rfl

@[simp] theorem wp_setFreelist (list : ℕ) (head : Link) (Q : Unit → Arena → Prop) :
    wp T (setFreelist list head) Q E s =
      Q () { s with vmem :=
        { s.vmem with freelists := Function.update s.vmem.freelists list head } } := rfl

section
variable (h : s.vmem.segments.get base = some t)
include h

theorem wp_tag (Q : Segment → Arena → Prop) :
    wp T (tag base) Q E s = Q t s := by
  simp only [tag, wp_bind, wp_vmem, h, wp_pure]

theorem wp_link (Q : Segment → Arena → Prop) :
    wp T (link base) Q E s = Q t s := by
  simp only [link, wp_bind, wp_vmem, h, wp_pure]

theorem wp_updateTag (f : Segment → Segment) (Q : Unit → Arena → Prop) :
    wp T (updateTag base f) Q E s =
      Q () { s with vmem := { s.vmem with segments := s.vmem.segments.modify base f } } := by
  simp only [updateTag, wp_bind, wp_tag h, wp_modifyVmem]

theorem wp_updateLink (f : Segment → Segment) (Q : Unit → Arena → Prop) :
    wp T (updateLink base f) Q E s =
      Q () { s with vmem := { s.vmem with segments := s.vmem.segments.modify base f } } := by
  simp only [updateLink, wp_bind, wp_link h, wp_modifyVmem]

end

end Rules

end VmemM
end Roanix.Mem
