import Roanix.Mem.Swap.Basic

/-! Logical pages of `page.rs`: where the bytes of a page are, and how writes, page-in, reclaim and
the hardware move them. A frame is its bytes and the flags that decide its fate; swap is what it
keeps for this page. Replacement queues, page identities and wake-ups are not modelled. -/
namespace Roanix.Mem
open Lib

def Page.slice (p : Page) (offset length : ℕ) : List UInt8 := (p.bytes.drop offset).take length

/-- Overwrite the bytes from an offset on; the kernel has checked that they fit. -/
def Page.overwrite (p : Page) (offset : ℕ) (input : List UInt8) : Page :=
  if h : offset + input.length ≤ pageSize then
    { bytes := p.bytes.take offset ++ input ++ p.bytes.drop (offset + input.length)
      length_eq := by
        have := p.length_eq
        simp only [List.length_append, List.length_take, List.length_drop]
        omega }
  else p

/-- One hardware mapping of the page, with its dirty bit. -/
structure Mapping where
  writable : Bool
  dirty : Bool
deriving DecidableEq, Repr

structure PageFrame where
  bytes : Page
  dirty : Bool
  dirtyUnknown : Bool
  referenced : Bool
  busy : Bool
  wireCount : ℕ
  loanCount : ℕ
  mappings : List Mapping
deriving DecidableEq

namespace PageFrame

def markDirty (f : PageFrame) : PageFrame := { f with dirty := true, dirtyUnknown := false }

def markClean (f : PageFrame) : PageFrame := { f with dirty := false, dirtyUnknown := false }

def markUnknown (f : PageFrame) : PageFrame := if f.dirty then f else { f with dirtyUnknown := true }

/-- Every mapping has been revoked and its dirty bit folded in. -/
def resolveUnknown (f : PageFrame) : PageFrame := { f with dirtyUnknown := false }

def markReferenced (f : PageFrame) : PageFrame := { f with referenced := true }

def Reclaimable (f : PageFrame) : Prop :=
  f.wireCount = 0 ∧ f.loanCount = 0 ∧ f.mappings = [] ∧ f.busy = false

instance (f : PageFrame) : Decidable f.Reclaimable := inferInstanceAs (Decidable (_ ∧ _ ∧ _ ∧ _))

/-- `record_hardware_state` of the paging code: the dirty bit of a removed leaf. -/
def foldDirty (f : PageFrame) (dirty : Bool) : PageFrame := if dirty then f.markDirty else f

def removeAllMappings (f : PageFrame) : PageFrame :=
  { f.foldDirty (f.mappings.any Mapping.dirty) with mappings := [] }

end PageFrame

inductive PageLocation where
  | file
  | zero
  | resident
  | swapped
deriving DecidableEq, Repr

inductive PageBacking where
  | zero
  | file
  | resident (frame : PageFrame)
  | swapped (handle : SwapHandle)
  | busy (location : PageLocation) (wanted : Bool)
deriving DecidableEq

/-- A logical page; `pager` is what a read of its file yields. -/
structure VmPage where
  pager : Option Page
  backing : PageBacking
  residentSwap : Option SwapHandle
  swapRejectGeneration : ℕ
deriving DecidableEq

/-- A page, with the handles swap has given out for it and the bytes saved under each. -/
structure PageWorld where
  page : VmPage
  swap : List (SwapHandle × Page)
  generation : ℕ
deriving DecidableEq

def VmPage.newZeroIn : VmPage := ⟨none, .zero, none, 0⟩

def VmPage.fileIn (pager : Page) : VmPage := ⟨some pager, .file, none, 0⟩

/-- What the allocator, the pager and swap answer during a page-in; `none` is success. -/
structure PageInAnswers where
  alloc : Option Error
  pager : Option Error
  load : Option SwapError
deriving DecidableEq, Repr

abbrev PageM := Act Error Panic PageWorld

namespace PageM
open Act

def setBacking (backing : PageBacking) : PageM Unit :=
  modify fun w => { w with page := { w.page with backing := backing } }

def setResidentSwap (handle : Option SwapHandle) : PageM Unit :=
  modify fun w => { w with page := { w.page with residentSwap := handle } }

def setSwapRejectGeneration (generation : ℕ) : PageM Unit :=
  modify fun w => { w with page := { w.page with swapRejectGeneration := generation } }

def swapStore (answer : Except SwapError SwapHandle) (bytes : Page) :
    PageM (Except SwapError SwapHandle) := do
  match answer with
  | .error e => return .error e
  | .ok handle => do
    modify fun w => { w with swap := (handle, bytes) :: w.swap }
    return .ok handle

/-- `swap::load` returns what was saved, unless the device fails. -/
def swapLoad (handle : SwapHandle) (failure : Option SwapError) :
    PageM (Except SwapError Page) := do
  match failure with
  | some e => return .error e
  | none =>
    match (← get).swap.find? (·.1 = handle) with
    | none => return .error .corrupt
    | some (_, bytes) => return .ok bytes

def swapFree (handle : SwapHandle) : PageM Unit := do
  check (handle ∈ (← get).swap.map Prod.fst) .swapHandleNotLive
  modify fun w => { w with swap := w.swap.eraseP (·.1 = handle) }

def validateRange (offset length : ℕ) : PageM Unit :=
  if offset + length < 2 ^ 64 ∧ offset + length ≤ pageSize then pure () else fail .invalidAddress

def SwapError.toError : SwapError → Error
  | .corrupt => .corruptSwap
  | _ => .swapUnavailable

def freshFrame (bytes : Page) : PageFrame :=
  ⟨bytes, false, false, false, false, 0, 0, []⟩

/-- The unlocked part of `resident_backing`: a frame with the bytes of the previous backing. -/
def pageInFrame (previous : PageBacking) (answers : PageInAnswers) :
    PageM (Except Error PageFrame) := do
  match answers.alloc with
  | some e => return .error e
  | none =>
    match previous with
    | .zero => return .ok (freshFrame default).markDirty
    | .file =>
      match (← get).page.pager with
      | none => return .error .fileRead
      | some bytes =>
        match answers.pager with
        | some e => return .error e
        | none => return .ok (freshFrame bytes).markClean
    | .swapped handle =>
      match ← swapLoad handle answers.load with
      | .error e => return .error (SwapError.toError e)
      | .ok bytes => return .ok (freshFrame bytes).markClean.markUnknown
    | _ => stop .unreachableCode

/-- The slot a page came from stays with the resident page. -/
def retain : PageBacking → PageM Unit
  | .swapped handle => setResidentSwap (some handle)
  | _ => pure ()

/-- The locked part at the end: publish the frame, or put the previous backing back. -/
def publish (previous : PageBacking) (loaded : Except Error PageFrame) : PageM PageFrame := do
  match (← get).page.backing with
  | .busy _ _ =>
    match loaded with
    | .error e => do
      setBacking previous
      fail e
    | .ok frame => do
      retain previous
      setSwapRejectGeneration 0
      setBacking (.resident frame.markReferenced)
      return frame.markReferenced
  | _ => stop .unreachableCode

def pageIn (location : PageLocation) (answers : PageInAnswers) : PageM PageFrame := do
  let previous := (← get).page.backing
  setBacking (.busy location false)
  let loaded ← pageInFrame previous answers
  publish previous loaded

/-- A page that another operation has made busy is waited for; no operation leaves one so. -/
def residentBacking (answers : PageInAnswers) : PageM PageFrame := do
  match (← get).page.backing with
  | .resident frame => return frame
  | .busy _ _ => stop .pageBusy
  | .zero => pageIn .zero answers
  | .file => pageIn .file answers
  | .swapped _ => pageIn .swapped answers

/-- `read_raw`: a page that is not there is brought in first. -/
def read (offset length : ℕ) (answers : PageInAnswers) : PageM (List UInt8) := do
  validateRange offset length
  if length = 0 then return []
  else
    match (← get).page.backing with
    | .zero => return List.replicate length 0
    | .resident frame => do
      setBacking (.resident frame.markReferenced)
      return frame.bytes.slice offset length
    | _ => do
      let frame ← residentBacking answers
      setBacking (.resident frame.markReferenced)
      return frame.bytes.slice offset length

/-- Store into the resident frame and note the modification. -/
def modifyFrame (frame : PageFrame) (offset : ℕ) (input : List UInt8) : PageM Unit := do
  setBacking (.resident
    { frame.markReferenced.markDirty with bytes := frame.bytes.overwrite offset input })
  setSwapRejectGeneration 0

def write (offset : ℕ) (input : List UInt8) (answers : PageInAnswers) : PageM Unit := do
  validateRange offset input.length
  if input.length = 0 then return ()
  else do
    let frame ← residentBacking answers
    modifyFrame frame offset input

def zero (offset length : ℕ) (answers : PageInAnswers) : PageM Unit := do
  validateRange offset length
  if length = 0 then return ()
  else
    -- a page that is logically zero takes no frame
    match (← get).page.backing with
    | .zero => return ()
    | _ => do
      let frame ← residentBacking answers
      modifyFrame frame offset (List.replicate length 0)

def zeroLocked (offset length : ℕ) : PageM Unit := do
  validateRange offset length
  match (← get).page.backing with
  | .zero => return ()
  | .resident frame => modifyFrame frame offset (List.replicate length 0)
  | _ => fail .outOfMemory

/-- The end of `reclaim_owned` for a frame whose bytes go to swap. -/
def evict (frame : PageFrame) (answer : Except SwapError SwapHandle) : PageM Bool := do
  setBacking (.busy .resident false)
  let stored ← swapStore answer frame.bytes
  match (← get).page.backing with
  | .busy _ _ =>
    match stored with
    | .error e => do
      setBacking (.resident { frame with busy := false })
      if e = .incompressible then do
        setSwapRejectGeneration (← get).generation
        return false
      else return false
    | .ok handle => do
      setSwapRejectGeneration 0
      setBacking (.swapped handle)
      return true
  | _ => stop .unreachableCode

/-- `reclaim_owned` once the frame is unmapped and busy. -/
def releaseFrame (frame : PageFrame) (answer : Except SwapError SwapHandle) : PageM Bool := do
  let page := (← get).page
  if page.pager.isSome ∧ frame.dirty = false then do
    setBacking .file
    return true
  else do
    setResidentSwap none
    match page.residentSwap with
    | none => evict frame answer
    | some handle =>
      if frame.dirty = false then do
        setBacking (.swapped handle)
        return true
      else do
        -- the dirty frame is authoritative, so the stale slot goes first
        swapFree handle
        evict frame answer

def SwapRejected (w : PageWorld) : Prop :=
  w.page.swapRejectGeneration ≠ 0 ∧ w.page.swapRejectGeneration = w.generation

instance (w : PageWorld) : Decidable (SwapRejected w) := inferInstanceAs (Decidable (_ ∧ _))

def reclaimOwned (answer : Except SwapError SwapHandle) : PageM Bool := do
  let w ← get
  match w.page.backing with
  | .resident frame =>
    if SwapRejected w then return false
    else if frame.wireCount ≠ 0 ∨ frame.loanCount ≠ 0 then return false
    else do
      setBacking (.resident frame.removeAllMappings)
      if ¬ frame.removeAllMappings.Reclaimable then return false
      else releaseFrame { frame.removeAllMappings.resolveUnknown with busy := true } answer
  | _ => return false

def dropSwapLocked : PageM Bool := do
  let page := (← get).page
  match page.backing with
  | .resident frame =>
    match page.residentSwap with
    | none => return false
    | some handle => do
      setResidentSwap none
      swapFree handle
      setBacking (.resident frame.markDirty)
      return true
  | _ => return false

def recordHardwareState (referenced dirty : Bool) : PageM Unit := do
  match (← get).page.backing with
  | .resident frame => do
    let frame := if referenced then frame.markReferenced else frame
    if dirty then do
      setBacking (.resident frame.markDirty)
      setSwapRejectGeneration 0
    else setBacking (.resident frame)
  | _ => return ()

/-! What the rest of the kernel and the hardware do to a resident page: mappings come and go, the
CPU stores through them and sets their dirty bits, and wires and loans hold the frame. -/

/-- Change the resident frame; there must be one. -/
def onFrame (f : PageFrame → PageFrame) : PageM Unit := do
  match (← get).page.backing with
  | .resident frame => setBacking (.resident (f frame))
  | _ => stop .nonresidentMapping

/-- The part of `Pmap::enter` that concerns the frame: a new mapping of a pinned page. -/
def enter (writable : Bool) : PageM Unit :=
  onFrame fun frame =>
    let frame := { frame.markReferenced with mappings := ⟨writable, false⟩ :: frame.mappings }
    if writable then frame.markUnknown else frame

/-- `Pmap::enter` over a mapping of the same page: the old leaf's dirty bit is folded in. -/
def remap (index : ℕ) (writable : Bool) : PageM Unit :=
  onFrame fun frame =>
    let folded := frame.markReferenced.foldDirty (frame.mappings[index]?.any Mapping.dirty)
    { (if writable then folded.markUnknown else folded) with
      mappings := frame.mappings.set index ⟨writable, false⟩ }

def unmap (index : ℕ) : PageM Unit :=
  onFrame fun frame =>
    { frame.foldDirty (frame.mappings[index]?.any Mapping.dirty) with
      mappings := frame.mappings.eraseIdx index }

/-- The CPU stores through a writable mapping. -/
def storeThrough (index offset : ℕ) (input : List UInt8) : PageM Unit :=
  onFrame fun frame =>
    { frame with
      bytes := frame.bytes.overwrite offset input
      mappings := frame.mappings.modify index fun mapping => { mapping with dirty := true } }

/-- `harvest_page_state_locked`: read and clear the dirty bit of every mapping. -/
def harvest (referenced : Bool) : PageM Unit := do
  match (← get).page.backing with
  | .resident frame => do
    setBacking (.resident
      { frame with mappings := frame.mappings.map fun mapping => { mapping with dirty := false } })
    recordHardwareState referenced (frame.mappings.any Mapping.dirty)
  | _ => return ()

def wire : PageM Unit := onFrame fun frame => { frame with wireCount := frame.wireCount + 1 }

def unwire : PageM Unit := onFrame fun frame => { frame with wireCount := frame.wireCount - 1 }

def loan : PageM Unit := onFrame fun frame => { frame with loanCount := frame.loanCount + 1 }

def unloan : PageM Unit := onFrame fun frame => { frame with loanCount := frame.loanCount - 1 }

/-- Free the handle that a dropped page keeps beside its frame. -/
def dropRetained : PageM Unit := do
  match (← get).page.residentSwap with
  | none => pure ()
  | some handle => do
    setResidentSwap none
    swapFree handle

def drop : PageM Unit := do
  dropRetained
  match (← get).page.backing with
  | .zero => pure ()
  | .file => pure ()
  | .resident frame => do
    check (frame.mappings = []) .droppingMappedPage
    check (frame.wireCount = 0) .droppingWiredPage
  | .swapped handle => swapFree handle
  | .busy _ _ => stop .unreachableCode

end PageM
end Roanix.Mem
