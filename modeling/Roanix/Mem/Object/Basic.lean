import Roanix.Mem.Page.Reach

/-! Memory objects of `object.rs` without a pager: pages by number, a length, and an account that
the pages are charged to. Calls do not overlap here, so the rechecks after an unlocked allocation
and the batches of looked-up pages are left out; a pin lasts no longer than its call. -/
namespace Roanix.Mem
open Lib

inductive ObjectKind where
  | anonymous
  | vnode
  | kernel
deriving DecidableEq, Repr

structure PageAccount where
  used : ℕ
  limit : Option ℕ
deriving DecidableEq, Repr

namespace PageAccount

def reserve (account : PageAccount) : Except Error PageAccount :=
  let next := account.used + 1
  if 2 ^ 64 ≤ next then .error .limitExceeded
  else if account.limit.any (· < next) then .error .limitExceeded
  else .ok { account with used := next }

end PageAccount

structure VmObject where
  kind : ObjectKind
  pages : Index ℕ PageWorld
  account : Option PageAccount
  length : ℕ

namespace VmObject

def withAccount (kind : ObjectKind) (account : Option PageAccount) : VmObject :=
  ⟨kind, .empty, account, 0⟩

/-- `u64::div_ceil` by the page size. -/
def pagesFor (length : ℕ) : ℕ := (length + (pageSize - 1)) / pageSize

end VmObject

/-- What the allocators answer when a page is created and brought in. -/
structure PageAnswers where
  create : Option Error
  reserve : Bool
  pageIn : PageInAnswers
deriving DecidableEq, Repr

abbrev ObjectM := Act Error Panic VmObject

namespace ObjectM
open Act VmObject

def onPage {α : Type} (index : ℕ) (m : PageM α) : ObjectM α := fun o =>
  match o.pages.get index with
  | none => .panic .missingObjectPage
  | some w =>
    match m w with
    | .ok a w => .ok a { o with pages := o.pages.insert index w }
    | .err e w => .err e { o with pages := o.pages.insert index w }
    | .panic p => .panic p

def setLength (length : ℕ) : ObjectM Unit := modify fun o => { o with length := length }

def validate (index : ℕ) (checkLength : Bool) : ObjectM Unit := do
  let o ← get
  if checkLength = true ∧ o.kind = .vnode ∧ pagesFor o.length ≤ index then fail .invalidAddress
  else pure ()

def charge : ObjectM Unit := do
  match (← get).account with
  | none => pure ()
  | some account =>
    match account.reserve with
    | .error e => fail e
    | .ok account => modify fun o => { o with account := some account }

def createPage (index : ℕ) (answers : PageAnswers) : ObjectM Unit := do
  match answers.create with
  | some e => fail e
  | none =>
    if answers.reserve then do
      charge
      modify fun o => { o with pages := o.pages.insert index ⟨.newZeroIn, [], 0⟩ }
    else fail .outOfMemory

def findOrCreatePage (index : ℕ) (checkLength : Bool) (answers : PageAnswers) : ObjectM Unit := do
  validate index checkLength
  match (← get).pages.get index with
  | some _ => pure ()
  | none => createPage index answers

def getOrCreatePage (index : ℕ) (answers : PageAnswers) : ObjectM Unit :=
  findOrCreatePage index false answers

def faultPage (index : ℕ) (answers : PageAnswers) : ObjectM Unit :=
  findOrCreatePage index true answers

def withFault (index : ℕ) (install : PageM Unit) : ObjectM Unit := do
  let o ← get
  if o.kind = .vnode ∧ pagesFor o.length ≤ index then fail .invalidAddress
  else if o.pages.get index = none then fail .notMapped
  else onPage index install

/-- A fault on a shared mapping: the page, its frame, and a leaf for it. -/
def fault (index : ℕ) (writable : Bool) (answers : PageAnswers) : ObjectM Unit := do
  faultPage index answers
  onPage index do
    let _ ← PageM.residentBacking answers.pageIn
  withFault index (PageM.enter writable)

/-- The loop of `read_into`, with the bytes read so far. -/
def readLoop (offset total : ℕ) (answers : ℕ → PageInAnswers) :
    ℕ → List UInt8 → ObjectM (List UInt8)
  | 0, out => do
    check (total ≤ out.length) .endlessList
    return out
  | fuel + 1, out => do
    let position := offset + out.length
    if total ≤ out.length then return out
    else if 2 ^ 64 ≤ position then fail .invalidAddress
    else
      let limit := min (pageSize - position % pageSize) (total - out.length)
      match (← get).pages.get (position / pageSize) with
      | none => readLoop offset total answers fuel (out ++ List.replicate limit 0)
      | some _ =>
        match ← attempt (onPage (position / pageSize) (PageM.read (position % pageSize) limit
          (answers (position / pageSize)))) with
        | .error e => if out = [] then fail e else return out
        | .ok bytes => readLoop offset total answers fuel (out ++ bytes)

def readAt (offset total : ℕ) (answers : ℕ → PageInAnswers) : ObjectM (List UInt8) :=
  readLoop offset total answers total []

/-- `pin_resident`, unless the page is logically zero. -/
def pin (index : ℕ) (answers : PageInAnswers) : ObjectM Unit := do
  match (← get).pages.get index with
  | none => pure ()
  | some w =>
    if w.page.backing = .zero then pure ()
    else onPage index do
      let _ ← PageM.residentBacking answers

def removeMappings : PageM Unit := do
  match (← get).page.backing with
  | .resident frame => PageM.setBacking (.resident frame.removeAllMappings)
  | _ => pure ()

/-- Clear a part of a pinned page, with no mapping of it left. -/
def clearTail (index tail count : ℕ) : ObjectM Unit := do
  match (← get).pages.get index with
  | none => pure ()
  | some _ => do
    onPage index removeMappings
    match ← (attempt (onPage index (PageM.zeroLocked tail count)) : ObjectM (Except Error Unit)) with
    | .error _ => stop .endlessRetry
    | .ok _ => pure ()

/-- The page that an end of file cuts is held while it is cleared; an aligned end cuts none. -/
def pinTail (size : ℕ) (answers : PageInAnswers) : ObjectM Unit :=
  if size % pageSize = 0 then pure () else pin (size / pageSize) answers

def clearFrom (size count : ℕ) : ObjectM Unit :=
  if size % pageSize = 0 then pure () else clearTail (size / pageSize) (size % pageSize) count

def zeroExposedTail (oldSize newSize : ℕ) (answers : PageInAnswers) : ObjectM Unit :=
  if newSize ≤ oldSize then pure ()
  else do
    pinTail oldSize answers
    clearFrom oldSize (min (newSize - oldSize) (pageSize - oldSize % pageSize))

/-- The length is published once, at the end of a transfer. -/
def finishWrite (offset written : ℕ) : ObjectM ℕ := do
  if written = 0 then return written
  else if 2 ^ 64 ≤ offset + written then fail .invalidAddress
  else do
    modify fun o => { o with length := max o.length (offset + written) }
    return written

/-- A write that starts past the end first clears what it exposes. -/
def exposeFor (written position : ℕ) (tail : PageInAnswers) : ObjectM Unit := do
  let o ← get
  if written = 0 ∧ o.length < position then zeroExposedTail o.length position tail else pure ()

def storePage (position : ℕ) (window : List UInt8) (answers : PageAnswers) : ObjectM Unit := do
  getOrCreatePage (position / pageSize) answers
  onPage (position / pageSize) (PageM.write (position % pageSize) window answers.pageIn)

def writeLoop (offset : ℕ) (input : List UInt8) (tail : PageInAnswers) (answers : ℕ → PageAnswers) :
    ℕ → ℕ → ObjectM ℕ
  | 0, written => do
    check (input.length ≤ written) .endlessList
    finishWrite offset written
  | fuel + 1, written => do
    let position := offset + written
    let limit := min (pageSize - position % pageSize) (input.length - written)
    let window := (input.drop written).take limit
    if input.length ≤ written then finishWrite offset written
    else if 2 ^ 64 ≤ position then fail .invalidAddress
    else if 2 ^ 64 ≤ position + window.length then fail .invalidAddress
    else do
      exposeFor written position tail
      match ← attempt (storePage position window (answers (position / pageSize))) with
      | .error e => if written = 0 then fail e else finishWrite offset written
      | .ok _ => writeLoop offset input tail answers fuel (written + window.length)

def writeAt (offset : ℕ) (input : List UInt8) (tail : PageInAnswers) (answers : ℕ → PageAnswers) :
    ObjectM ℕ :=
  writeLoop offset input tail answers input.length 0

def removeMappingsFrom (first : ℕ) : List ℕ → ObjectM Unit
  | [] => pure ()
  | index :: rest =>
    if first ≤ index then do
      onPage index removeMappings
      removeMappingsFrom first rest
    else removeMappingsFrom first rest

def release (count : ℕ) : ObjectM Unit := do
  match (← get).account with
  | none => pure ()
  | some account => do
    check (count ≤ account.used) .pageAccountUnderflow
    modify fun o => { o with account := some { account with used := account.used - count } }

def grow (oldSize size : ℕ) (answers : PageInAnswers) : ObjectM ℕ := do
  pinTail oldSize answers
  clearFrom oldSize (min (size - oldSize) (pageSize - oldSize % pageSize))
  setLength size
  return 0

/-- `split_off`: forget the pages from `first` on and say how many there were. -/
def splitOff (first : ℕ) : ObjectM ℕ := do
  let o ← get
  let kept := o.pages.filter fun index _ => index < first
  modify fun o => { o with pages := kept }
  return o.pages.entries.length - kept.entries.length

def shrink (size : ℕ) (answers : PageInAnswers) : ObjectM ℕ := do
  pinTail size answers
  removeMappingsFrom (pagesFor size) ((← get).pages.entries.map Prod.fst)
  clearFrom size (pageSize - size % pageSize)
  setLength size
  let count ← splitOff (pagesFor size)
  release count
  return count

def truncate (size : ℕ) (answers : PageInAnswers) : ObjectM ℕ := do
  let oldSize := (← get).length
  if size = oldSize then return 0
  else if oldSize < size then grow oldSize size answers
  else shrink size answers

end ObjectM
end Roanix.Mem
