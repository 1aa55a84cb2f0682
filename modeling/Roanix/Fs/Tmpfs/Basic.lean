import Mathlib.Data.Finset.Dedup
import Mathlib.Data.List.Lex
import Roanix.Lib.Index
import Roanix.Lib.Word

/-! The temporary file system: nodes in memory, directories with an index by name and one by cookie,
and the operations that change names. An operation that would take a lock it holds stops. -/
namespace Roanix.Fs.TmpfsM
open Lib (Act Index)
open Lib.Act

abbrev Name := List (Fin 256)

local instance neZeroByte : NeZero 256 := ⟨by decide⟩

def maxDirectoryDepth : ℕ := 4096

def maxNameLen : ℕ := 255

inductive VnodeKind where
  | regular
  | directory
  | symlink
deriving DecidableEq, Repr

inductive Error where
  | alreadyExists
  | crossDevice
  | invalidArgument
  | io
  | isDirectory
  | nameTooLong
  | noSpace
  | notDirectory
  | notEmpty
  | notFound
  | permissionDenied
  | symlinkLoop
deriving DecidableEq, Repr

inductive Panic where
  | deadlock
  | dangling
deriving DecidableEq, Repr

structure TmpfsDirEntry where
  vnode : ℕ
  cookie : ℕ
deriving DecidableEq, Repr

structure TmpfsDirectoryData where
  entries : Index Name TmpfsDirEntry
  cookies : Index ℕ Name
  nextCookie : ℕ

namespace TmpfsDirectoryData

def get (d : TmpfsDirectoryData) (name : Name) : Option ℕ := (d.entries.get name).map (·.vnode)

def containsKey (d : TmpfsDirectoryData) (name : Name) : Bool := (d.entries.get name).isSome

def isEmpty (d : TmpfsDirectoryData) : Bool := d.entries.entries.isEmpty

def HasCapacity (d : TmpfsDirectoryData) : Prop := (checked 64 (d.nextCookie + 1)).isSome

instance (d : TmpfsDirectoryData) : Decidable d.HasCapacity :=
  inferInstanceAs (Decidable (_ = true))

def push (d : TmpfsDirectoryData) (name : Name) (vnode : ℕ) : TmpfsDirectoryData where
  entries := d.entries.insert name ⟨vnode, d.nextCookie⟩
  cookies := d.cookies.insert d.nextCookie name
  nextCookie := d.nextCookie + 1

def remove (d : TmpfsDirectoryData) (name : Name) : TmpfsDirectoryData :=
  match d.entries.get name with
  | none => d
  | some entry =>
    { d with entries := d.entries.remove name, cookies := d.cookies.remove entry.cookie }

def renameWithin (d : TmpfsDirectoryData) (source target : Name) (entry : TmpfsDirEntry) :
    TmpfsDirectoryData :=
  { d with
    entries := (d.entries.remove source).insert target entry
    cookies := (d.cookies.remove entry.cookie).insert entry.cookie target }

end TmpfsDirectoryData

structure TmpfsDirectory where
  parent : Option ℕ
  contents : TmpfsDirectoryData

inductive TmpfsData where
  | file
  | directory (d : TmpfsDirectory)
  | symlink

structure TmpfsNode where
  links : ℕ
  data : TmpfsData

def TmpfsNode.kind (n : TmpfsNode) : VnodeKind :=
  match n.data with
  | .file => .regular
  | .directory _ => .directory
  | .symlink => .symlink

def TmpfsNode.directory? (n : TmpfsNode) : Option TmpfsDirectory :=
  match n.data with
  | .directory d => some d
  | _ => none

structure Tmpfs where
  nodes : Index ℕ TmpfsNode
  nextNode : ℕ
  usedNodes : ℕ
  root : ℕ
  /-- References to a node from outside the tree. -/
  held : ℕ → ℕ

abbrev OpM : Type → Type := Act Error Panic Tmpfs

def newDirectory (parent : Option ℕ) : TmpfsNode :=
  ⟨2, .directory ⟨parent, ⟨.empty, .empty, 2⟩⟩⟩

def new : Tmpfs where
  nodes := Index.empty.insert 1 (newDirectory none)
  nextNode := 2
  usedNodes := 1
  root := 1
  held _ := 0

def validateName (name : Name) : OpM Unit := do
  ensure (name.length ≤ maxNameLen) .nameTooLong
  ensure (name ≠ [] ∧ 0 ∉ name ∧ 47 ∉ name) .invalidArgument

def validateLeafName (name : Name) : OpM Unit := do
  validateName name
  ensure (name ≠ [46] ∧ name ≠ [46, 46]) .invalidArgument

def getNode (v : ℕ) : OpM TmpfsNode := do
  let s ← get
  match s.nodes.get v with
  | some n => pure n
  | none => stop .dangling

def getDirectory (v : ℕ) : OpM TmpfsDirectory := do
  let n ← getNode v
  okOr n.directory? .notDirectory

def modifyNode (v : ℕ) (f : TmpfsNode → TmpfsNode) : OpM Unit :=
  modify fun s => { s with nodes := s.nodes.modify v f }

def TmpfsNode.setLinks (n : TmpfsNode) (f : ℕ → ℕ) : TmpfsNode := { n with links := f n.links }

def TmpfsNode.setDirectory (n : TmpfsNode) (f : TmpfsDirectory → TmpfsDirectory) : TmpfsNode :=
  match n.data with
  | .directory d => { n with data := .directory (f d) }
  | _ => n

def modifyContents (v : ℕ) (f : TmpfsDirectoryData → TmpfsDirectoryData) : OpM Unit :=
  modifyNode v fun n => n.setDirectory fun d => { d with contents := f d.contents }

/-- A directory that is attached, locked for a change of its names. -/
def lockAttached (v : ℕ) : OpM TmpfsDirectoryData := do
  let d ← getDirectory v
  let n ← getNode v
  ensure (n.links ≠ 0) .notFound
  pure d.contents

def insertEntry (v : ℕ) (name : Name) (child : ℕ) : OpM Unit := do
  let d ← getDirectory v
  ensure (d.contents.containsKey name = false) .alreadyExists
  ensure d.contents.HasCapacity .noSpace
  modifyContents v (·.push name child)

def removeEntry (v : ℕ) (name : Name) : OpM Unit := do
  let d ← getDirectory v
  ensure (d.contents.containsKey name) .io
  modifyContents v (·.remove name)

inductive CreateKind where
  | regular
  | directory
  /-- Whether the object took the whole target. -/
  | symlink (stored : Bool)

def CreateKind.stored : CreateKind → Bool
  | .symlink stored => stored
  | _ => true

def CreateKind.isDirectory : CreateKind → Bool
  | .directory => true
  | _ => false

def CreateKind.node (parent : ℕ) : CreateKind → TmpfsNode
  | .regular => ⟨1, .file⟩
  | .directory => newDirectory (some parent)
  | .symlink _ => ⟨1, .symlink⟩

/-- `allocate_node` below a directory. The caller has the first reference. -/
def allocateNode (kind : CreateKind) (parent : ℕ) : OpM ℕ := do
  let s ← get
  set { s with nextNode := s.nextNode + 1 }
  ensure (kind.stored = true) .noSpace
  modify fun t =>
    { t with
      nodes := t.nodes.insert s.nextNode (kind.node parent)
      usedNodes := t.usedNodes + 1
      held := Function.update t.held s.nextNode 1 }
  pure s.nextNode

/-- A directory has a link from each directory below it. -/
def addParentLink (directory : ℕ) (kind : CreateKind) : OpM Unit :=
  if kind.isDirectory then modifyNode directory (·.setLinks (· + 1)) else pure ()

def create (directory : ℕ) (name : Name) (kind : CreateKind) : OpM ℕ := do
  validateLeafName name
  let entries ← lockAttached directory
  ensure (entries.containsKey name = false) .alreadyExists
  ensure entries.HasCapacity .noSpace
  let child ← allocateNode kind directory
  addParentLink directory kind
  insertEntry directory name child
  pure child

/-- `link`. A target of another file system has no number here. -/
def link (directory : ℕ) (name : Name) (target : Option ℕ) : OpM Unit := do
  validateLeafName name
  let target ← okOr target .crossDevice
  let n ← getNode target
  ensure (n.kind ≠ .directory) .permissionDenied
  let entries ← lockAttached directory
  ensure (entries.containsKey name = false) .alreadyExists
  insertEntry directory name target
  modifyNode target (·.setLinks (· + 1))

def removeLink (target : ℕ) : OpM Unit := do
  let n ← getNode target
  if n.kind = .directory then modifyNode target (·.setLinks fun _ => 0)
  else do
    ensure (n.links ≠ 0) .io
    modifyNode target (·.setLinks (· - 1))

def releaseDirectoryLink (parent : ℕ) : OpM Unit := do
  let n ← getNode parent
  ensure (n.links > 2) .io
  modifyNode parent (·.setLinks (· - 1))

/-- The link that a directory has from one below it goes with the name of that one. -/
def releaseFor (n : TmpfsNode) (parent : ℕ) : OpM Unit :=
  if n.kind = .directory then releaseDirectoryLink parent else pure ()

def TmpfsNode.entries (n : TmpfsNode) : Index Name TmpfsDirEntry :=
  match n.directory? with
  | some d => d.contents.entries
  | none => .empty

/-- Every entry, as a directory, a name and the node that it names. -/
def Tmpfs.edges (s : Tmpfs) : Finset (ℕ × Name × ℕ) :=
  (s.nodes.entries.flatMap fun x =>
    x.2.entries.entries.map fun e => (x.1, e.1, e.2.vnode)).toFinset

def Tmpfs.Referenced (s : Tmpfs) (v : ℕ) : Prop :=
  v = s.root ∨ s.held v ≠ 0 ∨ ∃ e ∈ s.edges, e.2.2 = v

instance (s : Tmpfs) (v : ℕ) : Decidable (s.Referenced v) :=
  inferInstanceAs (Decidable (_ ∨ _ ∨ _))

/-- The last reference of the caller to a node goes; the node goes with it if there is no other. -/
def dropReference (v : ℕ) : OpM Unit := do
  let s ← get
  if s.Referenced v then pure ()
  else set { s with nodes := s.nodes.remove v, usedNodes := s.usedNodes - 1 }

/-- The lock on a directory that is about to lose its name: it must be empty. The locks that the caller
holds are given. -/
def lockEmpty (target : ℕ) (locked : List ℕ) : OpM Unit := do
  let d ← getDirectory target
  check (target ∉ locked) .deadlock
  ensure d.contents.isEmpty .notEmpty

/-- What `unlink` takes away must be of the kind that was asked for. -/
def checkUnlinked (directory target : ℕ) (n : TmpfsNode) (removeDirectory : Bool) : OpM Unit :=
  match removeDirectory, decide (n.kind = .directory) with
  | true, true => lockEmpty target [directory]
  | true, false => fail .notDirectory
  | false, true => fail .isDirectory
  | false, false => pure ()

def unlink (directory : ℕ) (name : Name) (removeDirectory : Bool) : OpM Unit := do
  validateLeafName name
  let entries ← lockAttached directory
  let target ← okOr (entries.get name) .notFound
  let n ← getNode target
  checkUnlinked directory target n removeDirectory
  removeEntry directory name
  releaseFor n directory
  removeLink target
  dropReference target

def parentOf (v : ℕ) : OpM ℕ := do
  let d ← getDirectory v
  let s ← get
  match d.parent with
  | some p => pure (if (s.nodes.get p).isSome then p else v)
  | none => pure v

/-- The walk of `ensure_directory_move_is_acyclic`. -/
def walk (source : ℕ) : ℕ → ℕ → OpM Unit
  | 0, _ => fail .symlinkLoop
  | fuel + 1, ancestor => do
    ensure (ancestor ≠ source) .invalidArgument
    let parent ← parentOf ancestor
    if parent = ancestor then pure () else walk source fuel parent

def ensureDirectoryMoveIsAcyclic (source targetDirectory : ℕ) : OpM Unit := do
  let n ← getNode source
  if n.kind = .directory then walk source maxDirectoryDepth targetDirectory else pure ()

def replaceTarget (target : Option ℕ) (source : ℕ) : OpM Unit :=
  match target with
  | none => pure ()
  | some target =>
    if target = source then pure ()
    else do
      let s ← getNode source
      let t ← getNode target
      match decide (s.kind = .directory), decide (t.kind = .directory) with
      | true, false => fail .notDirectory
      | false, true => fail .isDirectory
      | _, _ => pure ()

/-- The target of a rename, if it is a directory, is locked and must be empty. -/
def lockTarget (target : Option ℕ) (locked : List ℕ) : OpM Unit :=
  match target with
  | none => pure ()
  | some target => do
    let n ← getNode target
    if n.kind = .directory then lockEmpty target locked else pure ()

/-- The target of a rename loses its name in its directory. -/
def evictTarget (directory : ℕ) (name : Name) (target : Option ℕ) : OpM Unit :=
  match target with
  | none => pure ()
  | some target => do
    let n ← getNode target
    releaseFor n directory
    removeLink target
    removeEntry directory name

def dropTarget (target : Option ℕ) : OpM Unit :=
  match target with
  | none => pure ()
  | some target => dropReference target

def renameSame (directory : ℕ) (sourceName targetName : Name) : OpM Unit := do
  let entries ← lockAttached directory
  let source ← okOr (entries.get sourceName) .notFound
  if sourceName = targetName then pure ()
  else do
    let target := entries.get targetName
    replaceTarget target source
    if target = some source then pure ()
    else do
      lockTarget target [directory]
      evictTarget directory targetName target
      let d ← getDirectory directory
      let entry ← okOr (d.contents.entries.get sourceName) .notFound
      modifyContents directory (·.renameWithin sourceName targetName entry)
      dropTarget target

def reparent (directory source targetDirectory : ℕ) : OpM Unit := do
  let n ← getNode source
  if n.kind = .directory then do
    modifyNode source (·.setDirectory fun d => { d with parent := some targetDirectory })
    releaseDirectoryLink directory
    modifyNode targetDirectory (·.setLinks (· + 1))
  else pure ()

def renameAcross (directory : ℕ) (sourceName : Name) (targetDirectory : ℕ) (targetName : Name) :
    OpM Unit := do
  let d ← getDirectory directory
  let first ← okOr (d.contents.get sourceName) .notFound
  ensureDirectoryMoveIsAcyclic first targetDirectory
  let n ← getNode directory
  let t ← getNode targetDirectory
  ensure (n.links ≠ 0 ∧ t.links ≠ 0) .notFound
  let d ← getDirectory directory
  let source ← okOr (d.contents.get sourceName) .notFound
  ensureDirectoryMoveIsAcyclic source targetDirectory
  let td ← getDirectory targetDirectory
  let target := td.contents.get targetName
  replaceTarget target source
  if target = some source then pure ()
  else do
    lockTarget target [directory, targetDirectory]
    ensure td.contents.HasCapacity .noSpace
    evictTarget targetDirectory targetName target
    removeEntry directory sourceName
    insertEntry targetDirectory targetName source
    reparent directory source targetDirectory
    dropTarget target

/-- `rename`. A target directory of another file system has no number here. -/
def rename (directory : ℕ) (sourceName : Name) (targetDirectory : Option ℕ) (targetName : Name) :
    OpM Unit := do
  validateLeafName sourceName
  validateLeafName targetName
  let targetDirectory ← okOr targetDirectory .crossDevice
  let _ ← getDirectory directory
  let _ ← getDirectory targetDirectory
  if directory = targetDirectory then renameSame directory sourceName targetName
  else renameAcross directory sourceName targetDirectory targetName

end Roanix.Fs.TmpfsM
