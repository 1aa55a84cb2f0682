import Mathlib.Data.List.FinRange

/-! The cache of names: buckets of entries, a sequence for each directory that shuts the cache while a
name of the directory changes, and the steps of `lookup` and of the operations that change names. -/
namespace Roanix.Fs.NameCache
open Function

abbrev Name := List UInt8

structure VnodeKey where
  filesystem : UInt64
  node : UInt64
deriving DecidableEq, Repr

def writer : UInt64 := 65536

/-- `Sequence::snapshot`. The low 16 bits count the writers. -/
def snapshot (state : UInt64) : Option UInt64 := if state.toUInt16 = 0 then some state else none

/-- An entry for a name that means nothing has no target. -/
structure Entry (β : Type) where
  parent : VnodeKey
  name : Name
  target : Option β
  used : UInt64

def Entry.Names {β : Type} (e : Entry β) (parent : VnodeKey) (name : Name) : Prop :=
  e.parent = parent ∧ e.name = name

instance {β : Type} (e : Entry β) (parent : VnodeKey) (name : Name) :
    Decidable (e.Names parent name) := inferInstanceAs (Decidable (_ ∧ _))

structure Bucket (β : Type) where
  entries : Fin 8 → Option (Entry β)
  clock : UInt64

def toLeBytes (n : UInt64) : List UInt8 :=
  (List.range 8).map fun i => (n >>> (8 * i).toUInt64).toUInt8

def bucket (parent : VnodeKey) (name : Name) : Fin 256 :=
  let hash := (toLeBytes parent.filesystem ++ toLeBytes parent.node ++ name).foldl
    (fun hash byte => (hash ^^^ byte.toUInt64) * 0x100000001b3) 0xcbf29ce484222325
  Fin.ofNat 256 ((hash ^^^ (hash >>> 32)) &&& 255).toNat

namespace Bucket
variable {β : Type}

def new : Bucket β := ⟨fun _ => none, 0⟩

def find (b : Bucket β) (parent : VnodeKey) (name : Name) : Option (Fin 8) :=
  (List.finRange 8).find? fun slot => (b.entries slot).any fun e => decide (e.Names parent name)

/-- A writer takes out the entry for its name. -/
def retire (b : Bucket β) (parent : VnodeKey) (name : Name) : Bucket β :=
  match b.find parent name with
  | some slot => { b with entries := update b.entries slot none }
  | none => b

def tick (b : Bucket β) : Bucket β := { b with clock := b.clock + 1 }

def touch (b : Bucket β) (slot : Fin 8) : Bucket β :=
  { b with
    entries := update b.entries slot
      ((b.entries slot).map fun e => { e with used := b.clock }) }

def leastUsed (b : Bucket β) : Fin 8 :=
  (List.finRange 8).foldl (fun best slot =>
    if (b.entries slot).elim 0 (·.used) < (b.entries best).elim 0 (·.used) then slot else best) 0

def slotFor (b : Bucket β) (parent : VnodeKey) (name : Name) : Fin 8 :=
  match b.find parent name with
  | some slot => slot
  | none =>
    match (List.finRange 8).find? fun slot => (b.entries slot).isNone with
    | some slot => slot
    | none => b.leastUsed

def publish (b : Bucket β) (parent : VnodeKey) (name : Name) (target : Option β) : Bucket β :=
  { b with
    entries := update b.entries (b.slotFor parent name)
      (some ⟨parent, name, target, b.clock⟩) }

def reclaim (b : Bucket β) : Bucket β := { b with entries := fun _ => none }

def purge (b : Bucket β) (filesystem : UInt64) : Bucket β :=
  { b with
    entries := fun slot => (b.entries slot).filter fun e => decide (e.parent.filesystem ≠ filesystem) }

end Bucket

/-- What the file system answers to a lookup. -/
inductive Answer (β : Type) where
  | found (vnode : β)
  | notFound
  | failed

namespace Answer
variable {β : Type}

def ofTarget : Option β → Answer β
  | some vnode => .found vnode
  | none => .notFound

def binding : Answer β → Option (Option β)
  | .found vnode => some (some vnode)
  | .notFound => some none
  | .failed => none

end Answer

inductive Op (β : Type) where
  | create (directory : VnodeKey) (name : Name) (child : β)
  | link (directory : VnodeKey) (name : Name) (target : β)
  | unlink (directory : VnodeKey) (name : Name)
  | rename (directory : VnodeKey) (sourceName : Name) (targetDirectory : VnodeKey)
    (targetName : Name)

abbrev Binding (β : Type) := VnodeKey → Name → Option β

def Binding.set {β : Type} (b : Binding β) (directory : VnodeKey) (name : Name)
    (target : Option β) : Binding β :=
  fun d n => if d = directory ∧ n = name then target else b d n

namespace Op
variable {β : Type}

/-- The guards of an operation, in the order in which it takes them. -/
def guards : Op β → List (VnodeKey × Name)
  | .create directory name _ => [(directory, name)]
  | .link directory name _ => [(directory, name)]
  | .unlink directory name => [(directory, name)]
  | .rename directory sourceName targetDirectory targetName =>
    [(directory, sourceName), (targetDirectory, targetName)]

/-- What the file system makes of an operation that succeeds. -/
inductive Succeeds (b : Binding β) : Op β → Binding β → Prop
  | create {d n child} (h : b d n = none) : Succeeds b (.create d n child) (b.set d n (some child))
  | link {d n target} (h : b d n = none) : Succeeds b (.link d n target) (b.set d n (some target))
  | unlink {d n v} (h : b d n = some v) : Succeeds b (.unlink d n) (b.set d n none)
  | rename {d n d' n' v} (h : b d n = some v) :
    Succeeds b (.rename d n d' n') ((b.set d n none).set d' n' (some v))
  /-- Two names of one file, or a name and itself. -/
  | same {d n d' n'} : Succeeds b (.rename d n d' n') b

/-- An operation that fails changes nothing. -/
def Effect (op : Op β) (b b' : Binding β) : Prop := op.Succeeds b b' ∨ b' = b

end Op

inductive Place (β : Type) where
  | idle
  | called (d : VnodeKey) (n : Name)
  | direct (d : VnodeKey) (n : Name)
  | stamped (d : VnodeKey) (n : Name) (stamp : UInt64)
  | missed (d : VnodeKey) (n : Name) (stamp : UInt64)
  | loaded (d : VnodeKey) (n : Name) (stamp : UInt64) (result : Answer β)
  | passed (d : VnodeKey) (n : Name) (stamp : UInt64) (result : Answer β)
  | returned (d : VnodeKey) (n : Name) (result : Answer β)
  | opening (op : Op β) (k : ℕ)
  | counted (op : Op β) (k : ℕ)
  | closing (op : Op β) (k : ℕ)

structure State (β ι : Type) where
  binding : Binding β
  /-- There is one vnode, with its sequence, for a key. -/
  sequence : VnodeKey → UInt64
  cache : Fin 256 → Bucket β
  place : ι → Place β

section Steps
variable {β ι : Type} [DecidableEq ι]

def State.move (s : State β ι) (i : ι) (p : Place β) : State β ι :=
  { s with place := update s.place i p }

def State.setBucket (s : State β ι) (d : VnodeKey) (n : Name) (f : Bucket β → Bucket β) :
    State β ι :=
  { s with cache := update s.cache (bucket d n) (f (s.cache (bucket d n))) }

def State.setSequence (s : State β ι) (d : VnodeKey) (word : UInt64) : State β ι :=
  { s with sequence := update s.sequence d word }

inductive Event (ι : Type) where
  | call (i : ι)
  | stamp (i : ι) (d : VnodeKey)
  | came (d : VnodeKey)
  | gone (d : VnodeKey)
  | other

/-- The file system answers with what the name means, or with an error. -/
def Answers (s : State β ι) (d : VnodeKey) (n : Name) (r : Answer β) : Prop :=
  r = .ofTarget (s.binding d n) ∨ r = .failed

inductive Looks (s : State β ι) (i : ι) : Event ι → State β ι → Prop
  | call {d n} (hi : s.place i = .idle) : Looks s i (.call i) (s.move i (.called d n))
  | gated {d n} (hi : s.place i = .called d n) (hs : snapshot (s.sequence d) = none) :
    Looks s i .other (s.move i (.direct d n))
  | stamp {d n stamp} (hi : s.place i = .called d n) (hs : snapshot (s.sequence d) = some stamp) :
    Looks s i (.stamp i d) (s.move i (.stamped d n stamp))
  | hit {d n stamp slot e} (hi : s.place i = .stamped d n stamp)
    (hfind : (s.cache (bucket d n)).find d n = some slot)
    (he : (s.cache (bucket d n)).entries slot = some e)
    (hs : snapshot (s.sequence d) = some stamp) :
    Looks s i .other
      ((s.setBucket d n (·.tick.touch slot)).move i (.returned d n (.ofTarget e.target)))
  | miss {d n stamp} (hi : s.place i = .stamped d n stamp)
    (h : (s.cache (bucket d n)).find d n = none ∨ snapshot (s.sequence d) ≠ some stamp) :
    Looks s i .other ((s.setBucket d n (·.tick)).move i (.missed d n stamp))
  | loadDirect {d n r} (hi : s.place i = .direct d n) (hr : Answers s d n r) :
    Looks s i .other (s.move i (.returned d n r))
  | load {d n stamp r} (hi : s.place i = .missed d n stamp) (hr : Answers s d n r) :
    Looks s i .other (s.move i (.loaded d n stamp r))
  | pass {d n stamp r} (hi : s.place i = .loaded d n stamp r) (hr : r ≠ .failed)
    (hs : snapshot (s.sequence d) = some stamp) :
    Looks s i .other (s.move i (.passed d n stamp r))
  | refuse {d n stamp r} (hi : s.place i = .loaded d n stamp r)
    (h : r = .failed ∨ snapshot (s.sequence d) ≠ some stamp) :
    Looks s i .other (s.move i (.returned d n r))
  | outOfMemory {d n stamp r} (hi : s.place i = .passed d n stamp r) :
    Looks s i .other (s.move i (.returned d n r))
  | late {d n stamp r} (hi : s.place i = .passed d n stamp r)
    (hs : snapshot (s.sequence d) ≠ some stamp) : Looks s i .other (s.move i (.returned d n r))
  | publish {d n stamp r target} (hi : s.place i = .passed d n stamp r)
    (hr : r.binding = some target) (hs : snapshot (s.sequence d) = some stamp) :
    Looks s i .other
      ((s.setBucket d n (·.publish d n target)).move i (.returned d n r))
  | leave {d n r} (hi : s.place i = .returned d n r) : Looks s i .other (s.move i .idle)

inductive Mutates (s : State β ι) (i : ι) : Event ι → State β ι → Prop
  | start (op : Op β) (hi : s.place i = .idle) : Mutates s i .other (s.move i (.opening op 0))
  /-- `Sequence::write` first shuts the cache. -/
  | count {op k d n} (hi : s.place i = .opening op k) (hk : op.guards[k]? = some (d, n)) :
    Mutates s i (.came d)
      ((s.setSequence d (s.sequence d + (writer + 1))).move i (.counted op k))
  | retire {op k d n} (hi : s.place i = .counted op k) (hk : op.guards[k]? = some (d, n)) :
    Mutates s i .other ((s.setBucket d n (·.retire d n)).move i (.opening op (k + 1)))
  | act {op b'} (hi : s.place i = .opening op op.guards.length)
    (hb : op.Effect s.binding b') :
    Mutates s i .other ({ s with binding := b' }.move i (.closing op op.guards.length))
  /-- The guard that was taken last goes first. -/
  | drop {op k d n} (hi : s.place i = .closing op (k + 1)) (hk : op.guards[k]? = some (d, n)) :
    Mutates s i (.gone d)
      ((s.setSequence d (s.sequence d + (writer - 1))).move i (.closing op k))
  | finish {op} (hi : s.place i = .closing op 0) : Mutates s i .other (s.move i .idle)

inductive Step (s : State β ι) : Event ι → State β ι → Prop
  | looks {i e s'} (h : Looks s i e s') : Step s e s'
  | mutates {i e s'} (h : Mutates s i e s') : Step s e s'
  | reclaim (j : Fin 256) :
    Step s .other { s with cache := update s.cache j (s.cache j).reclaim }
  | purge (j : Fin 256) (filesystem : UInt64) :
    Step s .other { s with cache := update s.cache j ((s.cache j).purge filesystem) }

end Steps

end Roanix.Fs.NameCache
