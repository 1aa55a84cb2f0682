import Roanix.Fs.Tmpfs.Basic
import Roanix.Lib.NameTree

/-! The tree that a state shows, and the two indexes of a directory. -/
namespace Roanix.Fs.TmpfsM
open Option
open Lib (Act Index NameTree)
open Lib.Act

/-- The two indexes of a directory are inverse to each other, and the cookies were handed out. -/
structure TmpfsDirectoryData.Ok (d : TmpfsDirectoryData) : Prop where
  cookie : ∀ {name entry}, d.entries.get name = some entry → d.cookies.get entry.cookie = some name
  name : ∀ {cookie name}, d.cookies.get cookie = some name →
    ∃ entry, d.entries.get name = some entry ∧ entry.cookie = cookie
  below : ∀ {cookie name}, d.cookies.get cookie = some name → cookie < d.nextCookie

namespace TmpfsDirectoryData
variable {d : TmpfsDirectoryData} {name source target : Name} {entry : TmpfsDirEntry}

theorem ok_empty (next : ℕ) : Ok ⟨.empty, .empty, next⟩ := ⟨nofun, nofun, nofun⟩

theorem Ok.add {next : ℕ} (h : d.Ok) (hfree : d.entries.get name = none)
    (hnew : d.cookies.get entry.cookie = none) (hlt : entry.cookie < next)
    (hle : d.nextCookie ≤ next) :
    Ok ⟨d.entries.insert name entry, d.cookies.insert entry.cookie name, next⟩ where
  cookie {name' e} he := by
    simp only [Index.get_insert] at he ⊢
    split_ifs at he with hname
    · obtain rfl := some.inj he
      rw [if_pos rfl, hname]
    · have hc := h.cookie he
      rw [if_neg fun heq => ?_, hc]
      rw [heq, hnew] at hc
      cases hc
  name {cookie name'} hc := by
    simp only [Index.get_insert] at hc ⊢
    split_ifs at hc with hcookie
    · obtain rfl := some.inj hc
      exact ⟨entry, if_pos rfl, hcookie.symm⟩
    · obtain ⟨e, he, hec⟩ := h.name hc
      refine ⟨e, ?_, hec⟩
      rw [if_neg fun hname => ?_, he]
      rw [hname, hfree] at he
      cases he
  below {cookie name'} hc := by
    simp only [Index.get_insert] at hc
    split_ifs at hc with hcookie
    · exact hcookie ▸ hlt
    · exact (h.below hc).trans_le hle

theorem Ok.push (h : d.Ok) (hfree : d.entries.get name = none) (v : ℕ) : (d.push name v).Ok :=
  h.add hfree (eq_none_iff_forall_ne_some.mpr fun _ hc => (h.below hc).false)
    (Nat.lt_succ_self _) (Nat.le_succ _)

theorem remove_of_get (he : d.entries.get name = some entry) :
    d.remove name = { d with
      entries := d.entries.remove name, cookies := d.cookies.remove entry.cookie } := by
  unfold remove
  rw [he]

theorem Ok.remove (h : d.Ok) (he : d.entries.get name = some entry) : (d.remove name).Ok := by
  rw [remove_of_get he]
  refine ⟨fun {name' e} he' => ?_, fun {cookie name'} hc => ?_, fun {cookie name'} hc => ?_⟩
  · simp only [Index.get_remove] at he' ⊢
    split_ifs at he' with hname
    have hc := h.cookie he'
    rw [if_neg fun heq => hname ?_, hc]
    rw [heq, h.cookie he] at hc
    exact (some.inj hc).symm
  · simp only [Index.get_remove] at hc ⊢
    split_ifs at hc with hcookie
    obtain ⟨e, he', rfl⟩ := h.name hc
    refine ⟨e, ?_, rfl⟩
    rw [if_neg fun hname => hcookie ?_, he']
    rw [hname, he] at he'
    rw [some.inj he']
  · simp only [Index.get_remove] at hc
    split_ifs at hc
    exact h.below hc

theorem Ok.renameWithin (h : d.Ok) (he : d.entries.get source = some entry)
    (hfree : d.entries.get target = none) : (d.renameWithin source target entry).Ok := by
  have hrest := h.remove he
  rw [remove_of_get he] at hrest
  refine hrest.add ?_ ?_ (h.below (h.cookie he)) le_rfl
  · rw [Index.get_remove, hfree, ite_self]
  · rw [Index.get_remove, if_pos rfl]

end TmpfsDirectoryData

def Tmpfs.binding (s : Tmpfs) (d : ℕ) (name : Name) : Option ℕ :=
  (s.nodes.get d).bind fun n => (n.entries.get name).map (·.vnode)

def TmpfsNode.parent (n : TmpfsNode) : Option ℕ := n.directory?.bind (·.parent)

/-- What a state shows of its names, links and parents. -/
def Tmpfs.tree (s : Tmpfs) : NameTree ℕ Name where
  edges := s.edges
  live v := ∃ n, s.nodes.get v = some n
  dir v := (s.nodes.get v).any fun n => n.directory?.isSome
  links v := (s.nodes.get v).elim 0 (·.links)
  parent v := (s.nodes.get v).bind (·.parent)

namespace Tmpfs
variable {s s' : Tmpfs} {d v : ℕ} {name : Name} {n : TmpfsNode}

theorem mem_edges : (d, name, v) ∈ s.edges ↔ s.binding d name = some v := by
  simp only [edges, binding, List.mem_toFinset, List.mem_flatMap, List.mem_map,
    bind_eq_some_iff, map_eq_some_iff, Prod.exists, Index.get_eq_some, Prod.mk.injEq]
  constructor
  · rintro ⟨a, n, hn, m, e, he, rfl, rfl, rfl⟩
    exact ⟨n, hn, e, he, rfl⟩
  · rintro ⟨n, hn, e, he, rfl⟩
    exact ⟨d, n, hn, name, e, he, rfl, rfl, rfl⟩

theorem edges_insert (h : ∀ a m, s'.binding a m =
    if a = d ∧ m = name then some v else s.binding a m) (hfree : s.binding d name = none) :
    s'.edges = insert (d, name, v) s.edges := by
  ext ⟨a, m, w⟩
  rw [Finset.mem_insert, mem_edges, mem_edges, h]
  split_ifs with hc
  · obtain ⟨rfl, rfl⟩ := hc
    rw [hfree]
    simp [eq_comm]
  · simp only [Prod.mk.injEq]
    refine ⟨.inr, fun ho => ho.resolve_left fun hx => hc ⟨hx.1, hx.2.1⟩⟩

theorem edges_erase (h : ∀ a m, s'.binding a m =
    if a = d ∧ m = name then none else s.binding a m) (hv : s.binding d name = some v) :
    s'.edges = s.edges.erase (d, name, v) := by
  ext ⟨a, m, w⟩
  rw [Finset.mem_erase, mem_edges, mem_edges, h]
  split_ifs with hc
  · obtain ⟨rfl, rfl⟩ := hc
    rw [hv]
    simp [eq_comm]
  · refine ⟨fun hw => ⟨fun hx => hc ?_, hw⟩, fun hw => hw.2⟩
    cases hx
    exact ⟨rfl, rfl⟩

theorem edges_move {d' : ℕ} {name' : Name} (h : ∀ a m, s'.binding a m =
    if a = d' ∧ m = name' then some v else if a = d ∧ m = name then none else s.binding a m)
    (hv : s.binding d name = some v) (hfree : s.binding d' name' = none) :
    s'.edges = insert (d', name', v) (s.edges.erase (d, name, v)) := by
  ext ⟨a, m, w⟩
  rw [Finset.mem_insert, Finset.mem_erase, mem_edges, mem_edges, h]
  simp only [Prod.mk.injEq, ne_eq]
  split_ifs with hnew hold
  · obtain ⟨rfl, rfl⟩ := hnew
    rw [hfree]
    simp [eq_comm]
  · obtain ⟨rfl, rfl⟩ := hold
    rw [hv]
    refine iff_of_false nofun ?_
    rintro (hc | ⟨hne, hw⟩)
    · exact hnew ⟨hc.1, hc.2.1⟩
    · exact hne ⟨rfl, rfl, (some.inj hw).symm⟩
  · refine ⟨fun hw => .inr ⟨fun hc => hold ⟨hc.1, hc.2.1⟩, hw⟩, fun ho => ?_⟩
    exact (ho.resolve_left fun hc => hnew ⟨hc.1, hc.2.1⟩).2

theorem view_congr (h : s'.nodes.get v = s.nodes.get v) :
    s'.tree.dir v = s.tree.dir v ∧ s'.tree.links v = s.tree.links v ∧
      s'.tree.parent v = s.tree.parent v ∧ ∀ m, s'.binding v m = s.binding v m := by
  unfold tree binding
  dsimp only
  rw [h]
  exact ⟨rfl, rfl, rfl, fun _ => rfl⟩

theorem binding_of_none (h : s.nodes.get d = none) (m : Name) : s.binding d m = none := by
  unfold binding
  rw [h]
  rfl

end Tmpfs

structure Inv (s : Tmpfs) : Prop where
  tree : s.tree.Ok s.root
  contents : ∀ {v n d}, s.nodes.get v = some n → n.directory? = some d → d.contents.Ok
  numbered : ∀ {v n}, s.nodes.get v = some n → v < s.nextNode
  used : s.usedNodes = s.nodes.entries.length
  held : ∀ {v}, s.held v ≠ 0 → ∃ n, s.nodes.get v = some n

/-! What the steps of the operations do to the nodes, and how a name is taken away. -/
open TmpfsNode Tmpfs

section Nodes
variable (n : TmpfsNode)

@[simp] theorem TmpfsNode.links_setLinks (f : ℕ → ℕ) : (n.setLinks f).links = f n.links := rfl

@[simp] theorem TmpfsNode.directory?_setLinks (f : ℕ → ℕ) :
    (n.setLinks f).directory? = n.directory? := rfl

@[simp] theorem TmpfsNode.links_setDirectory (f : TmpfsDirectory → TmpfsDirectory) :
    (n.setDirectory f).links = n.links := by
  unfold setDirectory
  split <;> rfl

@[simp] theorem TmpfsNode.directory?_setDirectory (f : TmpfsDirectory → TmpfsDirectory) :
    (n.setDirectory f).directory? = n.directory?.map f := by
  obtain ⟨links, data⟩ := n
  cases data <;> rfl

theorem TmpfsNode.kind_eq_directory : n.kind = .directory ↔ n.directory?.isSome = true := by
  obtain ⟨links, data⟩ := n
  cases data <;> simp [kind, directory?]

end Nodes

section Steps
variable {s : Tmpfs} {v child : ℕ} {n : TmpfsNode} {d : TmpfsDirectory} {name : Name}
  {e : TmpfsDirEntry} {T : Panic → Prop} {E : Error → Tmpfs → Prop} {Q : Unit → Tmpfs → Prop}

def Tmpfs.put (s : Tmpfs) (v : ℕ) (n : TmpfsNode) : Tmpfs := { s with nodes := s.nodes.insert v n }

@[simp] theorem Tmpfs.get_put (s : Tmpfs) (v : ℕ) (n : TmpfsNode) (x : ℕ) :
    (s.put v n).nodes.get x = if x = v then some n else s.nodes.get x := Index.get_insert _ _ _ _

def setContents (f : TmpfsDirectoryData → TmpfsDirectoryData) (n : TmpfsNode) : TmpfsNode :=
  n.setDirectory fun d => { d with contents := f d.contents }

section
variable (hn : s.nodes.get v = some n)
include hn

theorem wp_getNode {Q : TmpfsNode → Tmpfs → Prop} :
    wp T (getNode v) Q E s = Q n s := by
  unfold getNode
  rw [wp_bind, wp_get, hn]
  rfl

theorem wp_getDirectory {Q : TmpfsDirectory → Tmpfs → Prop}
    (hd : n.directory? = some d) : wp T (getDirectory v) Q E s = Q d s := by
  unfold getDirectory
  rw [wp_bind, wp_getNode hn, hd]
  rfl

theorem getDirectory_spec {Q : TmpfsDirectory → Tmpfs → Prop}
    (hQ : ∀ d, n.directory? = some d → Q d s) (hE : ∀ e, E e s) :
    wp T (getDirectory v) Q E s := by
  unfold getDirectory
  rw [wp_bind, wp_getNode hn]
  exact wp_okOr hQ fun _ => hE _

theorem wp_modifyNode (f : TmpfsNode → TmpfsNode) :
    wp T (modifyNode v f) Q E s = Q () (s.put v (f n)) := by
  unfold modifyNode put
  rw [wp_modify, Index.modify_eq_insert f hn]

theorem wp_modifyContents (f : TmpfsDirectoryData → TmpfsDirectoryData) :
    wp T (modifyContents v f) Q E s = Q () (s.put v (setContents f n)) :=
  wp_modifyNode hn _

theorem wp_removeEntry (hd : n.directory? = some d) (he : d.contents.entries.get name = some e) :
    wp T (removeEntry v name) Q E s = Q () (s.put v (setContents (·.remove name) n)) := by
  unfold removeEntry TmpfsDirectoryData.containsKey
  rw [wp_bind, wp_getDirectory hn hd, wp_bind, wp_ensure_pos (by rw [he]; rfl),
    wp_modifyContents hn]

theorem insertEntry_spec (hd : n.directory? = some d) (hfree : d.contents.get name = none)
    (hQ : d.contents.HasCapacity → Q () (s.put v (setContents (·.push name child) n)))
    (hE : ¬ d.contents.HasCapacity → E .noSpace s) : wp T (insertEntry v name child) Q E s := by
  have hkey : d.contents.containsKey name = false := by
    unfold TmpfsDirectoryData.containsKey
    rw [map_eq_none_iff.mp hfree]
    rfl
  unfold insertEntry
  rw [wp_bind, wp_getDirectory hn hd, wp_bind, wp_ensure_pos hkey, wp_bind]
  refine wp_ensure (fun hcapacity => ?_) hE
  rw [wp_modifyContents hn]
  exact hQ hcapacity

theorem wp_releaseDirectoryLink (hl : 2 < n.links) :
    wp T (releaseDirectoryLink v) Q E s = Q () (s.put v (n.setLinks (· - 1))) := by
  unfold releaseDirectoryLink
  rw [wp_bind, wp_getNode hn, wp_bind, wp_ensure_pos hl, wp_modifyNode hn]

theorem Tmpfs.put_self : s.put v n = s := by
  unfold put
  have hsame : s.nodes.insert v n = s.nodes := Index.ext_get fun k => by
    rw [Index.get_insert]
    split_ifs with hk
    · rw [hk, hn]
    · rfl
  rw [hsame]

theorem wp_releaseFor {m : TmpfsNode}
    (hl : m.kind = .directory → 2 < n.links) : wp T (releaseFor m v) Q E s =
      Q () (s.put v (n.setLinks fun links => if m.kind = .directory then links - 1 else links)) := by
  unfold releaseFor
  by_cases hm : m.kind = .directory
  · simp only [hm]
    exact wp_releaseDirectoryLink hn (hl hm)
  · simp only [hm, if_false]
    rw [wp_pure, show (n.setLinks fun links => links) = n from rfl, put_self hn]

theorem wp_addParentLink {kind : CreateKind} :
    wp T (addParentLink v kind) Q E s =
      Q () (s.put v (n.setLinks fun links => if kind.isDirectory then links + 1 else links)) := by
  unfold addParentLink
  cases kind.isDirectory with
  | true => exact wp_modifyNode hn _
  | false => exact congrArg (Q ()) (put_self hn).symm

end

def TmpfsNode.lessLink (n : TmpfsNode) : TmpfsNode :=
  n.setLinks fun links => if n.kind = .directory then 0 else links - 1

theorem wp_removeLink (hn : s.nodes.get v = some n)
    (hl : n.kind ≠ .directory → n.links ≠ 0) :
    wp T (removeLink v) Q E s = Q () (s.put v n.lessLink) := by
  unfold removeLink lessLink
  rw [wp_bind, wp_getNode hn]
  by_cases hk : n.kind = .directory
  · rw [if_pos hk, wp_modifyNode hn]
    simp only [hk, if_true]
  · rw [if_neg hk, wp_bind, wp_ensure_pos (hl hk), wp_modifyNode hn]
    simp only [hk, if_false]

theorem validateLeafName_spec (hQ : Q () s) (hE : ∀ e, E e s) :
    wp T (validateLeafName name) Q E s := by
  unfold validateLeafName validateName
  simp only [wp_bind]
  exact wp_ensure (fun _ => wp_ensure (fun _ => wp_ensure (fun _ => hQ) fun _ => hE _) fun _ => hE _)
    fun _ => hE _

theorem lockAttached_spec {Q : TmpfsDirectoryData → Tmpfs → Prop} (hn : s.nodes.get v = some n)
    (hQ : ∀ d, n.directory? = some d → n.links ≠ 0 → Q d.contents s) (hE : ∀ e, E e s) :
    wp T (lockAttached v) Q E s := by
  unfold lockAttached
  rw [wp_bind]
  refine getDirectory_spec hn (fun d hd => ?_) hE
  rw [wp_bind, wp_getNode hn, wp_bind]
  exact wp_ensure (fun hl => hQ d hd hl) fun _ => hE _

end Steps

structure Mapped (s s' : Tmpfs) (F : ℕ → TmpfsNode → TmpfsNode) : Prop where
  get : ∀ x, s'.nodes.get x = (s.nodes.get x).map (F x)
  kind : ∀ {x n}, s.nodes.get x = some n → (F x n).directory?.isSome = n.directory?.isSome
  rest : s' = { s with nodes := s'.nodes }
  length : s'.nodes.entries.length = s.nodes.entries.length

section Mapped
variable {s s' : Tmpfs} {F : ℕ → TmpfsNode → TmpfsNode} {x : ℕ} {n : TmpfsNode} {name : Name}

section
variable (hn : s.nodes.get x = some n)
include hn

theorem Tmpfs.tree_dir_of_get :
    s.tree.dir x = n.directory?.isSome := by
  unfold tree
  dsimp only
  rw [hn]
  rfl

theorem Tmpfs.tree_dir_iff : s.tree.dir x = true ↔ n.kind = .directory := by
  rw [tree_dir_of_get hn, kind_eq_directory]

theorem Tmpfs.tree_links_of_get : s.tree.links x = n.links := by
  unfold tree
  dsimp only
  rw [hn]
  rfl

end

def Tmpfs.directoryAt (s : Tmpfs) (x : ℕ) : Option TmpfsDirectory :=
  (s.nodes.get x).bind (·.directory?)

theorem Tmpfs.directoryAt_of_get (hn : s.nodes.get x = some n) : s.directoryAt x = n.directory? := by
  unfold directoryAt
  rw [hn]
  rfl

theorem Tmpfs.binding_eq (s : Tmpfs) (x : ℕ) (m : Name) :
    s.binding x m = (s.directoryAt x).bind (·.contents.get m) := by
  unfold binding directoryAt
  cases s.nodes.get x with
  | none => rfl
  | some n =>
    change Option.map _ (n.entries.get m) = n.directory?.bind _
    unfold entries
    cases n.directory? <;> rfl

theorem Tmpfs.ne_of_directoryAt {d : ℕ} {c : TmpfsDirectory} (hx : s.directoryAt x = none)
    (hd : s.directoryAt d = some c) : x ≠ d := by
  rintro rfl
  rw [hd] at hx
  cases hx

theorem Tmpfs.tree_parent (s : Tmpfs) (x : ℕ) :
    s.tree.parent x = (s.directoryAt x).bind (·.parent) := by
  unfold tree directoryAt
  dsimp only
  cases s.nodes.get x <;> rfl

theorem Mapped.live (h : Mapped s s' F) (x : ℕ) : s'.tree.live x ↔ s.tree.live x := by
  unfold tree
  dsimp only
  rw [h.get]
  cases s.nodes.get x <;> simp

theorem Mapped.dir (h : Mapped s s' F) (x : ℕ) : s'.tree.dir x = s.tree.dir x := by
  unfold tree
  dsimp only
  rw [h.get]
  cases hn : s.nodes.get x with
  | none => rfl
  | some n => exact h.kind hn

theorem Mapped.get_of_get (h : Mapped s s' F) (hn : s.nodes.get x = some n) :
    s'.nodes.get x = some (F x n) := by
  rw [h.get, hn, map_some]

theorem Mapped.of_get (h : Mapped s s' F) (hn : s'.nodes.get x = some n) :
    ∃ m, s.nodes.get x = some m ∧ F x m = n :=
  map_eq_some_iff.mp ((h.get x).symm.trans hn)

theorem Mapped.refl (s : Tmpfs) : Mapped s s fun _ n => n where
  get _ := map_id'.symm
  kind _ := rfl
  rest := rfl
  length := rfl

section
variable (h : Mapped s s' F)
include h

theorem Mapped.put (hn : s'.nodes.get x = some n) {f : TmpfsNode → TmpfsNode}
    (hf : ∀ m : TmpfsNode, (f m).directory?.isSome = m.directory?.isSome) :
    Mapped s (s'.put x (f n)) fun y m => if y = x then f (F y m) else F y m where
  get y := by
    rw [get_put]
    by_cases hy : y = x
    · subst hy
      obtain ⟨m, hm, rfl⟩ := h.of_get hn
      rw [hm]
      simp only [if_true, map_some]
    · simp only [hy]
      exact h.get y
  kind {y m} hm := by
    split_ifs
    · rw [hf, h.kind hm]
    · exact h.kind hm
  rest := by
    unfold Tmpfs.put
    rw [h.rest]
  length := (Index.length_insert_of_some hn _).trans h.length

theorem Mapped.congr {G : ℕ → TmpfsNode → TmpfsNode}
    (hG : ∀ {x n}, s.nodes.get x = some n → G x n = F x n) : Mapped s s' G where
  get x := by
    rw [h.get]
    exact map_congr fun n hn => (hG hn).symm
  kind hn := by
    rw [hG hn]
    exact h.kind hn
  rest := h.rest
  length := h.length

theorem Mapped.links_map {g : ℕ → ℕ}
    (hF : ∀ {n}, s.nodes.get x = some n → (F x n).links = g n.links)
    (hzero : s.nodes.get x = none → g 0 = 0) : s'.tree.links x = g (s.tree.links x) := by
  unfold tree
  dsimp only
  rw [h.get]
  cases hn : s.nodes.get x with
  | none => exact (hzero hn).symm
  | some n => exact hF hn

theorem Mapped.inv (hs : Inv s) (htree : s'.tree.Ok s.root)
    (hcontents : ∀ {x n d}, s.nodes.get x = some n → (F x n).directory? = some d → d.contents.Ok) :
    Inv s' := by
  obtain ⟨nodes, rfl⟩ : ∃ nodes, s' = { s with nodes := nodes } := ⟨_, h.rest⟩
  refine ⟨htree, fun {x n d} hn hd => ?_, fun {x n} hn => ?_, hs.used.trans h.length.symm,
    fun {x} hx => ?_⟩
  · obtain ⟨n₀, hn₀, rfl⟩ := h.of_get hn
    exact hcontents hn₀ hd
  · obtain ⟨n₀, hn₀, -⟩ := h.of_get hn
    exact hs.numbered hn₀
  · obtain ⟨n, hn⟩ := hs.held hx
    exact ⟨_, h.get_of_get hn⟩

end

def Edits (F : ℕ → TmpfsNode → TmpfsNode) (H : ℕ → TmpfsDirectory → TmpfsDirectory) : Prop :=
  ∀ x n, (F x n).directory? = n.directory?.map (H x)

section
variable {H : ℕ → TmpfsDirectory → TmpfsDirectory} (h : Mapped s s' F) (hF : Edits F H)
include h hF

theorem Mapped.directoryAt_edit (x : ℕ) : s'.directoryAt x = (s.directoryAt x).map (H x) := by
  unfold directoryAt
  rw [h.get]
  cases s.nodes.get x with
  | none => rfl
  | some n => exact hF x n

theorem Mapped.binding_edit {v : Option ℕ}
    (hv : ∀ c, s.directoryAt x = some c → (H x c).contents.get name = v)
    (hnone : s.directoryAt x = none → v = none) : s'.binding x name = v := by
  rw [binding_eq, h.directoryAt_edit hF]
  cases hc : s.directoryAt x with
  | none => exact (hnone hc).symm
  | some c => exact hv c hc

theorem Mapped.parent_edit (hH : ∀ c, (H x c).parent = c.parent) :
    s'.tree.parent x = s.tree.parent x := by
  rw [tree_parent, tree_parent, h.directoryAt_edit hF]
  cases s.directoryAt x with
  | none => rfl
  | some c => exact hH c

theorem Mapped.inv_edit (hs : Inv s) (htree : s'.tree.Ok s.root)
    (hH : ∀ {x c}, s.directoryAt x = some c → c.contents.Ok → (H x c).contents.Ok) : Inv s' := by
  refine h.inv hs htree fun {x n c'} hn hc' => ?_
  rw [hF] at hc'
  obtain ⟨c, hc, rfl⟩ := map_eq_some_iff.mp hc'
  exact hH ((directoryAt_of_get hn).trans hc) (hs.contents hn hc)

end

end Mapped

section Evict
variable {s s' : Tmpfs} {d target : ℕ} {name : Name}

section
variable (f : TmpfsDirectoryData → TmpfsDirectoryData)
include f

theorem setContents_setLinks (g : ℕ → ℕ)
    (n : TmpfsNode) : setContents f (n.setLinks g) = (setContents f n).setLinks g := by
  obtain ⟨links, data⟩ := n
  cases data <;> rfl

theorem directory?_setContents (n : TmpfsNode) :
    (setContents f n).directory? = n.directory?.map fun d => { d with contents := f d.contents } :=
  n.directory?_setDirectory _

theorem links_setContents (n : TmpfsNode) :
    (setContents f n).links = n.links := n.links_setDirectory _

end

/-- What taking a name away does to a node: its directory loses the entry, and a link if a directory
was named; what was named loses a link. -/
def evictNode (s : Tmpfs) (d : ℕ) (name : Name) (target x : ℕ) (n : TmpfsNode) : TmpfsNode :=
  if x = d then
    (setContents (·.remove name) n).setLinks fun l => if s.tree.dir target then l - 1 else l
  else if x = target then n.lessLink
  else n

theorem get_remove (c : TmpfsDirectoryData) (name m : Name) :
    (c.remove name).get m = if m = name then none else c.get m := by
  unfold TmpfsDirectoryData.get
  cases he : c.entries.get name with
  | none =>
    unfold TmpfsDirectoryData.remove
    rw [he]
    split_ifs with hm
    · rw [hm, he]
      rfl
    · rfl
  | some e =>
    rw [TmpfsDirectoryData.remove_of_get he, Index.get_remove]
    split_ifs <;> rfl

theorem edits_evictNode : Edits (evictNode s d name target) fun x c =>
    if x = d then { c with contents := c.contents.remove name } else c := by
  intro x n
  by_cases hx : x = d
  · simp [evictNode, hx, directory?_setContents]
  · unfold evictNode lessLink
    split_ifs <;> simp [hx]

section
variable (hev : Mapped s s' (evictNode s d name target))
include hev

theorem Mapped.links_evict (x : ℕ) :
    s'.tree.links x = if x = d then s.tree.links x - (if s.tree.dir target then 1 else 0)
      else if x = target then (if s.tree.dir target then 0 else s.tree.links x - 1)
      else s.tree.links x := by
  refine hev.links_map (g := fun links => if x = d then links - (if s.tree.dir target then 1 else 0)
      else if x = target then (if s.tree.dir target then 0 else links - 1) else links)
    (fun hn => ?_) fun _ => by split_ifs <;> rfl
  unfold evictNode
  by_cases hd : x = d
  · rw [if_pos hd, if_pos hd, links_setLinks, links_setContents]
    split_ifs <;> rfl
  · rw [if_neg hd, if_neg hd]
    by_cases ht : x = target
    · rw [if_pos ht, if_pos ht, ← ht]
      exact if_congr (tree_dir_iff hn).symm rfl rfl
    · rw [if_neg ht, if_neg ht]

theorem Mapped.binding_evict (a : ℕ) (m : Name) :
    s'.binding a m = if a = d ∧ m = name then none else s.binding a m := by
  refine hev.binding_edit edits_evictNode (fun c hc => ?_) fun ha => ?_
  · rw [binding_eq, hc]
    by_cases ha : a = d <;> simp [ha, get_remove]
  · rw [binding_eq, ha]
    exact ite_self _

theorem Mapped.inv_evict (h : Inv s) (hb : s.binding d name = some target)
    (hempty : s.tree.dir target = true → ∀ m, s.binding target m = none) : Inv s' := by
  have hedge := mem_edges.mpr hb
  have hne : target ≠ d := h.tree.ne_of_edge hedge
  have hlinks := hev.links_evict
  refine hev.inv_edit edits_evictNode h (h.tree.detach hev.live hev.dir hedge
    (fun hd m w hc => ?_) (edges_erase hev.binding_evict hb) (fun hfile x => ?_)
    (fun hgone => ⟨?_, fun x hx => ?_⟩) fun x hx => ?_) fun {x c} hc hok => ?_
  · have := hempty hd m
    rw [mem_edges.mp hc] at this
    cases this
  · have := h.tree.links_of_named hedge hfile
    rw [hlinks, hfile]
    by_cases ht : target = x
    · rw [← ht, if_neg hne, if_pos rfl, if_pos rfl, if_neg Bool.false_ne_true]
      omega
    · rw [if_neg ht, if_neg (Ne.symm ht), if_neg Bool.false_ne_true, Nat.sub_zero, ite_self,
        Nat.add_zero]
  · rw [hlinks, if_neg hne, if_pos rfl, if_pos hgone]
  · have := h.tree.links_of_subdir hedge hgone
    rw [hlinks, if_neg hx, hgone]
    by_cases hd : d = x
    · rw [← hd, if_pos rfl, if_pos rfl, if_pos rfl]
      omega
    · rw [if_neg hd, if_neg (Ne.symm hd), Nat.add_zero]
  · exact hev.parent_edit edits_evictNode fun c => by split_ifs <;> rfl
  · split_ifs with hd
    · rw [binding_eq, ← hd, hc] at hb
      obtain ⟨e, he, -⟩ := map_eq_some_iff.mp hb
      exact hok.remove he
    · exact hok

end

theorem isSome_directory?_setContents (f : TmpfsDirectoryData → TmpfsDirectoryData)
    (n : TmpfsNode) : (setContents f n).directory?.isSome = n.directory?.isSome := by
  rw [directory?_setContents, isSome_map]

structure Bound (s : Tmpfs) (d : ℕ) (name : Name) (v : ℕ) (n : TmpfsNode) (c : TmpfsDirectory)
    (e : TmpfsDirEntry) (m : TmpfsNode) : Prop where
  holder : s.nodes.get d = some n
  directory : n.directory? = some c
  entry : c.contents.entries.get name = some e
  vnode : e.vnode = v
  node : s.nodes.get v = some m
  ne : v ≠ d
  kind : m.kind = .directory ↔ s.tree.dir v = true
  release : m.kind = .directory → 2 < n.links
  links : m.kind ≠ .directory → m.links ≠ 0

theorem Inv.bound (h : Inv s) (hb : s.binding d name = some target) :
    ∃ n c e m, Bound s d name target n c e m := by
  have hedge := mem_edges.mpr hb
  rw [binding_eq] at hb
  obtain ⟨c, hat, hc⟩ := bind_eq_some_iff.mp hb
  obtain ⟨n, hn, hdir⟩ := bind_eq_some_iff.mp hat
  obtain ⟨e, he, htarget⟩ := map_eq_some_iff.mp hc
  obtain ⟨m, hm⟩ := (h.tree.ends hedge).2.2
  have hk := (tree_dir_iff hm).symm
  refine ⟨n, c, e, m, hn, hdir, he, htarget, hm, h.tree.ne_of_edge hedge, hk, fun hd => ?_,
    fun hd => ?_⟩
  · rw [← tree_links_of_get hn]
    exact h.tree.links_of_subdir hedge (hk.mp hd)
  · rw [← tree_links_of_get hm]
    exact h.tree.links_of_named hedge (Bool.eq_false_iff.mpr fun hc => hd (hk.mpr hc))

variable {T : Panic → Prop} {E : Error → Tmpfs → Prop} {Q : Unit → Tmpfs → Prop}
  {n m : TmpfsNode} {c : TmpfsDirectory} {e : TmpfsDirEntry}

section
variable (hb : Bound s d name target n c e m)
  (hQ : ∀ s', Mapped s s' (evictNode s d name target) → Q () s')
include hb hQ

theorem wp_unlinkEntry :
    wp T (do removeEntry d name; releaseFor m d; removeLink target) Q E s := by
  have hfirst : (s.put d (setContents (·.remove name) n)).nodes.get d =
      some (setContents (·.remove name) n) := by
    rw [get_put, if_pos rfl]
  have hlast (k : TmpfsNode) :
      ((s.put d (setContents (·.remove name) n)).put d k).nodes.get target = some m := by
    rw [get_put, if_neg hb.ne, get_put, if_neg hb.ne, hb.node]
  rw [wp_bind, wp_removeEntry hb.holder hb.directory hb.entry, wp_bind,
    wp_releaseFor hfirst (by rw [links_setContents]; exact hb.release),
    wp_removeLink (hlast _) hb.links]
  refine hQ _ (((((Mapped.refl s).put hb.holder (isSome_directory?_setContents _)).put hfirst
    (f := (·.setLinks _)) fun _ => rfl).put (hlast _) (f := lessLink)
    fun _ => rfl).congr fun {x k} _ => ?_)
  unfold evictNode
  simp only [hb.kind]
  by_cases hx : x = d
  · rw [if_pos hx, if_neg fun hxt => hb.ne (hxt.symm.trans hx), if_pos hx, if_pos hx]
  · rw [if_neg hx, if_neg hx, if_neg hx]

theorem wp_evictTarget : wp T (evictTarget d name (some target)) Q E s := by
  have hsecond (k : TmpfsNode) : (s.put d k).nodes.get target = some m := by
    rw [get_put, if_neg hb.ne, hb.node]
  have hlast (k l : TmpfsNode) : ((s.put d k).put target l).nodes.get d = some k := by
    rw [get_put, if_neg hb.ne.symm, get_put, if_pos rfl]
  unfold evictTarget
  rw [wp_bind, wp_getNode hb.node, wp_bind, wp_releaseFor hb.holder hb.release, wp_bind,
    wp_removeLink (hsecond _) hb.links, wp_removeEntry (hlast _ _) (by exact hb.directory) hb.entry]
  refine hQ _ (((((Mapped.refl s).put hb.holder (f := (·.setLinks _)) fun _ => rfl).put (hsecond _)
    (f := lessLink) fun _ => rfl).put (hlast _ _)
    (isSome_directory?_setContents _)).congr fun {x k} _ => ?_)
  unfold evictNode
  simp only [hb.kind]
  by_cases hx : x = d
  · rw [if_pos hx, if_pos hx, if_neg fun hxt => hb.ne (hxt.symm.trans hx), if_pos hx,
      setContents_setLinks]
  · rw [if_neg hx, if_neg hx, if_neg hx]

end

end Evict

end Roanix.Fs.TmpfsM
