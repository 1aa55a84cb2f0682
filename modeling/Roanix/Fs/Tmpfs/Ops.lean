import Roanix.Fs.Tmpfs.Nodes

/-! The operations that bind a name or take one away. -/
namespace Roanix.Fs.TmpfsM
open TmpfsDirectoryData Option
open Lib (Act Index NameTree)
open Lib.Act
open Tmpfs

/-- What a failed operation may change: a number may be used up. -/
structure Unchanged (s s' : Tmpfs) : Prop where
  rest : s' = { s with nextNode := s'.nextNode }
  next : s.nextNode ≤ s'.nextNode

theorem Unchanged.refl (s : Tmpfs) : Unchanged s s := ⟨rfl, le_rfl⟩

theorem Unchanged.nodes {s s' : Tmpfs} (h : Unchanged s s') : s'.nodes = s.nodes := by
  rw [h.rest]

theorem Unchanged.inv {s s' : Tmpfs} (h : Unchanged s s') (hs : Inv s) : Inv s' := by
  obtain ⟨hrest, hnext⟩ := h
  rw [hrest]
  exact { hs with numbered := fun hn => (hs.numbered hn).trans_le hnext }

/-- An operation keeps what is known, changes nothing if it fails, and stops only on a lock that it
holds. -/
def Keeps {α : Type} (m : OpM α) (s : Tmpfs) : Prop :=
  wp (· = .deadlock) m (fun _ => Inv) (fun _ => Unchanged s) s

section Drop
variable {s : Tmpfs} {v : ℕ}

theorem Inv.forget (h : Inv s) (hn : ∃ n, s.nodes.get v = some n) (hv : ¬ s.Referenced v) :
    Inv { s with nodes := s.nodes.remove v, usedNodes := s.usedNodes - 1 } := by
  obtain ⟨n, hn⟩ := hn
  unfold Tmpfs.Referenced at hv
  push Not at hv
  obtain ⟨hroot, hheld, hnamed⟩ := hv
  have hloose : ¬ s.tree.Attached s.root v := by
    rintro (hr | ⟨e, he, hev⟩)
    · exact hroot hr
    · exact hnamed e he hev
  have hout (m : Name) (w : ℕ) : (v, m, w) ∉ s.tree.edges := fun he =>
    hloose (h.tree.attached_of_edge he)
  have hself : (s.nodes.remove v).get v = none := by rw [Index.get_remove, if_pos rfl]
  have hother {x : ℕ} (hx : x ≠ v) : (s.nodes.remove v).get x = s.nodes.get x := by
    rw [Index.get_remove, if_neg hx]
  have hback {x : ℕ} {m : TmpfsNode} (hm : (s.nodes.remove v).get x = some m) :
      x ≠ v ∧ s.nodes.get x = some m := by
    have hx : x ≠ v := fun hx => by rw [hx, hself] at hm; cases hm
    exact ⟨hx, hother hx ▸ hm⟩
  refine ⟨h.tree.forget hloose ?_ (fun x => ?_) (fun x hx => ?_) (fun x hx => ?_)
    (fun x hx => ?_) hout, fun {x m d} hm hd => h.contents (hback hm).2 hd,
    fun {x m} hm => h.numbered (hback hm).2, ?_, fun {x} hx => ?_⟩
  · ext ⟨a, m, w⟩
    refine (mem_edges.trans (Eq.congr_left ?_)).trans mem_edges.symm
    by_cases ha : a = v
    · subst ha
      cases hb : s.binding a m with
      | none => exact binding_of_none hself m
      | some w => exact absurd (mem_edges.mpr hb) (hout m w)
    · exact (view_congr (hother ha)).2.2.2 m
  · refine ⟨fun ⟨m, hm⟩ => ⟨(hback hm).1, m, (hback hm).2⟩, fun ⟨hx, m, hm⟩ => ⟨m, ?_⟩⟩
    exact (hother hx).trans hm
  · exact (view_congr (hother hx)).1
  · exact (view_congr (hother hx)).2.1
  · exact (view_congr (hother hx)).2.2.1
  · have := Index.length_remove hn
    have := h.used
    dsimp only
    omega
  · obtain ⟨m, hm⟩ := h.held hx
    refine ⟨m, (hother fun hxv => hx ?_).trans hm⟩
    rw [hxv]
    exact hheld

theorem dropReference_spec {T : Panic → Prop} {E : Error → Tmpfs → Prop} (h : Inv s)
    (hn : ∃ n, s.nodes.get v = some n) : wp T (dropReference v) (fun _ => Inv) E s := by
  unfold dropReference
  rw [wp_bind, wp_get]
  split_ifs with hv
  · exact h
  · exact h.forget hn hv

end Drop

section Unlink
variable {s : Tmpfs} {d target : ℕ} {name : Name} {n : TmpfsNode} {c : TmpfsDirectory}
  {T : Panic → Prop} {E : Error → Tmpfs → Prop} {Q : Unit → Tmpfs → Prop}

theorem Tmpfs.binding_of_directory (hn : s.nodes.get d = some n) (hc : n.directory? = some c)
    (m : Name) : s.binding d m = c.contents.get m := by
  rw [binding_eq, directoryAt_of_get hn, hc]
  rfl

theorem Inv.attached (h : Inv s) (hn : s.nodes.get d = some n) (hc : n.directory? = some c)
    (hl : n.links ≠ 0) : s.tree.dir d = true ∧ s.tree.Attached s.root d := by
  have hdir : s.tree.dir d = true := by
    rw [tree_dir_of_get hn, hc]
    rfl
  refine ⟨hdir, (h.tree.attached_iff_links ⟨n, hn⟩ hdir).mpr ?_⟩
  rw [tree_links_of_get hn]
  exact hl

theorem Tmpfs.not_mem_edges (hb : s.binding d name = none) (w : ℕ) :
    (d, name, w) ∉ s.tree.edges := fun he => by
  rw [mem_edges.mp he] at hb
  cases hb

theorem TmpfsDirectoryData.get_of_isEmpty {data : TmpfsDirectoryData} (h : data.isEmpty = true)
    (m : Name) : data.get m = none := by
  unfold TmpfsDirectoryData.get
  cases he : data.entries.get m with
  | none => rfl
  | some e =>
    have hmem := Index.get_eq_some.mp he
    rw [List.isEmpty_iff.mp h] at hmem
    cases hmem

theorem lockEmpty_spec (hn : s.nodes.get target = some n) (hd : n.kind = .directory)
    (locked : List ℕ) (hT : T .deadlock) (hQ : (∀ m, s.binding target m = none) → Q () s)
    (hE : ∀ e, E e s) : wp T (lockEmpty target locked) Q E s := by
  obtain ⟨c, hc⟩ := isSome_iff_exists.mp ((n.kind_eq_directory).mp hd)
  unfold lockEmpty
  rw [wp_bind, wp_getDirectory hn hc, wp_bind]
  refine wp_check_or (fun _ => wp_ensure (fun hempty => hQ fun m => ?_) fun _ => hE _) fun _ => hT
  rw [binding_of_directory hn hc]
  exact get_of_isEmpty hempty m

theorem checkUnlinked_spec (hn : s.nodes.get target = some n) (d : ℕ) (removeDirectory : Bool)
    (hT : T .deadlock) (hE : ∀ e, E e s)
    (hQ : (n.kind = .directory → ∀ m, s.binding target m = none) → Q () s) :
    wp T (checkUnlinked d target n removeDirectory) Q E s := by
  unfold checkUnlinked
  by_cases hk : n.kind = .directory
  · rw [decide_eq_true hk]
    cases removeDirectory with
    | false => exact hE _
    | true => exact lockEmpty_spec hn hk _ hT (fun hempty => hQ fun _ => hempty) hE
  · rw [decide_eq_false hk]
    cases removeDirectory with
    | false => exact hQ fun hd => absurd hd hk
    | true => exact hE _

theorem unlink_keeps (h : Inv s) (hd : ∃ n, s.nodes.get d = some n) (removeDirectory : Bool) :
    Keeps (unlink d name removeDirectory) s := by
  obtain ⟨nd, hnd⟩ := hd
  unfold Keeps unlink
  simp only [wp_bind]
  refine validateLeafName_spec ?_ fun _ => .refl s
  refine lockAttached_spec hnd (fun c hc _ => ?_) fun _ => .refl s
  refine wp_okOr (fun target ht => ?_) fun _ => .refl s
  have hb : s.binding d name = some target := (binding_of_directory hnd hc name).trans ht
  obtain ⟨n, c, e, m, hbound⟩ := h.bound hb
  rw [wp_getNode hbound.node]
  refine checkUnlinked_spec hbound.node d removeDirectory rfl (fun _ => .refl s) fun hempty => ?_
  have htake := wp_unlinkEntry (T := (· = .deadlock)) (E := fun _ => Unchanged s) hbound
    (Q := fun _ s' => wp (· = .deadlock) (dropReference target) (fun _ => Inv)
      (fun _ => Unchanged s) s') fun s' hev =>
      dropReference_spec (hev.inv_evict h hb fun hd => hempty (hbound.kind.mpr hd))
        ⟨_, hev.get_of_get hbound.node⟩
  simpa only [wp_bind] using htake

end Unlink

section Link
variable {s s' : Tmpfs} {d target x : ℕ} {name : Name} {n : TmpfsNode}

def linkNode (d : ℕ) (name : Name) (target x : ℕ) (n : TmpfsNode) : TmpfsNode :=
  if x = target then n.setLinks (· + 1)
  else if x = d then setContents (·.push name target) n
  else n

theorem edits_linkNode (name : Name) (hne : d ≠ target) : Edits (linkNode d name target) fun x c =>
    if x = d then { c with contents := c.contents.push name target } else c := by
  intro x n
  unfold linkNode
  by_cases hx : x = d
  · rw [if_neg (hx ▸ hne), if_pos hx, directory?_setContents]
    simp only [hx, if_true]
  · rw [if_neg hx]
    split_ifs <;> simp [hx]

theorem get_push (c : TmpfsDirectoryData) (v : ℕ) (m : Name) :
    (c.push name v).get m = if m = name then some v else c.get m := by
  simp only [TmpfsDirectoryData.get, TmpfsDirectoryData.push, Index.get_insert]
  split_ifs <;> rfl

theorem Mapped.binding_push {F : ℕ → TmpfsNode → TmpfsNode} {v : ℕ} (hm : Mapped s s' F)
    (hF : Edits F fun x c => if x = d then { c with contents := c.contents.push name v } else c)
    {c : TmpfsDirectory} (hc : s.directoryAt d = some c) (a : ℕ) (m : Name) :
    s'.binding a m = if a = d ∧ m = name then some v else s.binding a m := by
  refine hm.binding_edit hF (fun c' hc' => ?_) fun ha => ?_
  · rw [binding_eq, hc']
    by_cases ha : a = d <;> simp [ha, get_push]
  · simp [binding_eq, ha, ne_of_directoryAt ha hc]

theorem Mapped.inv_link (hm : Mapped s s' (linkNode d name target)) (h : Inv s)
    {c : TmpfsDirectory} (hn : s.nodes.get d = some n) (hc : n.directory? = some c)
    (hl : n.links ≠ 0) (hfree : c.contents.get name = none) (ht : s.tree.live target)
    (htd : s.tree.dir target = false) : Inv s' := by
  obtain ⟨hdd, hattached⟩ := h.attached hn hc hl
  have hne : d ≠ target := by
    rintro rfl
    rw [hdd] at htd
    cases htd
  have hunbound : s.binding d name = none := (binding_of_directory hn hc name).trans hfree
  have hat : s.directoryAt d = some c := (directoryAt_of_get hn).trans hc
  have hF := edits_linkNode name hne
  refine hm.inv_edit hF h (h.tree.link hm.live hm.dir ⟨n, hn⟩ hdd hattached
    (not_mem_edges hunbound) ht htd (edges_insert (hm.binding_push hF hat) hunbound) (fun x => ?_)
    fun x => hm.parent_edit hF fun c => by split_ifs <;> rfl) fun {x c'} hc' hok => ?_
  · refine hm.links_map (g := (· + if target = x then 1 else 0)) (fun {m} hm' => ?_) fun hx => ?_
    · unfold linkNode
      by_cases hx : x = target
      · rw [if_pos hx, if_pos hx.symm]
        rfl
      · rw [if_neg (Ne.symm hx)]
        split_ifs <;> simp only [links_setContents, Nat.add_zero]
    · obtain ⟨m, hm'⟩ := ht
      rw [if_neg]
      rintro rfl
      rw [hx] at hm'
      cases hm'
  · split_ifs with hx
    · obtain rfl := mem_unique (hx ▸ hc') hat
      exact hok.push (map_eq_none_iff.mp hfree) target
    · exact hok

theorem TmpfsDirectoryData.get_of_containsKey {data : TmpfsDirectoryData}
    (h : data.containsKey name = false) : data.get name = none :=
  map_eq_none_iff.mpr (isSome_eq_false_iff.mp h |> isNone_iff_eq_none.mp)

theorem link_keeps (h : Inv s) (hd : ∃ n, s.nodes.get d = some n) {target : Option ℕ}
    (ht : ∀ v, target = some v → ∃ n, s.nodes.get v = some n) : Keeps (link d name target) s := by
  obtain ⟨nd, hnd⟩ := hd
  unfold Keeps link
  simp only [wp_bind]
  refine validateLeafName_spec ?_ fun _ => .refl s
  refine wp_okOr (fun v hv => ?_) fun _ => .refl s
  obtain ⟨n, hn⟩ := ht v hv
  rw [wp_getNode hn]
  refine wp_ensure (fun hk => ?_) fun _ => .refl s
  refine lockAttached_spec hnd (fun c hc hl => ?_) fun _ => .refl s
  refine wp_ensure (fun hfree => ?_) fun _ => .refl s
  have hfile : s.tree.dir v = false := by
    rw [Bool.eq_false_iff]
    exact fun hd => hk ((tree_dir_iff hn).mp hd)
  have hne : v ≠ d := by
    rintro rfl
    rw [(h.attached hnd hc hl).1] at hfile
    cases hfile
  have hget (k : TmpfsNode) : (s.put d k).nodes.get v = some n := by
    rw [get_put, if_neg hne, hn]
  refine insertEntry_spec hnd hc (get_of_containsKey hfree) (fun _ => ?_)
    fun _ => .refl s
  rw [wp_modifyNode (hget _)]
  refine Mapped.inv_link ((((Mapped.refl s).put hnd (isSome_directory?_setContents _)).put (hget _)
    (f := (·.setLinks (· + 1))) fun _ => rfl).congr fun {x k} _ => ?_) h hnd hc hl
    (get_of_containsKey hfree) ⟨n, hn⟩ hfile
  unfold linkNode
  by_cases hx : x = v
  · rw [if_pos hx, if_pos hx, if_neg fun hxd => hne (hx.symm.trans hxd)]
  · rw [if_neg hx, if_neg hx]

end Link

section Create
variable {s s' : Tmpfs} {d x : ℕ} {name : Name} {n : TmpfsNode} {c : TmpfsDirectory}
  {kind : CreateKind}

def Tmpfs.allocated (s : Tmpfs) (kind : CreateKind) (d : ℕ) : Tmpfs :=
  { s with
    nodes := s.nodes.insert s.nextNode (kind.node d)
    nextNode := s.nextNode + 1
    usedNodes := s.usedNodes + 1
    held := Function.update s.held s.nextNode 1 }

theorem allocateNode_spec {T : Panic → Prop} {Q : ℕ → Tmpfs → Prop}
    (hQ : Q s.nextNode (s.allocated kind d)) :
    wp T (allocateNode kind d) Q (fun _ => Unchanged s) s := by
  unfold allocateNode
  rw [wp_bind, wp_get, wp_bind, wp_set, wp_bind]
  refine wp_ensure (fun _ => ?_) fun _ => ⟨rfl, Nat.le_succ _⟩
  exact hQ

def createNode (d : ℕ) (name : Name) (child : ℕ) (kind : CreateKind) (x : ℕ) (n : TmpfsNode) :
    TmpfsNode :=
  if x = d then
    setContents (·.push name child) (n.setLinks fun l => if kind.isDirectory then l + 1 else l)
  else n

theorem edits_createNode {child : ℕ} : Edits (createNode d name child kind) fun x c =>
    if x = d then { c with contents := c.contents.push name child } else c := by
  intro x n
  unfold createNode
  by_cases hx : x = d <;> simp [hx, directory?_setContents]

theorem links_createNode {child : ℕ} : (createNode d name child kind x n).links =
    n.links + if d = x ∧ kind.isDirectory = true then 1 else 0 := by
  unfold createNode
  by_cases hx : x = d
  · rw [if_pos hx, links_setContents]
    simp only [hx.symm, true_and]
    split_ifs <;> rfl
  · rw [if_neg hx, if_neg fun hc => hx hc.1.symm, Nat.add_zero]

theorem Inv.get_nextNode (h : Inv s) : s.nodes.get s.nextNode = none :=
  eq_none_iff_forall_ne_some.mpr fun _ hn => absurd (h.numbered hn) (lt_irrefl _)

theorem Tmpfs.get_allocated : (s.allocated kind d).nodes.get x =
    if x = s.nextNode then some (kind.node d) else s.nodes.get x := Index.get_insert _ _ _ _

theorem Inv.ne_nextNode (h : Inv s) (hn : s.nodes.get x = some n) : x ≠ s.nextNode :=
  (h.numbered hn).ne

theorem Tmpfs.get_allocated_of_ne (hx : x ≠ s.nextNode) :
    (s.allocated kind d).nodes.get x = s.nodes.get x := by
  rw [get_allocated, if_neg hx]

section Bind
variable (hm : Mapped (s.allocated kind d) s' (createNode d name s.nextNode kind)) (h : Inv s)
  (hn : s.nodes.get d = some n) (hc : n.directory? = some c)
include hm h hn

theorem Mapped.get_created : s'.nodes.get s.nextNode = some (kind.node d) := by
  rw [hm.get, get_allocated, if_pos rfl, map_some]
  unfold createNode
  rw [if_neg (h.ne_nextNode hn).symm]

theorem Mapped.dir_created : s'.tree.dir s.nextNode = kind.isDirectory := by
  rw [tree_dir_of_get (hm.get_created h hn)]
  cases kind <;> rfl

include hc

theorem Mapped.binding_create (a : ℕ) (m : Name) : s'.binding a m =
    if a = d ∧ m = name then some s.nextNode else s.binding a m := by
  have hat : (s.allocated kind d).directoryAt d = some c := by
    rw [directoryAt, get_allocated_of_ne (h.ne_nextNode hn), hn]
    exact hc
  rw [hm.binding_push edits_createNode hat]
  split_ifs
  · rfl
  · by_cases hx : a = s.nextNode
    · rw [hx, binding_of_none h.get_nextNode, binding_eq, directoryAt,
        get_allocated, if_pos rfl]
      cases kind <;> rfl
    · rw [(view_congr (get_allocated_of_ne hx)).2.2.2]

theorem Mapped.tree_create (hl : n.links ≠ 0) (hfree : c.contents.get name = none) :
    s'.tree.Ok s.root := by
  obtain ⟨hdd, hattached⟩ := h.attached hn hc hl
  have hunbound : s.binding d name = none := (binding_of_directory hn hc name).trans hfree
  have hsame {x : ℕ} {m : TmpfsNode} (hx : s.nodes.get x = some m) :
      (s.allocated kind d).nodes.get x = s.nodes.get x :=
    get_allocated_of_ne (h.ne_nextNode hx)
  have hnewdir := hm.dir_created h hn
  refine h.tree.create ⟨n, hn⟩ hdd hattached (not_mem_edges hunbound)
    (fun ⟨m, hm'⟩ => h.ne_nextNode hm' rfl)
    (edges_insert (hm.binding_create h hn hc) hunbound) (fun x => ?_)
    (fun x ⟨m, hx⟩ => ?_) (fun x ⟨m, hx⟩ => ?_) ?_ (fun x ⟨m, hx⟩ => ?_) fun hd => ?_
  · rw [hm.live]
    unfold tree
    dsimp only
    rw [get_allocated]
    by_cases hx : x = s.nextNode
    · rw [if_pos hx]
      exact iff_of_true ⟨_, rfl⟩ (.inl hx)
    · rw [if_neg hx]
      exact (or_iff_right hx).symm
  · rw [hm.dir, (view_congr (hsame hx)).1]
  · rw [hnewdir, ← (view_congr (hsame hx)).2.1]
    refine hm.links_map (g := (· + _)) (fun _ => links_createNode) fun hnone => ?_
    rw [hsame hx, hx] at hnone
    cases hnone
  · rw [hnewdir, tree_links_of_get (hm.get_created h hn)]
    cases kind <;> rfl
  · rw [← (view_congr (hsame hx)).2.2.1]
    exact hm.parent_edit edits_createNode fun c => by split_ifs <;> rfl
  · rw [hnewdir] at hd
    unfold tree
    dsimp only
    rw [hm.get_created h hn]
    cases kind with
    | directory => rfl
    | regular | symlink => cases hd

theorem Mapped.inv_create (hl : n.links ≠ 0) (hfree : c.contents.get name = none) : Inv s' := by
  have hback {x : ℕ} {m : TmpfsNode} (hm' : s'.nodes.get x = some m) (hx : x ≠ s.nextNode) :
      ∃ k, s.nodes.get x = some k ∧ createNode d name s.nextNode kind x k = m := by
    rw [hm.get, get_allocated_of_ne hx] at hm'
    exact map_eq_some_iff.mp hm'
  refine ⟨?_, fun {x m c'} hm' hc' => ?_, fun {x m} hm' => ?_, ?_, fun {x} hx => ?_⟩
  · rw [hm.rest]
    exact hm.tree_create h hn hc hl hfree
  · by_cases hx : x = s.nextNode
    · rw [hx, hm.get_created h hn] at hm'
      obtain rfl := some.inj hm'
      cases kind with
      | directory =>
        obtain rfl := some.inj hc'
        exact ok_empty 2
      | regular | symlink => cases hc'
    · obtain ⟨k, hk, rfl⟩ := hback hm' hx
      rw [edits_createNode] at hc'
      obtain ⟨c₀, hc₀, rfl⟩ := map_eq_some_iff.mp hc'
      dsimp only
      split_ifs with hxd
      · subst hxd
        obtain rfl : k = n := mem_unique hk hn
        obtain rfl : c₀ = c := mem_unique hc₀ hc
        exact (h.contents hn hc).push (map_eq_none_iff.mp hfree) _
      · exact h.contents hk hc₀
  · rw [hm.rest]
    by_cases hx : x = s.nextNode
    · exact hx ▸ Nat.lt_succ_self _
    · obtain ⟨k, hk, -⟩ := hback hm' hx
      exact Nat.lt_succ_of_lt (h.numbered hk)
  · have hlength : (s.allocated kind d).nodes.entries.length = s.nodes.entries.length + 1 :=
      Index.length_insert_of_none h.get_nextNode _
    rw [hm.length, hlength, ← h.used, hm.rest]
    rfl
  · rw [hm.rest] at hx
    by_cases hxn : x = s.nextNode
    · exact ⟨_, hxn ▸ hm.get_created h hn⟩
    · have hheld : (s.allocated kind d).held x = s.held x := Function.update_of_ne hxn _ _
      obtain ⟨k, hk⟩ := h.held (hheld ▸ hx)
      refine ⟨_, hm.get_of_get (n := k) ?_⟩
      rw [get_allocated_of_ne hxn, hk]

end Bind

theorem create_keeps (h : Inv s) (hd : ∃ n, s.nodes.get d = some n) :
    Keeps (create d name kind) s := by
  obtain ⟨n, hn⟩ := hd
  unfold Keeps create
  simp only [wp_bind]
  refine validateLeafName_spec ?_ fun _ => .refl s
  refine lockAttached_spec hn (fun c hc hl => ?_) fun _ => .refl s
  refine wp_ensure (fun hkey => ?_) fun _ => .refl s
  refine wp_ensure (fun hcapacity => ?_) fun _ => .refl s
  have hfree := get_of_containsKey hkey
  have hfirst : (s.allocated kind d).nodes.get d = some n := by
    refine (Index.get_insert _ _ _ _).trans ?_
    rw [if_neg (h.numbered hn).ne, hn]
  refine allocateNode_spec ?_
  rw [wp_addParentLink hfirst]
  refine insertEntry_spec (n := n.setLinks _) (by rw [get_put, if_pos rfl]) hc hfree
    (fun _ => ?_) fun hno => absurd hcapacity hno
  refine Mapped.inv_create ((((Mapped.refl _).put hfirst (f := (·.setLinks _)) fun _ => rfl).put
    (by rw [get_put, if_pos rfl]) (isSome_directory?_setContents _)).congr
    fun {x k} _ => ?_) h hn hc hl hfree
  unfold createNode
  split_ifs <;> rfl

end Create

end Roanix.Fs.TmpfsM
