import Roanix.Fs.Tmpfs.Ops

/-! `rename`: the walk to the root, the name that is replaced, and the name that is moved. -/
namespace Roanix.Fs.TmpfsM
open Option
open Relation (ReflTransGen)
open Lib (Act Index NameTree)
open Lib.Act
open Tmpfs

section Walk
variable {s : Tmpfs} {source a : ℕ} {n : TmpfsNode} {T : Panic → Prop} {E : Error → Tmpfs → Prop}
  {Q : Unit → Tmpfs → Prop}

/-- A directory has a way to the root that does not go through another one. -/
def Clear (s : Tmpfs) (source a : ℕ) : Prop :=
  ReflTransGen (fun x y => s.tree.Up x y ∧ x ≠ source) a s.root

def Tmpfs.parentOf (s : Tmpfs) (a : ℕ) (c : TmpfsDirectory) : ℕ :=
  match c.parent with
  | some p => if (s.nodes.get p).isSome then p else a
  | none => a

theorem wp_parentOf {Q : ℕ → Tmpfs → Prop} {c : TmpfsDirectory} (hn : s.nodes.get a = some n)
    (hc : n.directory? = some c) : wp T (parentOf a) Q E s = Q (s.parentOf a c) s := by
  unfold parentOf Tmpfs.parentOf
  rw [wp_bind, wp_getDirectory hn hc, wp_bind]
  cases c.parent <;> rfl

theorem Tmpfs.live_parentOf {c : TmpfsDirectory} (hn : ∃ n, s.nodes.get a = some n) :
    ∃ n, s.nodes.get (s.parentOf a c) = some n := by
  unfold Tmpfs.parentOf
  split
  · split_ifs with hp
    · exact isSome_iff_exists.mp hp
    · exact hn
  · exact hn

theorem Inv.parentOf_eq (h : Inv s) {c : TmpfsDirectory} {d : ℕ} {name : Name}
    (hn : s.nodes.get a = some n) (hc : n.directory? = some c)
    (he : (d, name, a) ∈ s.tree.edges) : s.parentOf a c = d ∧ s.tree.Up a d := by
  have hdir : s.tree.dir a = true := by
    rw [tree_dir_of_get hn, hc]
    rfl
  have hparent : c.parent = some d := by
    have := h.tree.parent he hdir
    unfold Tmpfs.tree TmpfsNode.parent at this
    dsimp only at this
    rw [hn, bind_some, hc] at this
    exact this
  obtain ⟨m, hm⟩ := (h.tree.ends he).1
  unfold Tmpfs.parentOf
  rw [hparent]
  dsimp only
  rw [hm]
  exact ⟨rfl, name, he, hdir⟩

theorem walk_spec (h : Inv s) (fuel : ℕ) : ∀ a, (∃ n, s.nodes.get a = some n) →
    ((s.tree.dir a = true → s.tree.Attached s.root a → Clear s source a) → Q () s) →
    (∀ e, E e s) → wp T (walk source fuel a) Q E s := by
  induction fuel with
  | zero => exact fun _ _ _ hE => hE _
  | succ fuel ih =>
    rintro a ⟨n, hn⟩ hQ hE
    unfold walk
    simp only [wp_bind]
    refine wp_ensure (fun hne => ?_) fun _ => hE _
    cases hc : n.directory? with
    | none =>
      unfold parentOf getDirectory
      rw [wp_bind, wp_bind, wp_getNode hn, hc]
      exact hE _
    | some c =>
      rw [wp_parentOf hn hc]
      split_ifs with hstop
      · refine hQ fun _ hattached => ?_
        obtain rfl | ⟨⟨d, name, v⟩, he, rfl⟩ := hattached
        · exact .refl
        · have hself := (h.parentOf_eq hn hc he).1
          exact absurd (hstop.symm.trans hself) (h.tree.ne_of_edge he)
      · refine ih _ (live_parentOf ⟨n, hn⟩) (fun hclear => hQ fun _ hattached => ?_) hE
        obtain rfl | ⟨⟨d, name, v⟩, he, rfl⟩ := hattached
        · exact .refl
        · obtain ⟨hparent, hup⟩ := h.parentOf_eq hn hc he
          rw [hparent] at hclear
          exact (hclear (h.tree.ends he).2.1 (h.tree.attached_of_edge he)).head ⟨hup, hne⟩

theorem ensureDirectoryMoveIsAcyclic_spec (h : Inv s) (hn : s.nodes.get source = some n)
    (ha : ∃ n, s.nodes.get a = some n) (hQ : (s.tree.dir source = true → s.tree.dir a = true →
      s.tree.Attached s.root a → Clear s source a) → Q () s) (hE : ∀ e, E e s) :
    wp T (ensureDirectoryMoveIsAcyclic source a) Q E s := by
  unfold ensureDirectoryMoveIsAcyclic
  rw [wp_bind, wp_getNode hn]
  split_ifs with hk
  · exact walk_spec h _ a ha (fun hclear => hQ fun _ => hclear) hE
  · exact hQ fun hd => absurd ((tree_dir_iff hn).mp hd) hk

theorem Clear.ne (hclear : Clear s source a) (hroot : source ≠ s.root) : a ≠ source := by
  rintro rfl
  obtain heq | ⟨b, hb, -⟩ := hclear.cases_head
  · exact hroot heq
  · exact hb.2 rfl

theorem Clear.avoids {target : ℕ} (hclear : Clear s source a) (ha : a ≠ target)
    (hempty : ∀ m w, (target, m, w) ∉ s.tree.edges) :
    ReflTransGen (fun x y => s.tree.Up x y ∧ x ≠ source ∧ x ≠ target) a s.root := by
  induction hclear using ReflTransGen.head_induction_on with
  | refl => exact .refl
  | head hstep _ ih =>
    obtain ⟨hup, hne⟩ := hstep
    obtain ⟨m, hm, -⟩ := id hup
    refine .head ⟨hup, hne, ha⟩ (ih ?_)
    rintro rfl
    exact hempty m _ hm

end Walk

section Replace
variable {s s' : Tmpfs} {d : ℕ} {name : Name} {target : Option ℕ} {T : Panic → Prop}
  {E : Error → Tmpfs → Prop} {Q : Unit → Tmpfs → Prop}

section
variable (ht : ∀ v, target = some v → ∃ n, s.nodes.get v = some n) (hE : ∀ e, E e s)
include ht hE

theorem replaceTarget_spec {source : ℕ} (hs : ∃ n, s.nodes.get source = some n) (hQ : Q () s) :
    wp T (replaceTarget target source) Q E s := by
  unfold replaceTarget
  cases target with
  | none => exact hQ
  | some v =>
    obtain ⟨n, hn⟩ := hs
    obtain ⟨m, hm⟩ := ht v rfl
    dsimp only
    split_ifs
    · exact hQ
    · rw [wp_bind, wp_getNode hn, wp_bind, wp_getNode hm]
      cases decide (n.kind = .directory) <;> cases decide (m.kind = .directory)
      · exact hQ
      · exact hE _
      · exact hE _
      · exact hQ

theorem lockTarget_spec (locked : List ℕ) (hT : T .deadlock)
    (hQ : (∀ v, target = some v → s.tree.dir v = true → ∀ m, s.binding v m = none) → Q () s) :
    wp T (lockTarget target locked) Q E s := by
  unfold lockTarget
  cases target with
  | none => exact hQ nofun
  | some v =>
    obtain ⟨n, hn⟩ := ht v rfl
    rw [wp_bind, wp_getNode hn]
    split_ifs with hk
    · refine lockEmpty_spec hn hk locked hT (fun hempty => hQ fun w hw _ => ?_) hE
      exact some.inj hw ▸ hempty
    · refine hQ fun w hw hd => absurd ((tree_dir_iff hn).mp ?_) hk
      rwa [some.inj hw]

end

/-- A name of a directory is not bound any more, and nothing else was bound or moved. -/
structure Cleared (s s' : Tmpfs) (d : ℕ) (name : Name) : Prop where
  inv : Inv s'
  binding : ∀ a m, s'.binding a m = if a = d ∧ m = name then none else s.binding a m
  live : ∀ x, s'.tree.live x ↔ s.tree.live x
  dir : ∀ x, s'.tree.dir x = s.tree.dir x
  cookie : ∀ {x n c n' c'}, s.nodes.get x = some n → n.directory? = some c →
    s'.nodes.get x = some n' → n'.directory? = some c' →
    c'.contents.nextCookie = c.contents.nextCookie
  root : s'.root = s.root

theorem evictTarget_spec (h : Inv s) (hb : s.binding d name = target)
    (hempty : ∀ v, target = some v → s.tree.dir v = true → ∀ m, s.binding v m = none)
    (hQ : ∀ s', Cleared s s' d name → Q () s') : wp T (evictTarget d name target) Q E s := by
  cases target with
  | none =>
    refine hQ s ⟨h, fun a m => ?_, fun _ => .rfl, fun _ => rfl, fun hn hc hn' hc' => ?_, rfl⟩
    · split_ifs with ha
      · rw [ha.1, ha.2, hb]
      · rfl
    · obtain rfl := mem_unique hn hn'
      obtain rfl := mem_unique hc hc'
      rfl
  | some v =>
    obtain ⟨n, c, e, m, hbound⟩ := h.bound hb
    refine wp_evictTarget hbound fun s' hev => hQ s' ?_
    refine ⟨hev.inv_evict h hb (hempty v rfl), hev.binding_evict, hev.live, hev.dir,
      fun {x n c n' c'} hn hc hn' hc' => ?_, by rw [hev.rest]⟩
    rw [hev.get_of_get hn] at hn'
    obtain rfl := some.inj hn'
    rw [edits_evictNode, hc] at hc'
    obtain rfl := some.inj hc'
    dsimp only
    split_ifs
    · unfold TmpfsDirectoryData.remove
      split <;> rfl
    · rfl

theorem dropTarget_spec (h : Inv s) (ht : ∀ v, target = some v → ∃ n, s.nodes.get v = some n) :
    wp T (dropTarget target) (fun _ => Inv) E s := by
  cases target with
  | none => exact h
  | some v => exact dropReference_spec h (ht v rfl)

end Replace

section Within
variable {s : Tmpfs} {d v : ℕ} {source target : Name} {n m : TmpfsNode} {c : TmpfsDirectory}
  {e : TmpfsDirEntry}

theorem Bound.binding (hb : Bound s d source v n c e m) : s.binding d source = some v := by
  rw [binding_of_directory hb.holder hb.directory, TmpfsDirectoryData.get, hb.entry,
    map_some, hb.vnode]

def withinNode (d : ℕ) (source target : Name) (e : TmpfsDirEntry) (x : ℕ) (n : TmpfsNode) :
    TmpfsNode :=
  if x = d then setContents (·.renameWithin source target e) n else n

theorem edits_withinNode : Edits (withinNode d source target e) fun x c =>
    if x = d then { c with contents := c.contents.renameWithin source target e } else c := by
  intro x n
  unfold withinNode
  by_cases hx : x = d <;> simp [hx, directory?_setContents]

theorem Bound.directoryAt (hb : Bound s d source v n c e m) : s.directoryAt d = some c :=
  (directoryAt_of_get hb.holder).trans hb.directory

theorem Mapped.inv_within {s' : Tmpfs} (hm : Mapped s s' (withinNode d source target e)) (h : Inv s)
    (hb : Bound s d source v n c e m) (hfree : s.binding d target = none) : Inv s' := by
  have hsource := hb.binding
  have hedge := mem_edges.mpr hsource
  have hbinding (a : ℕ) (k : Name) : s'.binding a k = if a = d ∧ k = target then some v
      else if a = d ∧ k = source then none else s.binding a k := by
    refine hm.binding_edit edits_withinNode (fun c' hc' => ?_) fun ha => ?_
    · rw [binding_eq, hc']
      by_cases ha : a = d
      · simp only [ha, if_true, true_and, TmpfsDirectoryData.get, TmpfsDirectoryData.renameWithin,
          Index.get_insert, Index.get_remove]
        split_ifs
        · rw [map_some, hb.vnode]
        · rfl
        · rfl
      · simp [ha]
    · simp [binding_eq, ha, ne_of_directoryAt ha hb.directoryAt]
  have hE : s'.tree.edges = insert (d, target, v) (s.tree.edges.erase (d, source, v)) :=
    edges_move hbinding hsource hfree
  obtain ⟨hlive, hdir, -⟩ := h.tree.ends hedge
  have hattached := h.tree.attached_of_edge hedge
  -- The way to the root does not depend on names.
  have hup {x y : ℕ} (hxy : s.tree.Up x y) : s'.tree.Up x y := by
    obtain ⟨k, hk, hx⟩ := hxy
    rw [← hm.dir] at hx
    by_cases heq : (y, k, x) = (d, source, v)
    · cases heq
      exact ⟨target, hE ▸ Finset.mem_insert_self _ _, hx⟩
    · exact ⟨k, hE ▸ Finset.mem_insert_of_mem (Finset.mem_erase.mpr ⟨heq, hk⟩), hx⟩
  have hparent (x : ℕ) : s'.tree.parent x = s.tree.parent x :=
    hm.parent_edit edits_withinNode fun c => by split_ifs <;> rfl
  refine hm.inv_edit edits_withinNode h (h.tree.move hm.live hm.dir hedge hlive hdir
    (h.tree.ne_of_edge hedge) hattached (not_mem_edges hfree) hE (fun x => ?_)
    (fun x _ => hparent x) (fun hd => ?_) fun _ => ?_) fun {x c'} hc' hok => ?_
  · congr 1
    refine hm.links_map (g := id) (fun {k} _ => ?_) fun _ => rfl
    unfold withinNode
    split_ifs
    · exact links_setContents _ k
    · rfl
  · exact (hparent v).trans (h.tree.parent hedge hd)
  · exact ReflTransGen.mono (fun _ _ => hup) _ _ (h.tree.rooted hlive hdir hattached)
  · split_ifs with hx
    · obtain rfl := mem_unique (hx ▸ hc') hb.directoryAt
      rw [binding_eq, hb.directoryAt] at hfree
      exact hok.renameWithin hb.entry (map_eq_none_iff.mp hfree)
    · exact hok

theorem renameSame_keeps (h : Inv s) (hd : ∃ n, s.nodes.get d = some n) :
    Keeps (renameSame d source target) s := by
  obtain ⟨n, hn⟩ := hd
  unfold Keeps renameSame
  rw [wp_bind]
  refine lockAttached_spec hn (fun c hc _ => ?_) fun _ => .refl s
  rw [wp_bind]
  refine wp_okOr (fun v hv => ?_) fun _ => .refl s
  have hbinding := binding_of_directory hn hc
  split_ifs with hname
  · exact h
  · have hlive (w : ℕ) (hw : c.contents.get target = some w) : ∃ n, s.nodes.get w = some n :=
      (h.tree.ends (mem_edges.mpr ((hbinding target).trans hw))).2.2
    have hsource : ∃ n, s.nodes.get v = some n :=
      (h.tree.ends (mem_edges.mpr ((hbinding source).trans hv))).2.2
    rw [wp_bind]
    refine replaceTarget_spec hlive (fun _ => .refl s) hsource ?_
    split_ifs
    · exact h
    · rw [wp_bind]
      refine lockTarget_spec hlive (fun _ => .refl s) _ rfl fun hempty => ?_
      rw [wp_bind]
      refine evictTarget_spec h (hbinding target) hempty fun s' hcleared => ?_
      have hstill : s'.binding d source = some v := by
        rw [hcleared.binding, if_neg fun hc => hname hc.2, hbinding, hv]
      have hfree : s'.binding d target = none := by
        rw [hcleared.binding, if_pos ⟨rfl, rfl⟩]
      obtain ⟨n', c', e, m, hb⟩ := hcleared.inv.bound hstill
      rw [wp_bind, wp_getDirectory hb.holder hb.directory, hb.entry, wp_bind]
      refine wp_okOr (fun e' he' => ?_) nofun
      obtain rfl := some.inj he'
      rw [wp_bind, wp_modifyContents hb.holder]
      have hmapped := (Mapped.refl s').put hb.holder (f := setContents (·.renameWithin source target e))
        (isSome_directory?_setContents _)
      refine dropTarget_spec (Mapped.inv_within (hmapped.congr fun _ => rfl) hcleared.inv hb hfree)
        fun w hw => ?_
      exact (hmapped.live w).mpr ((hcleared.live w).mpr (hlive w hw))

end Within

section Across
variable {s s' : Tmpfs} {d d' v : ℕ} {source target : Name} {n n' m : TmpfsNode}
  {c c' : TmpfsDirectory} {e : TmpfsDirEntry} {T : Panic → Prop} {E : Error → Tmpfs → Prop}
  {Q : Unit → Tmpfs → Prop}

def setParent (d : ℕ) (n : TmpfsNode) : TmpfsNode :=
  n.setDirectory fun c => { c with parent := some d }

theorem setParent_file (hk : m.kind ≠ .directory) : setParent d m = m := by
  obtain ⟨links, data⟩ := m
  cases data with
  | file | symlink => rfl
  | directory c => exact absurd rfl hk

theorem wp_reparent (hn : s.nodes.get d = some n) (hn' : s.nodes.get d' = some n')
    (hm : s.nodes.get v = some m) (hd : v ≠ d) (hd' : v ≠ d') (hne : d ≠ d')
    (hl : m.kind = .directory → 2 < n.links) : wp T (reparent d v d') Q E s =
      Q () (((s.put v (setParent d' m)).put d
        (n.setLinks fun l => if m.kind = .directory then l - 1 else l)).put d'
        (n'.setLinks fun l => if m.kind = .directory then l + 1 else l)) := by
  unfold reparent
  rw [wp_bind, wp_getNode hm]
  by_cases hk : m.kind = .directory
  · simp only [hk, if_true]
    rw [wp_bind, wp_modifyNode hm, wp_bind,
      wp_releaseDirectoryLink (by rw [get_put, if_neg hd.symm, hn]) (hl hk),
      wp_modifyNode
        (by rw [get_put, if_neg hne.symm, get_put, if_neg hd'.symm, hn'])]
    rfl
  · simp only [hk, if_false]
    rw [wp_pure, setParent_file hk, put_self hm]
    rw [show (n.setLinks fun l => l) = n from rfl, put_self hn,
      show (n'.setLinks fun l => l) = n' from rfl, put_self hn']

theorem isSome_directory?_setParent (d : ℕ) (n : TmpfsNode) :
    (setParent d n).directory?.isSome = n.directory?.isSome := by
  unfold setParent
  rw [TmpfsNode.directory?_setDirectory, isSome_map]

def moveNode (s : Tmpfs) (d : ℕ) (source : Name) (d' : ℕ) (target : Name) (v x : ℕ)
    (n : TmpfsNode) : TmpfsNode :=
  if x = d then
    (setContents (·.remove source) n).setLinks fun l => if s.tree.dir v then l - 1 else l
  else if x = d' then
    (setContents (·.push target v) n).setLinks fun l => if s.tree.dir v then l + 1 else l
  else if x = v then setParent d' n
  else n

theorem edits_moveNode : Edits (moveNode s d source d' target v) fun x c =>
    if x = d then { c with contents := c.contents.remove source }
    else if x = d' then { c with contents := c.contents.push target v }
    else if x = v then { c with parent := some d' } else c := by
  intro x n
  unfold moveNode setParent
  split_ifs <;> simp_all [directory?_setContents]

section
variable (hm : Mapped s s' (moveNode s d source d' target v))
include hm

theorem Mapped.binding_move (hc : s.directoryAt d = some c) (hc' : s.directoryAt d' = some c')
    (hne : d ≠ d') (a : ℕ) (k : Name) :
    s'.binding a k = if a = d' ∧ k = target then some v
      else if a = d ∧ k = source then none else s.binding a k := by
  refine hm.binding_edit edits_moveNode (fun c hc => ?_) fun ha => ?_
  · rw [binding_eq, hc]
    by_cases ha : a = d
    · simp [ha, hne, get_remove]
    · by_cases ha' : a = d'
      · simp [ha', hne.symm, get_push]
      · simp only [ha, ha', if_false, false_and, bind_some]
        split_ifs <;> rfl
  · simp [binding_eq, ha, ne_of_directoryAt ha hc, ne_of_directoryAt ha hc']

theorem Mapped.parent_moved
    (hb : Bound s d source v n c e m) (hd' : v ≠ d') (hdir : s.tree.dir v = true) :
    s'.tree.parent v = some d' := by
  obtain ⟨cv, hcv⟩ := isSome_iff_exists.mp (m.kind_eq_directory.mp (hb.kind.mpr hdir))
  rw [tree_parent, hm.directoryAt_edit edits_moveNode, directoryAt_of_get hb.node, hcv]
  simp [hb.ne, hd']

theorem Mapped.links_move
    (hb : Bound s d source v n c e m) (hn' : s.nodes.get d' = some n') (hne : d ≠ d') (x : ℕ) :
    s'.tree.links x + (if d = x ∧ s.tree.dir v = true then 1 else 0) =
      s.tree.links x + if d' = x ∧ s.tree.dir v = true then 1 else 0 := by
  have hlinks := hm.links_map (x := x) (g := fun l =>
    if x = d then (if s.tree.dir v then l - 1 else l)
    else if x = d' then (if s.tree.dir v then l + 1 else l) else l) (fun k => by
      unfold moveNode setParent
      split_ifs <;> simp only [TmpfsNode.links_setLinks, links_setContents,
        TmpfsNode.links_setDirectory])
    fun hnone => by
      rw [if_neg fun hx => ?_, if_neg fun hx => ?_]
      · rw [hx, hn'] at hnone
        cases hnone
      · rw [hx, hb.holder] at hnone
        cases hnone
  have hrelease : s.tree.dir v = true → 2 < s.tree.links d := fun hdir => by
    rw [tree_links_of_get hb.holder]
    exact hb.release (hb.kind.mpr hdir)
  rw [hlinks]
  by_cases hx : x = d
  · subst hx
    simp only [if_true, true_and, hne.symm, false_and, if_false]
    split_ifs with hdir
    · have := hrelease hdir
      omega
    · rfl
  · have hxd : ¬ (d = x ∧ s.tree.dir v = true) := fun hc => hx hc.1.symm
    rw [if_neg hx, if_neg hxd]
    by_cases hx' : x = d'
    · simp only [hx', true_and]
      split_ifs <;> rfl
    · have hxd' : ¬ (d' = x ∧ s.tree.dir v = true) := fun hc => hx' hc.1.symm
      rw [if_neg hx', if_neg hxd']

end

theorem Mapped.inv_move (hm : Mapped s s' (moveNode s d source d' target v)) (h : Inv s)
    (hb : Bound s d source v n c e m) (hn' : s.nodes.get d' = some n')
    (hc' : n'.directory? = some c') (hne : d ≠ d') (hd' : v ≠ d') (hl : n'.links ≠ 0)
    (hfree : c'.contents.get target = none) (hclear : s.tree.dir v = true → Clear s v d') :
    Inv s' := by
  have hsource := hb.binding
  have hedge := mem_edges.mpr hsource
  have hunbound : s.binding d' target = none :=
    (binding_of_directory hn' hc' target).trans hfree
  have hat : s.directoryAt d' = some c' := (directoryAt_of_get hn').trans hc'
  have hE : s'.tree.edges = insert (d', target, v) (s.tree.edges.erase (d, source, v)) :=
    edges_move (hm.binding_move hb.directoryAt hat hne) hsource hunbound
  obtain ⟨hdir, hattached⟩ := h.attached hn' hc' hl
  refine hm.inv_edit edits_moveNode h (h.tree.move hm.live hm.dir hedge ⟨n', hn'⟩ hdir hd' hattached
    (not_mem_edges hunbound) hE (hm.links_move hb hn' hne)
    (fun x hx => hm.parent_edit edits_moveNode fun c => by split_ifs <;> rfl)
    (hm.parent_moved hb hd') fun hd => ?_) fun {x k} hk hok => ?_
  · -- The way of the target directory is not through what is moved, so it is still there.
    refine ReflTransGen.mono (fun x y ⟨⟨k, hk, hx⟩, hxv⟩ => ?_) _ _ (hclear hd)
    refine ⟨k, hE ▸ Finset.mem_insert_of_mem (Finset.mem_erase.mpr ⟨?_, hk⟩), (hm.dir x).trans hx⟩
    rintro ⟨rfl, rfl, rfl⟩
    exact hxv rfl
  · split_ifs with hx hx' hxv
    · obtain rfl := mem_unique (hx ▸ hk) hb.directoryAt
      exact hok.remove hb.entry
    · obtain rfl := mem_unique (hx' ▸ hk) hat
      exact hok.push (map_eq_none_iff.mp hfree) v
    · exact hok
    · exact hok

theorem Cleared.attached {x : ℕ} (hcleared : Cleared s s' d source)
    (hx : s.tree.Attached s.root x) (hne : s.binding d source ≠ some x) :
    s'.tree.Attached s'.root x := by
  obtain rfl | ⟨⟨a, k, w⟩, he, rfl⟩ := hx
  · exact .inl hcleared.root.symm
  · refine .inr ⟨(a, k, w), mem_edges.mpr ?_, rfl⟩
    have hak := mem_edges.mp he
    rw [hcleared.binding, if_neg, hak]
    rintro ⟨rfl, rfl⟩
    exact hne hak

theorem Cleared.clear (hcleared : Cleared s s' d source) (h : Inv s) (hclear : Clear s v d)
    (hempty : ∀ w, s.binding d source = some w → s.tree.dir w = true →
      ∀ k, s.binding w k = none) : Clear s' v d := by
  unfold Clear
  rw [hcleared.root]
  have hstep {x y : ℕ} (hup : s.tree.Up x y) (hx : x ≠ v) (hw : s.binding d source ≠ some x) :
      s'.tree.Up x y ∧ x ≠ v := by
    obtain ⟨k, hk, hdir⟩ := hup
    refine ⟨⟨k, mem_edges.mpr ?_, (hcleared.dir x).trans hdir⟩, hx⟩
    have hyk := mem_edges.mp hk
    rw [hcleared.binding, if_neg, hyk]
    rintro ⟨rfl, rfl⟩
    exact hw hyk
  cases hb : s.binding d source with
  | none =>
    exact ReflTransGen.mono (fun x y ⟨hup, hx⟩ => hstep hup hx (by rw [hb]; nofun)) _ _ hclear
  | some w =>
    have hedge := mem_edges.mpr hb
    have hnone (k : Name) (z : ℕ) : (w, k, z) ∉ s.tree.edges := fun hz => by
      have hdir := (h.tree.ends hz).2.1
      exact not_mem_edges (hempty w hb hdir k) z hz
    refine ReflTransGen.mono (fun x y ⟨hup, hx, hxw⟩ => hstep hup hx ?_) _ _
      (hclear.avoids (h.tree.ne_of_edge hedge).symm hnone)
    rw [hb]
    exact fun hc => hxw (some.inj hc).symm

theorem Cleared.opened (hcleared : Cleared s s' d source) (h : Inv s)
    (hn : s.nodes.get d = some n) (hc : n.directory? = some c) (hl : n.links ≠ 0) :
    ∃ n₁ c₁, s'.nodes.get d = some n₁ ∧ n₁.directory? = some c₁ ∧ n₁.links ≠ 0 ∧
      c₁.contents.nextCookie = c.contents.nextCookie ∧ c₁.contents.get source = none := by
  obtain ⟨hdir, hattached⟩ := h.attached hn hc hl
  obtain ⟨n₁, hn₁⟩ := (hcleared.live d).mpr ⟨n, hn⟩
  have hdir₁ : s'.tree.dir d = true := (hcleared.dir d).trans hdir
  obtain ⟨c₁, hc₁⟩ := isSome_iff_exists.mp
    ((tree_dir_of_get hn₁).symm.trans hdir₁)
  refine ⟨n₁, c₁, hn₁, hc₁, ?_, hcleared.cookie hn hc hn₁ hc₁, ?_⟩
  · rw [← tree_links_of_get hn₁, ← hcleared.inv.tree.attached_iff_links ⟨n₁, hn₁⟩ hdir₁]
    exact hcleared.attached hattached fun hself =>
      h.tree.ne_of_edge (mem_edges.mpr hself) rfl
  · rw [← binding_of_directory hn₁ hc₁, hcleared.binding, if_pos ⟨rfl, rfl⟩]

theorem wp_move (hb : Bound s d source v n c e m) (hn' : s.nodes.get d' = some n')
    (hc' : n'.directory? = some c') (hne : d ≠ d') (hd' : v ≠ d')
    (hfree : c'.contents.get target = none) (hcapacity : c'.contents.HasCapacity)
    (hQ : ∀ s', Mapped s s' (moveNode s d source d' target v) → Q () s') :
    wp T (do
      removeEntry d source
      insertEntry d' target v
      reparent d v d') Q E s := by
  have hfirst (k : TmpfsNode) : (s.put d k).nodes.get d' = some n' := by
    rw [get_put, if_neg hne.symm, hn']
  rw [wp_bind, wp_removeEntry hb.holder hb.directory hb.entry, wp_bind]
  refine insertEntry_spec (hfirst _) hc' hfree (fun _ => ?_) fun hno => absurd hcapacity hno
  have hget (k k' : TmpfsNode) : ((s.put d k).put d' k').nodes.get d = some k := by
    rw [get_put, if_neg hne, get_put, if_pos rfl]
  have hget' (k k' : TmpfsNode) : ((s.put d k).put d' k').nodes.get d' = some k' := by
    rw [get_put, if_pos rfl]
  have hgetv (k k' : TmpfsNode) : ((s.put d k).put d' k').nodes.get v = some m := by
    rw [get_put, if_neg hd', get_put, if_neg hb.ne, hb.node]
  rw [wp_reparent (hget _ _) (hget' _ _) (hgetv _ _) hb.ne hd' hne
    (by rw [links_setContents]; exact hb.release)]
  refine hQ _ ((((((((Mapped.refl s).put hb.holder (isSome_directory?_setContents _)).put (hfirst _)
    (isSome_directory?_setContents _)).put (hgetv _ _) (isSome_directory?_setParent d')).put ?_
    (f := (·.setLinks _)) fun _ => rfl).put ?_ (f := (·.setLinks _)) fun _ => rfl)).congr
    fun {x k} _ => ?_)
  · rw [get_put, if_neg hb.ne.symm, hget]
  · rw [get_put, if_neg hne.symm, get_put, if_neg hd'.symm, hget']
  · unfold moveNode
    simp only [hb.kind]
    by_cases hx : x = d
    · subst hx
      simp only [if_true, hne, hb.ne.symm, if_false]
    · by_cases hx' : x = d'
      · subst hx'
        simp only [if_true, hne.symm, hd'.symm, if_false]
      · simp only [hx, hx', if_false]

theorem renameAcross_keeps (h : Inv s) (hd : s.nodes.get d = some n) (hdc : n.directory? = some c)
    (hd' : s.nodes.get d' = some n') (hdc' : n'.directory? = some c') (hne : d ≠ d') :
    Keeps (renameAcross d source d' target) s := by
  unfold Keeps renameAcross
  rw [wp_bind, wp_getDirectory hd hdc, wp_bind]
  refine wp_okOr (fun v hv => ?_) fun _ => .refl s
  have hsource : s.binding d source = some v := (binding_of_directory hd hdc source).trans hv
  obtain ⟨_, _, _, m, hbound⟩ := h.bound hsource
  rw [wp_bind]
  refine ensureDirectoryMoveIsAcyclic_spec h hbound.node ⟨n', hd'⟩ (fun _ => ?_) fun _ => .refl s
  rw [wp_bind, wp_getNode hd, wp_bind, wp_getNode hd', wp_bind]
  refine wp_ensure (fun hl => ?_) fun _ => .refl s
  rw [wp_bind, wp_getDirectory hd hdc, wp_bind]
  refine wp_okOr (fun v' hv' => ?_) fun _ => .refl s
  obtain rfl := mem_unique hv' hv
  rw [wp_bind]
  refine ensureDirectoryMoveIsAcyclic_spec h hbound.node ⟨n', hd'⟩ (fun hclear => ?_)
    fun _ => .refl s
  rw [wp_bind, wp_getDirectory hd' hdc', wp_bind]
  have hbinding' := binding_of_directory hd' hdc'
  have hlive (w : ℕ) (hw : c'.contents.get target = some w) : ∃ n, s.nodes.get w = some n :=
    (h.tree.ends (mem_edges.mpr ((hbinding' target).trans hw))).2.2
  refine replaceTarget_spec hlive (fun _ => .refl s) ⟨m, hbound.node⟩ ?_
  split_ifs
  · exact h
  · rw [wp_bind]
    refine lockTarget_spec hlive (fun _ => .refl s) _ rfl fun hempty => ?_
    rw [wp_bind]
    refine wp_ensure (fun hcapacity => ?_) fun _ => .refl s
    rw [wp_bind]
    refine evictTarget_spec h (hbinding' target) hempty fun s' hcleared => ?_
    have hstill : s'.binding d source = some v' := by
      rw [hcleared.binding, if_neg fun hc => hne hc.1, hsource]
    obtain ⟨_, _, _, _, hb⟩ := hcleared.inv.bound hstill
    obtain ⟨hdir, hattached⟩ := h.attached hd' hdc' hl.2
    obtain ⟨n₁, c₁, hn₁, hc₁, hl₁, hcookie, hfree⟩ := hcleared.opened h hd' hdc' hl.2
    have hcapacity₁ : c₁.contents.HasCapacity := by
      unfold TmpfsDirectoryData.HasCapacity
      rw [hcookie]
      exact hcapacity
    have hclear' (hdirv : s.tree.dir v' = true) : Clear s v' d' := hclear hdirv hdir hattached
    have hvd' : v' ≠ d' := by
      cases hdirv : s.tree.dir v' with
      | true =>
        refine ((hclear' hdirv).ne ?_).symm
        rintro rfl
        exact h.tree.root_unnamed (mem_edges.mpr hsource)
      | false =>
        rintro rfl
        rw [hdir] at hdirv
        cases hdirv
    have hmove := wp_move (T := (· = .deadlock)) (E := fun _ => Unchanged s) hb hn₁ hc₁ hne hvd'
      hfree hcapacity₁ (Q := fun _ s'' => wp (· = .deadlock) (dropTarget (c'.contents.get target))
        (fun _ => Inv) (fun _ => Unchanged s) s'') fun s'' hm => ?_
    · simpa only [wp_bind] using hmove
    · refine dropTarget_spec (hm.inv_move hcleared.inv hb hn₁ hc₁ hne hvd' hl₁ hfree fun hdirv => ?_)
        fun w hw => (hm.live w).mpr ((hcleared.live w).mpr (hlive w hw))
      rw [hcleared.dir] at hdirv
      exact hcleared.clear h (hclear' hdirv) fun w hw => hempty w ((hbinding' target).symm.trans hw)

theorem rename_keeps (h : Inv s) (hd : ∃ n, s.nodes.get d = some n) {d' : Option ℕ}
    (hd' : ∀ v, d' = some v → ∃ n, s.nodes.get v = some n) :
    Keeps (rename d source d' target) s := by
  obtain ⟨n, hn⟩ := hd
  unfold Keeps rename
  simp only [wp_bind]
  refine validateLeafName_spec ?_ fun _ => .refl s
  refine validateLeafName_spec ?_ fun _ => .refl s
  refine wp_okOr (fun v hv => ?_) fun _ => .refl s
  obtain ⟨n', hn'⟩ := hd' v hv
  refine getDirectory_spec hn (fun c hc => ?_) fun _ => .refl s
  refine getDirectory_spec hn' (fun c' hc' => ?_) fun _ => .refl s
  split_ifs with hsame
  · exact renameSame_keeps h ⟨n, hn⟩
  · exact renameAcross_keeps h hn hc hn' hc' hsame

end Across

end Roanix.Fs.TmpfsM
