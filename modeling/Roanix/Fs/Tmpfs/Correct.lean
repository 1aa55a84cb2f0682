import Roanix.Fs.Tmpfs.Rename
import Roanix.Lib.Machine

/-! Every state that operations on names lead to is a tree with the right counts, and an operation that
fails changes nothing of it. -/
namespace Roanix.Fs.TmpfsM
open Relation (ReflTransGen)
open Lib (Act Index Machine NameTree)
open Lib.Act
open Tmpfs

inductive Op where
  | create (directory : ℕ) (name : Name) (kind : CreateKind)
  | link (directory : ℕ) (name : Name) (target : Option ℕ)
  | unlink (directory : ℕ) (name : Name) (removeDirectory : Bool)
  | rename (directory : ℕ) (sourceName : Name) (targetDirectory : Option ℕ) (targetName : Name)

def Op.run : Op → OpM Unit
  | .create directory name kind => do
    let _ ← TmpfsM.create directory name kind
  | .link directory name target => TmpfsM.link directory name target
  | .unlink directory name removeDirectory => TmpfsM.unlink directory name removeDirectory
  | .rename directory sourceName targetDirectory targetName =>
    TmpfsM.rename directory sourceName targetDirectory targetName

def Op.args : Op → List ℕ
  | .create directory _ _ => [directory]
  | .link directory _ target => directory :: target.toList
  | .unlink directory _ _ => [directory]
  | .rename directory _ targetDirectory _ => directory :: targetDirectory.toList

def Op.Callable (op : Op) (s : Tmpfs) : Prop := ∀ v ∈ op.args, ∃ n, s.nodes.get v = some n

inductive Step : Tmpfs → Tmpfs → Prop
  | op {s s' : Tmpfs} (op : Op) (hop : op.Callable s) (hleaves : op.run.Leaves s s') : Step s s'
  | hold {s : Tmpfs} {v : ℕ} {n : TmpfsNode} (hn : s.nodes.get v = some n) :
    Step s { s with held := Function.update s.held v (s.held v + 1) }
  | release {s s' : Tmpfs} {v : ℕ} (hv : s.held v ≠ 0)
    (hdrop : dropReference v { s with held := Function.update s.held v (s.held v - 1) } =
      .ok () s') : Step s s'

def machine : Machine Tmpfs where
  init s := s = new
  step := Step

section Invariant
variable {s s' : Tmpfs}

theorem Op.keeps (h : Inv s) (op : Op) (hop : op.Callable s) : Keeps op.run s := by
  cases op with
  | create directory name kind =>
    have hkeeps : Keeps (TmpfsM.create directory name kind) s :=
      create_keeps h (hop _ (List.mem_singleton_self _))
    unfold Keeps Op.run at *
    rw [wp_bind]
    exact hkeeps
  | link directory name target =>
    exact link_keeps h (hop _ List.mem_cons_self) fun v hv =>
      hop v (List.mem_cons_of_mem _ (Option.mem_toList.mpr hv))
  | unlink directory name removeDirectory =>
    exact unlink_keeps h (hop _ (List.mem_singleton_self _)) removeDirectory
  | rename directory sourceName targetDirectory targetName =>
    exact rename_keeps h (hop _ List.mem_cons_self) fun v hv =>
      hop v (List.mem_cons_of_mem _ (Option.mem_toList.mpr hv))

theorem get_new (x : ℕ) : new.nodes.get x = if x = 1 then some (newDirectory none) else none :=
  Index.get_insert 1 _ .empty x

theorem binding_new (d : ℕ) (name : Name) : new.binding d name = none := by
  unfold binding
  rw [get_new]
  split_ifs <;> rfl

theorem inv_new : Inv new := by
  have hnone {d v : ℕ} {name : Name} : (d, name, v) ∉ new.tree.edges :=
    not_mem_edges (binding_new d name) v
  have hroot : new.nodes.get 1 = some (newDirectory none) := get_new 1
  have honly {x : ℕ} {n : TmpfsNode} (hn : new.nodes.get x = some n) : x = 1 := by
    by_contra hx
    rw [get_new, if_neg hx] at hn
    cases hn
  have hdir : new.tree.dir 1 = true := tree_dir_of_get hroot
  refine ⟨⟨fun he => absurd he hnone, fun he => absurd he hnone, ⟨⟨_, hroot⟩, hdir⟩, hnone,
    fun {v} ⟨n, hn⟩ hd => ?_, fun {v} ⟨n, hn⟩ _ _ => ?_, fun {v} ⟨n, hn⟩ _ ha => ?_,
    fun he => absurd he hnone, fun he => absurd he hnone, fun {v} ⟨n, hn⟩ _ _ => ?_⟩,
    fun {v n d} hn hd => ?_, fun {v n} hn => ?_, rfl, fun hv => absurd rfl hv⟩
  · rw [honly hn] at hd
    cases hd
  · rw [honly hn, NameTree.subdirs_eq_zero hnone]
    rfl
  · exact absurd (.inl (honly hn)) ha
  · rw [honly hn]
    exact .refl
  · obtain rfl := honly hn
    obtain rfl := Option.mem_unique hn hroot
    obtain rfl := Option.some.inj hd
    exact TmpfsDirectoryData.ok_empty 2
  · rw [honly hn]
    exact Nat.lt_succ_self 1

theorem Inv.hold (h : Inv s) (held : ℕ → ℕ) (hheld : ∀ v, held v ≠ 0 → ∃ n, s.nodes.get v = some n) :
    Inv { s with held := held } :=
  { h with held := hheld _ }

theorem Step.inv (h : Inv s) (hstep : Step s s') : Inv s' := by
  cases hstep with
  | op op hop hleaves =>
    exact wp_leaves (op.keeps h hop) hleaves (fun _ h' => h') fun _ hsame => hsame.inv h
  | @hold v n hn =>
    refine h.hold _ fun x hx => ?_
    obtain ⟨rfl, -⟩ | ⟨-, hx⟩ := Lib.update_cases (· ≠ 0) hx
    · exact ⟨n, hn⟩
    · exact h.held hx
  | @release _ v hv hdrop =>
    have hheld := h.hold (Function.update s.held v (s.held v - 1)) fun x hx => ?_
    · have hkeep := wp_ok (T := fun _ => True) (E := fun _ _ => True)
        (dropReference_spec hheld (h.held hv)) hdrop
      exact hkeep
    · obtain ⟨rfl, -⟩ | ⟨-, hx⟩ := Lib.update_cases (· ≠ 0) hx
      · exact h.held hv
      · exact h.held hx

theorem Reachable.inv (hs : machine.Reachable s) : Inv s :=
  hs.invariant (fun _ h => h ▸ inv_new) fun _ _ h hstep => Step.inv h hstep

end Invariant

def Tmpfs.up (s : Tmpfs) (v : ℕ) : ℕ := (s.tree.parent v).getD v

/-- What the nodes and the entries say about each other. A directory is attached if it is the root or
an entry names it. -/
structure Sound (s : Tmpfs) : Prop where
  file : ∀ {v n}, s.nodes.get v = some n → n.kind ≠ .directory → n.links = s.tree.named v
  attached : ∀ {v n}, s.nodes.get v = some n → n.kind = .directory → s.tree.Attached s.root v →
    n.links = 2 + s.tree.subdirs v
  detached : ∀ {v n}, s.nodes.get v = some n → n.kind = .directory → ¬ s.tree.Attached s.root v →
    n.links = 0
  sole : ∀ {v n}, s.nodes.get v = some n → n.kind = .directory → s.tree.Attached s.root v →
    v ≠ s.root → ∃ d name, (∀ d' name', s.binding d' name' = some v ↔ d' = d ∧ name' = name) ∧
      n.parent = some d
  rooted : ∀ {v n}, s.nodes.get v = some n → n.kind = .directory → s.tree.Attached s.root v →
    ∃ k, s.up^[k] v = s.root
  indexes : ∀ {v n d}, s.nodes.get v = some n → n.directory? = some d → d.contents.Ok
  used : s.usedNodes = s.nodes.entries.length

section Sound
variable {s : Tmpfs}

theorem Inv.iterate_up (h : Inv s) {v : ℕ} (hpath : ReflTransGen s.tree.Up v s.root) :
    ∃ k, s.up^[k] v = s.root := by
  induction hpath using ReflTransGen.head_induction_on with
  | refl => exact ⟨0, rfl⟩
  | head hup _ ih =>
    obtain ⟨k, hk⟩ := ih
    obtain ⟨name, he, hdir⟩ := hup
    refine ⟨k + 1, ?_⟩
    rw [Function.iterate_succ_apply, up, h.tree.parent he hdir]
    exact hk

theorem Inv.sound (h : Inv s) : Sound s where
  file hn hk := by
    rw [← tree_links_of_get hn]
    refine h.tree.file ⟨_, hn⟩ (Bool.eq_false_iff.mpr fun hd => hk ?_)
    rw [TmpfsNode.kind_eq_directory, ← tree_dir_of_get hn]
    exact hd
  attached hn hk ha := by
    rw [← tree_links_of_get hn]
    exact h.tree.attached ⟨_, hn⟩ ((tree_dir_iff hn).mpr hk) ha
  detached hn hk ha := by
    rw [← tree_links_of_get hn]
    exact (h.tree.detached ⟨_, hn⟩ ((tree_dir_iff hn).mpr hk) ha).1
  sole {v n} hn hk ha hne := by
    obtain ⟨⟨d, name, w⟩, he, rfl⟩ := ha.resolve_left hne
    have hdir := (tree_dir_iff hn).mpr hk
    refine ⟨d, name, fun d' name' => ⟨fun hb => ?_, ?_⟩, ?_⟩
    · exact h.tree.sole (mem_edges.mpr hb) he hdir
    · rintro ⟨rfl, rfl⟩
      exact mem_edges.mp he
    · have hparent := h.tree.parent he hdir
      unfold Tmpfs.tree at hparent
      dsimp only at hparent
      rw [hn] at hparent
      exact hparent
  rooted hn hk ha := h.iterate_up (h.tree.rooted ⟨_, hn⟩ ((tree_dir_iff hn).mpr hk) ha)
  indexes := h.contents
  used := h.used

end Sound

theorem tree_invariant {s : Tmpfs} (hs : machine.Reachable s) : Sound s ∧
    ∀ op : Op, op.Callable s → ∀ e s', op.run s = .err e s' →
      s'.nodes = s.nodes ∧ s'.usedNodes = s.usedNodes := by
  have h := Reachable.inv hs
  refine ⟨h.sound, fun op hop e s' herr => ?_⟩
  have hsame := wp_err (op.keeps h hop) herr
  exact ⟨hsame.nodes, by rw [hsame.rest]⟩

section Example

theorem Op.callable_of_all {s : Tmpfs} (op : Op)
    (h : op.args.all (fun v => (s.nodes.get v).isSome) = true) : op.Callable s := fun v hv =>
  Option.isSome_iff_exists.mp (List.all_eq_true.mp h v hv)

theorem tree_invariant_example : ∃ s, machine.Reachable s ∧ Sound s ∧ s.binding 3 [97] = some 2 ∧
    ∃ s', (Op.rename 1 [98] (some 2) [98]).run s = .err .invalidArgument s' ∧
      s'.nodes = s.nodes := by
  have h : machine.Reachable new := .init rfl
  have h := h.step (.op (.create 1 [97] .directory) (Op.callable_of_all _ rfl) (.inl ⟨(), rfl⟩))
  have h := h.step (.op (.create 1 [98] .directory) (Op.callable_of_all _ rfl) (.inl ⟨(), rfl⟩))
  have h := h.step (.op (.rename 1 [97] (some 3) [97]) (Op.callable_of_all _ rfl)
    (.inl ⟨(), rfl⟩))
  refine ⟨_, h, (tree_invariant h).1, rfl, _, rfl, ?_⟩
  exact ((tree_invariant h).2 (.rename 1 [98] (some 2) [98]) (Op.callable_of_all _ rfl) _ _ rfl).1

end Example

end Roanix.Fs.TmpfsM
