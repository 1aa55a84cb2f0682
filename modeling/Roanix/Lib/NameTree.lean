import Mathlib.Data.Finset.Card

/-! Trees of names. A directory binds names to nodes; a node counts its links, and a directory knows
the one above it. -/
namespace Roanix.Lib
open Finset
open Relation (ReflTransGen)

/-- A binding is a directory, a name in it and the node that it names. -/
structure NameTree (α ν : Type) where
  edges : Finset (α × ν × α)
  live : α → Prop
  dir : α → Bool
  links : α → ℕ
  parent : α → Option α

theorem card_filter_insert {β : Type} [DecidableEq β] {s : Finset β} {b : β} (h : b ∉ s)
    (p : β → Prop) [DecidablePred p] :
    ((insert b s).filter p).card = (s.filter p).card + if p b then 1 else 0 := by
  rw [filter_insert]
  split_ifs with hp
  · exact card_insert_of_notMem fun hb => h (mem_of_mem_filter b hb)
  · rfl

theorem card_filter_erase {β : Type} [DecidableEq β] {s : Finset β} {b : β} (h : b ∈ s)
    (p : β → Prop) [DecidablePred p] :
    ((s.erase b).filter p).card + (if p b then 1 else 0) = (s.filter p).card := by
  rw [← card_filter_insert (notMem_erase b s), insert_erase h]

namespace NameTree
variable {α ν : Type} [DecidableEq α]

def named (t : NameTree α ν) (v : α) : ℕ := (t.edges.filter fun e => e.2.2 = v).card

def subdirs (t : NameTree α ν) (d : α) : ℕ :=
  (t.edges.filter fun e => e.1 = d ∧ t.dir e.2.2 = true).card

def Up (t : NameTree α ν) (v d : α) : Prop := ∃ n, (d, n, v) ∈ t.edges ∧ t.dir v = true

def Attached (t : NameTree α ν) (root v : α) : Prop := v = root ∨ ∃ e ∈ t.edges, e.2.2 = v

structure Ok (root : α) (t : NameTree α ν) : Prop where
  functional : ∀ {d n v w}, (d, n, v) ∈ t.edges → (d, n, w) ∈ t.edges → v = w
  ends : ∀ {d n v}, (d, n, v) ∈ t.edges → t.live d ∧ t.dir d = true ∧ t.live v
  top : t.live root ∧ t.dir root = true
  root_unnamed : ∀ {d n}, (d, n, root) ∉ t.edges
  file : ∀ {v}, t.live v → t.dir v = false → t.links v = t.named v
  attached : ∀ {v}, t.live v → t.dir v = true → t.Attached root v → t.links v = 2 + t.subdirs v
  detached : ∀ {v}, t.live v → t.dir v = true → ¬ t.Attached root v →
    t.links v = 0 ∧ ∀ {n w}, (v, n, w) ∉ t.edges
  sole : ∀ {d n d' n' v}, (d, n, v) ∈ t.edges → (d', n', v) ∈ t.edges → t.dir v = true →
    d = d' ∧ n = n'
  parent : ∀ {d n v}, (d, n, v) ∈ t.edges → t.dir v = true → t.parent v = some d
  rooted : ∀ {v}, t.live v → t.dir v = true → t.Attached root v → ReflTransGen t.Up v root

variable {t t' : NameTree α ν} {root d d' v : α} {n n' : ν}

theorem Ok.attached_of_edge (h : t.Ok root) (he : (d, n, v) ∈ t.edges) : t.Attached root d := by
  by_contra hd
  obtain ⟨hlive, hdir, -⟩ := h.ends he
  exact (h.detached hlive hdir hd).2 he

theorem Ok.attached_iff_links (h : t.Ok root) (hlive : t.live v) (hdir : t.dir v = true) :
    t.Attached root v ↔ t.links v ≠ 0 := by
  refine ⟨fun ha hz => ?_, fun hl => ?_⟩
  · have := h.attached hlive hdir ha
    omega
  · by_contra ha
    exact hl (h.detached hlive hdir ha).1

theorem Ok.ne_of_edge (h : t.Ok root) (he : (d, n, v) ∈ t.edges) : v ≠ d := by
  rintro rfl
  -- The only way up from such a directory leads back to it.
  have hstay : ∀ x, ReflTransGen t.Up v x → x = v := by
    intro x hx
    induction hx with
    | refl => rfl
    | tail _ hup ih =>
      subst ih
      obtain ⟨m, hm, hdir⟩ := hup
      exact (h.sole hm he hdir).1
  have hroot := hstay root (h.rooted (h.ends he).1 (h.ends he).2.1 (h.attached_of_edge he))
  subst hroot
  exact h.root_unnamed he

theorem named_eq_zero : t.named v = 0 ↔ ∀ e ∈ t.edges, e.2.2 ≠ v := by
  unfold named
  rw [card_eq_zero, filter_eq_empty_iff]

theorem subdirs_eq_zero (hout : ∀ {m w}, (v, m, w) ∉ t.edges) : t.subdirs v = 0 := by
  unfold subdirs
  rw [card_eq_zero, filter_eq_empty_iff]
  rintro ⟨a, m, w⟩ he ⟨rfl, -⟩
  exact hout he

theorem Ok.links_of_named (h : t.Ok root) (he : (d, n, v) ∈ t.edges) (hfile : t.dir v = false) :
    t.links v ≠ 0 := by
  rw [h.file (h.ends he).2.2 hfile]
  exact fun hz => named_eq_zero.mp hz _ he rfl

theorem Ok.links_of_subdir (h : t.Ok root) (he : (d, n, v) ∈ t.edges) (hdir : t.dir v = true) :
    2 < t.links d := by
  obtain ⟨hlive, hd, -⟩ := h.ends he
  rw [h.attached hlive hd (h.attached_of_edge he)]
  have : 0 < t.subdirs d :=
    card_pos.mpr ⟨_, mem_filter.mpr ⟨he, rfl, hdir⟩⟩
  omega

/-- Only the names of one node change, with the node itself and the links of what names it. -/
theorem Ok.change (h : t.Ok root) (hroot : root ≠ v)
    (hlive : ∀ {x}, x ≠ v → (t'.live x ↔ t.live x))
    (hold : ∀ {x}, x ≠ v → t.live x → t'.dir x = t.dir x ∧ t'.parent x = t.parent x ∧
      t'.links x + t.subdirs x = t.links x + t'.subdirs x)
    (hedges : ∀ {a m x}, x ≠ v → ((a, m, x) ∈ t'.edges ↔ (a, m, x) ∈ t.edges))
    (hname : ∀ {a m}, (a, m, v) ∈ t'.edges → t'.live v ∧ a ≠ v ∧ ((a, m, v) ∈ t.edges ∨
      (t.live a ∧ t.dir a = true ∧ t.Attached root a) ∧ ∀ w, (a, m, w) ∉ t.edges))
    (hfile : t'.live v → t'.dir v = false → t'.links v = t'.named v)
    (hsole : ∀ {a m}, t'.dir v = true → (a, m, v) ∈ t'.edges →
      t'.parent v = some a ∧ ∀ {a' m'}, (a', m', v) ∈ t'.edges → a = a' ∧ m = m')
    (hat : t'.live v → t'.dir v = true → t'.Attached root v →
      t'.links v = 2 + t'.subdirs v ∧ ReflTransGen t'.Up v root)
    (hloose : t'.live v → t'.dir v = true → ¬ t'.Attached root v → t'.links v = 0)
    (hbelow : ∀ {m w}, (v, m, w) ∈ t.edges → t'.live v ∧ t'.dir v = true ∧ t'.Attached root v) :
    t'.Ok root := by
  have hattached {x : α} (hx : x ≠ v) : t'.Attached root x ↔ t.Attached root x :=
    or_congr_right ⟨fun ⟨_, he, hex⟩ => ⟨_, (hedges (hex ▸ hx)).mp he, hex⟩,
      fun ⟨_, he, hex⟩ => ⟨_, (hedges (hex ▸ hx)).mpr he, hex⟩⟩
  have hholder {a x : α} {m : ν} (he : (a, m, x) ∈ t'.edges) :
      t'.live a ∧ t'.dir a = true ∧ t'.Attached root a := by
    by_cases hav : a = v
    · subst hav
      exact hbelow ((hedges fun hx => (hname (hx ▸ he)).2.1 rfl).mp he)
    · have hkept (hk : t.live a ∧ t.dir a = true ∧ t.Attached root a) :
          t'.live a ∧ t'.dir a = true ∧ t'.Attached root a :=
        ⟨(hlive hav).mpr hk.1, (hold hav hk.1).1.trans hk.2.1, (hattached hav).mpr hk.2.2⟩
      have hedge (he : (a, m, x) ∈ t.edges) := hkept ⟨(h.ends he).1, (h.ends he).2.1,
        h.attached_of_edge he⟩
      by_cases hx : x = v
      · subst hx
        exact (hname he).2.2.elim hedge fun hk => hkept hk.1
      · exact hedge ((hedges hx).mp he)
  have hpath {x : α} (hr : ReflTransGen t.Up x root) : x ≠ v → ReflTransGen t'.Up x root := by
    induction hr using ReflTransGen.head_induction_on with
    | refl => exact fun _ => .refl
    | @head a b hab _ ih =>
      intro hav
      obtain ⟨m, hm, had⟩ := hab
      refine .head ⟨m, (hedges hav).mpr hm, (hold hav (h.ends hm).2.2).1.trans had⟩ ?_
      by_cases hbv : b = v
      · subst hbv
        obtain ⟨hlb, hdb, hab⟩ := hbelow hm
        exact (hat hlb hdb hab).2
      · exact ih hbv
  have htop := (hold hroot h.top.1).1.trans h.top.2
  refine ⟨?_, ?_, ⟨(hlive hroot).mpr h.top.1, htop⟩, ?_, ?_, ?_, ?_, ?_, ?_, ?_⟩
  · intro a m x y hx hy
    have hback {z w : α} (hz : (a, m, z) ∈ t'.edges) (hw : (a, m, w) ∈ t.edges) :
        (a, m, z) ∈ t.edges := by
      by_cases hzv : z = v
      · subst hzv
        exact (hname hz).2.2.resolve_right fun hn => hn.2 w hw
      · exact (hedges hzv).mp hz
    by_cases hxv : x = v
    · by_cases hyv : y = v
      · exact hxv.trans hyv.symm
      · have hy := (hedges hyv).mp hy
        exact h.functional (hback hx hy) hy
    · have hx := (hedges hxv).mp hx
      exact h.functional hx (hback hy hx)
  · intro a m x hx
    obtain ⟨ha, hda, -⟩ := hholder hx
    refine ⟨ha, hda, ?_⟩
    by_cases hxv : x = v
    · subst hxv
      exact (hname hx).1
    · exact (hlive hxv).mpr (h.ends ((hedges hxv).mp hx)).2.2
  · exact fun hx => h.root_unnamed ((hedges hroot).mp hx)
  · intro x hx hxd
    by_cases hxv : x = v
    · subst hxv
      exact hfile hx hxd
    · have hl := (hlive hxv).mp hx
      obtain ⟨hdx, -, hlinks⟩ := hold hxv hl
      have hfile := h.file hl (hdx.symm.trans hxd)
      have hnamed : t'.named x = t.named x := congrArg card <| by
        ext ⟨a, m, y⟩
        simp only [mem_filter]
        exact and_congr_left fun hy => hedges (hy ▸ hxv)
      rw [subdirs_eq_zero fun he => ?_, subdirs_eq_zero fun he => ?_] at hlinks
      · omega
      · exact absurd ((hholder he).2.1.symm.trans hxd) (by decide)
      · exact absurd ((h.ends he).2.1.symm.trans (hdx.symm.trans hxd)) (by decide)
  · intro x hx hxd hxa
    by_cases hxv : x = v
    · subst hxv
      exact (hat hx hxd hxa).1
    · have hl := (hlive hxv).mp hx
      obtain ⟨hdx, -, hlinks⟩ := hold hxv hl
      have := h.attached hl (hdx.symm.trans hxd) ((hattached hxv).mp hxa)
      omega
  · intro x hx hxd hxa
    have hout {m : ν} {w : α} : (x, m, w) ∉ t'.edges := fun he => hxa (hholder he).2.2
    refine ⟨?_, hout⟩
    by_cases hxv : x = v
    · subst hxv
      exact hloose hx hxd hxa
    · have hl := (hlive hxv).mp hx
      obtain ⟨hdx, -, hlinks⟩ := hold hxv hl
      obtain ⟨hzero, hnone⟩ := h.detached hl (hdx.symm.trans hxd) (mt (hattached hxv).mpr hxa)
      rw [subdirs_eq_zero hout, subdirs_eq_zero hnone] at hlinks
      omega
  · intro a m a' m' x hx hx' hxd
    by_cases hxv : x = v
    · subst hxv
      exact (hsole hxd hx).2 hx'
    · rw [hedges hxv] at hx hx'
      exact h.sole hx hx' ((hold hxv (h.ends hx).2.2).1.symm.trans hxd)
  · intro a m x hx hxd
    by_cases hxv : x = v
    · subst hxv
      exact (hsole hxd hx).1
    · rw [hedges hxv] at hx
      obtain ⟨hdx, hp, -⟩ := hold hxv (h.ends hx).2.2
      exact hp.trans (h.parent hx (hdx.symm.trans hxd))
  · intro x hx hxd hxa
    by_cases hxv : x = v
    · subst hxv
      exact (hat hx hxd hxa).2
    · have hl := (hlive hxv).mp hx
      exact hpath (h.rooted hl ((hold hxv hl).1.symm.trans hxd) ((hattached hxv).mp hxa)) hxv

section Moves
variable [DecidableEq ν] {e : α × ν × α}

theorem named_insert (t' : NameTree α ν) (he : e ∉ t.edges) (hE : t'.edges = insert e t.edges) (x : α) :
    t'.named x = t.named x + if e.2.2 = x then 1 else 0 := by
  unfold named
  rw [hE]
  exact card_filter_insert he _

theorem subdirs_insert (t' : NameTree α ν) (he : e ∉ t.edges) (hE : t'.edges = insert e t.edges)
    (hdir : ∀ b ∈ t.edges, t'.dir b.2.2 = t.dir b.2.2) (x : α) :
    t'.subdirs x = t.subdirs x + if e.1 = x ∧ t'.dir e.2.2 = true then 1 else 0 := by
  unfold subdirs
  rw [hE, card_filter_insert he]
  congr 2
  exact filter_congr fun b hb => by rw [hdir b hb]

theorem named_erase (t' : NameTree α ν) (he : e ∈ t.edges) (hE : t'.edges = t.edges.erase e) (x : α) :
    t'.named x + (if e.2.2 = x then 1 else 0) = t.named x := by
  unfold named
  rw [hE]
  exact card_filter_erase he _

theorem subdirs_erase (t' : NameTree α ν) (he : e ∈ t.edges) (hE : t'.edges = t.edges.erase e)
    (hdir : ∀ x, t'.dir x = t.dir x) (x : α) :
    t'.subdirs x + (if e.1 = x ∧ t.dir e.2.2 = true then 1 else 0) = t.subdirs x := by
  unfold subdirs
  rw [hE, funext hdir]
  exact card_filter_erase he _

theorem Ok.create (h : t.Ok root) (hd : t.live d) (hdd : t.dir d = true) (ha : t.Attached root d)
    (hfree : ∀ w, (d, n, w) ∉ t.edges) (hv : ¬ t.live v)
    (hE : t'.edges = insert (d, n, v) t.edges) (hlive : ∀ x, t'.live x ↔ x = v ∨ t.live x)
    (hdir : ∀ x, t.live x → t'.dir x = t.dir x)
    (hlinks : ∀ x, t.live x → t'.links x = t.links x + if d = x ∧ t'.dir v = true then 1 else 0)
    (hnew : t'.links v = if t'.dir v = true then 2 else 1)
    (hparent : ∀ x, t.live x → t'.parent x = t.parent x)
    (habove : t'.dir v = true → t'.parent v = some d) : t'.Ok root := by
  have hmem {e : α × ν × α} : e ∈ t'.edges ↔ e = (d, n, v) ∨ e ∈ t.edges := by
    rw [hE, mem_insert]
  have hone {a : α} {m : ν} (he : (a, m, v) ∈ t'.edges) : d = a ∧ n = m := by
    obtain he | he := hmem.mp he
    · cases he
      exact ⟨rfl, rfl⟩
    · exact absurd (h.ends he).2.2 hv
  have hdv : d ≠ v := by
    rintro rfl
    exact hv hd
  have hout {m : ν} {w : α} : (v, m, w) ∉ t.edges := fun he => hv (h.ends he).1
  have hsubdirs := subdirs_insert t' (hfree v) hE fun b hb => hdir _ (h.ends hb).2.2
  have hup {a b : α} (hab : t.Up a b) : t'.Up a b := by
    obtain ⟨m, hm, ha⟩ := hab
    exact ⟨m, hmem.mpr (.inr hm), (hdir a (h.ends hm).2.2).trans ha⟩
  refine h.change (v := v) (fun hc => hv (hc ▸ h.top.1))
    (fun hx => (hlive _).trans (or_iff_right hx))
    (fun hx hl => ⟨hdir _ hl, hparent _ hl, ?_⟩)
    (fun hx => hmem.trans (or_iff_right fun hc => hx (congrArg (·.2.2) hc)))
    (fun he => ?_) (fun _ hvd => ?_) (fun hvd he => ?_) (fun _ hvd _ => ⟨?_, ?_⟩)
    (fun _ _ hna => absurd (.inr ⟨_, hmem.mpr (.inl rfl), rfl⟩) hna) fun he => absurd he hout
  · rw [hlinks _ hl, hsubdirs]
    dsimp only
    omega
  · obtain ⟨rfl, rfl⟩ := hone he
    exact ⟨(hlive v).mpr (.inl rfl), hdv, .inr ⟨⟨hd, hdd, ha⟩, hfree⟩⟩
  · have hnone : t.named v = 0 := named_eq_zero.mpr fun e he heq => hv (heq ▸ (h.ends he).2.2)
    rw [hnew, hvd, named_insert t' (hfree v) hE, hnone, if_pos rfl]
    rfl
  · obtain ⟨rfl, rfl⟩ := hone he
    exact ⟨habove hvd, hone⟩
  · rw [hnew, if_pos hvd, hsubdirs, subdirs_eq_zero hout, if_neg fun hc => hdv hc.1]
  · exact .head ⟨n, hmem.mpr (.inl rfl), hvd⟩
      (ReflTransGen.mono (fun _ _ => hup) _ _ (h.rooted hd hdd ha))

section
variable (h : t.Ok root) (hlive : ∀ x, t'.live x ↔ t.live x) (hdir : ∀ x, t'.dir x = t.dir x)
include h hlive hdir

theorem Ok.link (hd : t.live d) (hdd : t.dir d = true) (ha : t.Attached root d)
    (hfree : ∀ w, (d, n, w) ∉ t.edges) (hv : t.live v) (hvd : t.dir v = false)
    (hE : t'.edges = insert (d, n, v) t.edges)
    (hlinks : ∀ x, t'.links x = t.links x + if v = x then 1 else 0)
    (hparent : ∀ x, t'.parent x = t.parent x) : t'.Ok root := by
  have hmem {e : α × ν × α} : e ∈ t'.edges ↔ e = (d, n, v) ∨ e ∈ t.edges := by
    rw [hE, mem_insert]
  have hnot : t.dir v ≠ true := by rw [hvd]; decide
  have hnot' : t'.dir v ≠ true := by rwa [hdir]
  have hdv : d ≠ v := by
    rintro rfl
    exact hnot hdd
  have hvroot : root ≠ v := by
    rintro rfl
    exact hnot h.top.2
  refine h.change (v := v) hvroot (fun _ => hlive _)
    (fun hx _ => ⟨hdir _, hparent _, ?_⟩)
    (fun hx => hmem.trans (or_iff_right fun hc => hx (congrArg (·.2.2) hc)))
    (fun he => ⟨(hlive v).mpr hv, ?_⟩) (fun _ _ => ?_) (fun hd => absurd hd hnot')
    (fun _ hd => absurd hd hnot') (fun _ hd => absurd hd hnot')
    fun he => absurd (h.ends he).2.1 hnot
  · rw [hlinks, subdirs_insert t' (hfree v) hE fun b _ => hdir _, if_neg hx.symm,
      if_neg fun hc => hnot' hc.2]
    rfl
  · obtain he | he := hmem.mp he
    · cases he
      exact ⟨hdv, .inr ⟨⟨hd, hdd, ha⟩, hfree⟩⟩
    · exact ⟨(h.ne_of_edge he).symm, .inl he⟩
  · rw [hlinks, named_insert t' (hfree v) hE, h.file hv hvd]

/-- A name is removed: of a file, or of a directory without names in it. -/
theorem Ok.detach (he : (d, n, v) ∈ t.edges) (hempty : t.dir v = true → ∀ m w, (v, m, w) ∉ t.edges)
    (hE : t'.edges = t.edges.erase (d, n, v))
    (hfile : t.dir v = false → ∀ x, t'.links x + (if v = x then 1 else 0) = t.links x)
    (hgone : t.dir v = true → t'.links v = 0 ∧
      ∀ x, x ≠ v → t'.links x + (if d = x then 1 else 0) = t.links x)
    (hparent : ∀ x, x ≠ v → t'.parent x = t.parent x) : t'.Ok root := by
  have hmem {e : α × ν × α} : e ∈ t'.edges ↔ e ≠ (d, n, v) ∧ e ∈ t.edges := by
    rw [hE, mem_erase]
  have hsubdirs := subdirs_erase t' he hE hdir
  have hsole {a : α} {m : ν} (hd : t'.dir v = true) : (a, m, v) ∉ t'.edges := fun hc => by
    obtain ⟨hne, hc⟩ := hmem.mp hc
    obtain ⟨rfl, rfl⟩ := h.sole hc he ((hdir v).symm.trans hd)
    exact hne rfl
  have hvroot : root ≠ v := by
    rintro rfl
    exact h.root_unnamed he
  refine h.change (v := v) hvroot (fun _ => hlive _)
    (fun {x} hx _ => ⟨hdir _, hparent _ hx, ?_⟩)
    (fun hx => hmem.trans (and_iff_right fun hc => hx (congrArg (·.2.2) hc)))
    (fun hc => ⟨(hlive v).mpr (h.ends he).2.2, (h.ne_of_edge (hmem.mp hc).2).symm,
      .inl (hmem.mp hc).2⟩)
    (fun _ hvd => ?_) (fun hvd hc => absurd hc (hsole hvd)) (fun _ hvd hc => ?_)
    (fun _ hvd _ => (hgone ((hdir v).symm.trans hvd)).1)
    fun hc => absurd hc (hempty (h.ends hc).2.1 _ _)
  · have hs := hsubdirs x
    cases hvd : t.dir v with
    | false =>
      have hl := hfile hvd x
      rw [if_neg hx.symm] at hl
      simp only [hvd, Bool.false_eq_true, and_false, if_false] at hs
      omega
    | true =>
      have hl := (hgone hvd).2 x hx
      simp only [hvd, and_true] at hs
      omega
  · have hvd := (hdir v).symm.trans hvd
    have hn := named_erase t' he hE v
    have hl := hfile hvd v
    have := h.file (h.ends he).2.2 hvd
    rw [if_pos rfl] at hn hl
    omega
  · obtain hc | ⟨⟨a, m, w⟩, hc, rfl⟩ := hc
    · exact absurd hc.symm hvroot
    · exact absurd hc (hsole hvd)

/-- A name is moved to where there is none; a directory goes below one that leads to the root
without it. -/
theorem Ok.move (he : (d, n, v) ∈ t.edges) (hd' : t.live d') (hdd' : t.dir d' = true) (hdv : v ≠ d')
    (ha : t.Attached root d') (hfree : ∀ w, (d', n', w) ∉ t.edges)
    (hE : t'.edges = insert (d', n', v) (t.edges.erase (d, n, v)))
    (hlinks : ∀ x, t'.links x + (if d = x ∧ t.dir v = true then 1 else 0) =
      t.links x + if d' = x ∧ t.dir v = true then 1 else 0)
    (hparent : ∀ x, x ≠ v → t'.parent x = t.parent x)
    (habove : t.dir v = true → t'.parent v = some d')
    (hpath : t.dir v = true → ReflTransGen t'.Up d' root) : t'.Ok root := by
  have hmem {e : α × ν × α} : e ∈ t'.edges ↔ e = (d', n', v) ∨ e ≠ (d, n, v) ∧ e ∈ t.edges := by
    rw [hE, mem_insert, mem_erase]
  have hnew : (d', n', v) ∉ t.edges.erase (d, n, v) := fun hc => hfree v (mem_of_mem_erase hc)
  have hsubdirs (x : α) : t'.subdirs x + (if d = x ∧ t.dir v = true then 1 else 0) =
      t.subdirs x + if d' = x ∧ t.dir v = true then 1 else 0 := by
    have herase := subdirs_erase { t with edges := t.edges.erase (d, n, v) } he rfl
      (fun _ => rfl) x
    have hinsert := subdirs_insert (t := { t with edges := t.edges.erase (d, n, v) }) t' hnew hE
      (fun b _ => hdir _) x
    rw [hdir] at hinsert
    dsimp only at herase hinsert
    omega
  have hlv := (h.ends he).2.2
  have hattached : t'.Attached root v := .inr ⟨_, hmem.mpr (.inl rfl), rfl⟩
  have hvroot : root ≠ v := by
    rintro rfl
    exact h.root_unnamed he
  have hlinksv := hlinks v
  rw [if_neg fun hc => h.ne_of_edge he hc.1.symm, if_neg fun hc => hdv hc.1.symm] at hlinksv
  refine h.change (v := v) hvroot (fun _ => hlive _)
    (fun {x} hx _ => ⟨hdir _, hparent _ hx, ?_⟩) (fun hx => ?_)
    (fun hc => ⟨(hlive v).mpr hlv, ?_⟩) (fun _ hvd => ?_) (fun hvd hc => ?_)
    (fun _ hvd _ => ⟨?_, .head ⟨n', hmem.mpr (.inl rfl), hvd⟩ (hpath ((hdir v).symm.trans hvd))⟩)
    (fun _ _ hc => absurd hattached hc)
    fun hc => ⟨(hlive v).mpr hlv, (hdir v).trans (h.ends hc).2.1, hattached⟩
  · have hl := hlinks x
    have hs := hsubdirs x
    omega
  · rw [hmem, or_iff_right fun hc => hx (congrArg (·.2.2) hc),
      and_iff_right fun hc => hx (congrArg (·.2.2) hc)]
  · obtain hc | ⟨-, hc⟩ := hmem.mp hc
    · cases hc
      exact ⟨hdv.symm, .inr ⟨⟨hd', hdd', ha⟩, hfree⟩⟩
    · exact ⟨(h.ne_of_edge hc).symm, .inl hc⟩
  · have herase := named_erase { t with edges := t.edges.erase (d, n, v) } he rfl v
    have hinsert := named_insert (t := { t with edges := t.edges.erase (d, n, v) }) t' hnew hE v
    rw [if_pos rfl] at herase hinsert
    rw [h.file hlv ((hdir v).symm.trans hvd)] at hlinksv
    omega
  · have hone {a : α} {m : ν} (hc : (a, m, v) ∈ t'.edges) : d' = a ∧ n' = m := by
      obtain hc | ⟨hne, hc⟩ := hmem.mp hc
      · cases hc
        exact ⟨rfl, rfl⟩
      · obtain ⟨rfl, rfl⟩ := h.sole hc he ((hdir v).symm.trans hvd)
        exact absurd rfl hne
    obtain ⟨rfl, rfl⟩ := hone hc
    exact ⟨habove ((hdir v).symm.trans hvd), hone⟩
  · have hs := hsubdirs v
    rw [if_neg fun hc => h.ne_of_edge he hc.1.symm, if_neg fun hc => hdv hc.1.symm] at hs
    have := h.attached hlv ((hdir v).symm.trans hvd) (.inr ⟨_, he, rfl⟩)
    omega

end

end Moves

theorem Ok.forget (h : t.Ok root) (hv : ¬ t.Attached root v)
    (hE : t'.edges = t.edges) (hlive : ∀ x, t'.live x ↔ x ≠ v ∧ t.live x)
    (hdir : ∀ x, x ≠ v → t'.dir x = t.dir x) (hlinks : ∀ x, x ≠ v → t'.links x = t.links x)
    (hparent : ∀ x, x ≠ v → t'.parent x = t.parent x) (hout : ∀ m w, (v, m, w) ∉ t.edges) :
    t'.Ok root := by
  have hnot {a : α} {m : ν} : (a, m, v) ∉ t'.edges := fun he => hv (.inr ⟨_, hE ▸ he, rfl⟩)
  have hgone : ¬ t'.live v := fun hl => ((hlive v).mp hl).1 rfl
  refine h.change (v := v) (fun hc => hv (.inl hc.symm))
    (fun hx => (hlive _).trans (and_iff_right hx))
    (fun {x} hx _ => ⟨hdir _ hx, hparent _ hx, ?_⟩) (fun _ => by rw [hE])
    (fun he => absurd he hnot) (fun hl => absurd hl hgone) (fun _ he => absurd he hnot)
    (fun hl => absurd hl hgone) (fun hl => absurd hl hgone) fun he => absurd he (hout _ _)
  have hsubdirs : t'.subdirs x = t.subdirs x := by
    unfold subdirs
    rw [hE]
    refine congrArg card (filter_congr fun e he => ?_)
    rw [hdir _ fun hev => hv (.inr ⟨e, he, hev⟩)]
  rw [hlinks _ hx, hsubdirs]

end NameTree
end Roanix.Lib
