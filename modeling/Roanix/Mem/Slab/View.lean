import Roanix.Lib.Chain
import Roanix.Lib.Machine
import Roanix.Mem.Slab.Basic

/-! `insert_partial` and `remove_partial` change the links of at most two neighbours and the head of
one list. A view of the slabs leaves the links out. -/
namespace Roanix.Mem.Slab
open Lib Function State

variable {κ : Type} [DecidableEq κ]

/-- The same slabs with other links, and another first slab of one list. -/
def State.relink (s : State κ) (prev next : ℕ → Option ℕ) (cpu : κ) (c : SizeClass)
    (first : Option ℕ) : State κ :=
  { s with header := fun p => { s.header p with prev := prev p, next := next p } }.setFirst cpu c
    first

def State.firsts (s : State κ) (k : κ × SizeClass) : Option ℕ := (s.pool k.1).first k.2

def State.prevs (s : State κ) (p : ℕ) : Option ℕ := (s.header p).prev

def State.nexts (s : State κ) (p : ℕ) : Option ℕ := (s.header p).next

abbrev Linked (s : State κ) (lists : κ × SizeClass → List ℕ) : Prop :=
  Family s.firsts s.prevs s.nexts lists

def State.links (s : State κ) : (κ × SizeClass → Option ℕ) × (ℕ → Option ℕ) × (ℕ → Option ℕ) :=
  (s.firsts, s.prevs, s.nexts)

attribute [local simp] State.setHeader State.nexts State.setPool State.prevs State.setFirst
  State.firsts State.relink

variable {s s' : State κ} {cpu : κ} {c : SizeClass} {p : ℕ} {lists : κ × SizeClass → List ℕ}

omit [DecidableEq κ] in
theorem Linked.of_links (h : Linked s lists) (he : s'.links = s.links) : Linked s' lists := by
  simp only [links, Prod.mk.injEq] at he
  obtain ⟨hfirsts, hprevs, hnexts⟩ := he
  unfold Linked
  rw [hfirsts, hprevs, hnexts]
  exact h

omit [DecidableEq κ] in
theorem links_setFree (s : State κ) (p : ℕ) (free : List ℕ) (n : ℕ) :
    (s.setHeader p { s.header p with free := free, freeCount := n }).links = s.links := by
  refine Prod.ext rfl (Prod.ext (funext ?_) (funext ?_))
  · exact update_congr Header.prev rfl
  · exact update_congr Header.next rfl

theorem links_setEmpty (s : State κ) (cpu : κ) (c : SizeClass) (p : Option ℕ) :
    (s.setEmpty cpu c p).links = s.links := by
  refine Prod.ext (funext fun k => ?_) rfl
  exact update_congr (Pool.first · k.2) (by rfl) k.1

theorem links_takeSlot (s : State κ) (cpu : κ) (c : SizeClass) (p : ℕ) (free : List ℕ) :
    (s.takeSlot cpu c p free).links = s.links := by
  have hfree := links_setFree s p free ((s.header p).freeCount - 1)
  unfold takeSlot
  dsimp only
  split_ifs
  · rw [links_setEmpty, hfree]
  · exact hfree

theorem firsts_mapSlab (s : State κ) (cpu : κ) (c : SizeClass) :
    (s.mapSlab cpu c).firsts = s.firsts := by
  funext k
  exact update_congr (Pool.first · k.2) (by rfl) k.1

theorem Linked.mapSlab (h : Linked s lists) (hp : ∀ k, (s.pool cpu).nextPage ∉ lists k) :
    Linked (s.mapSlab cpu c) lists := by
  unfold Linked
  rw [firsts_mapSlab]
  refine h.congr fun k y hy => ?_
  have hne : y ≠ (s.pool cpu).nextPage := fun he => hp k (he ▸ hy)
  simp [State.mapSlab, hne]

theorem link_eq (hp : (s.pool cpu).first c ≠ some p) :
    s.link cpu c p = s.relink
      (fun y => if y = p then none else if (s.pool cpu).first c = some y then some p else s.prevs y)
      (fun y => if y = p then (s.pool cpu).first c else s.nexts y) cpu c (some p) := by
  cases hf : (s.pool cpu).first c with
  | none =>
    unfold State.link
    rw [hf]
    refine congrArg (fun header => ({ s with header := header }).setFirst cpu c (some p))
      (funext fun y => ?_)
    obtain rfl | hy := eq_or_ne y p
    · simp
    · simp [hy]
  | some n =>
    have hnp : p ≠ n := fun he => hp (by rw [hf, he])
    unfold State.link
    rw [hf]
    refine congrArg (fun header => ({ s with header := header }).setFirst cpu c (some p))
      (funext fun y => ?_)
    obtain rfl | hy := eq_or_ne y p
    · simp [hnp]
    · obtain rfl | hyn := eq_or_ne y n
      · simp [hy]
      · simp [hy, hyn, Ne.symm hyn]

theorem unlink_header (cpu : κ) (c : SizeClass) (hnext : s.nexts p ≠ some p) (y : ℕ) :
    (s.unlink cpu c p).header y = { s.header y with
      prev := if y = p then none else if s.nexts p = some y then s.prevs p else s.prevs y
      next := if y = p then none else if s.prevs p = some y then s.nexts p else s.nexts y } := by
  unfold State.unlink
  cases hq : (s.header p).prev <;> cases hn : (s.header p).next <;>
    simp only [setFirst, setPool, setHeader, prevs,
      nexts, hn] at hnext ⊢ <;>
    ext1 <;> grind

theorem unlink_eq (hnext : s.nexts p ≠ some p) :
    s.unlink cpu c p = s.relink
      (fun y => if y = p then none else if s.nexts p = some y then s.prevs p else s.prevs y)
      (fun y => if y = p then none else if s.prevs p = some y then s.nexts p else s.nexts y) cpu c
      (if s.prevs p = none then s.nexts p else (s.pool cpu).first c) := by
  have hpool : (s.unlink cpu c p).pool = (s.setFirst cpu c
      (if s.prevs p = none then s.nexts p else (s.pool cpu).first c)).pool := by
    unfold State.unlink
    cases hq : (s.header p).prev with
    | none =>
      rw [if_pos (show s.prevs p = none from hq)]
      cases hn : (s.header p).next <;> simp [hn]
    | some q =>
      rw [if_neg (by simp [hq])]
      cases hn : (s.header p).next <;> simp
  refine State.ext ?_ ?_ (funext (unlink_header cpu c hnext)) hpool ?_ ?_ ?_
  all_goals
    unfold State.unlink
    cases hq : (s.header p).prev <;> cases hn : (s.header p).next <;> rfl

theorem firsts_relink (s : State κ) (prev next : ℕ → Option ℕ) (cpu : κ) (c : SizeClass)
    (first : Option ℕ) :
    (s.relink prev next cpu c first).firsts = update s.firsts (cpu, c) first := by
  funext ⟨k, d⟩
  obtain rfl | hk := eq_or_ne k cpu
  · obtain rfl | hd := eq_or_ne d c
    · simp
    · simp [hd]
  · simp [hk]

theorem Linked.link (h : Linked s lists) (hp : ∀ k, p ∉ lists k) :
    Linked (s.link cpu c p) (update lists (cpu, c) (p :: lists (cpu, c))) := by
  have hfirst : (s.pool cpu).first c ≠ some p := by
    intro hf
    refine hp (cpu, c) (List.mem_of_mem_head? ?_)
    rw [← h.head]
    exact hf
  rw [link_eq hfirst]
  exact h.push hp (firsts_relink ..) (fun _ => rfl) (fun _ => rfl)

theorem Linked.unlink (h : Linked s lists) (hp : p ∈ lists (cpu, c)) :
    Linked (s.unlink cpu c p) (update lists (cpu, c) ((lists (cpu, c)).erase p)) := by
  rw [unlink_eq ((h.chain (cpu, c)).next_ne_self (h.nodup _) hp)]
  refine h.erase hp (firsts_relink ..) (fun y hy => ?_) (fun y hy => ?_)
  · exact if_neg hy
  · exact if_neg hy

@[ext] structure View (κ : Type) where
  pages : ℕ → PageKind
  live : ℕ → Bool
  owner : ℕ → κ
  cls : ℕ → SizeClass
  free : ℕ → List ℕ
  freeCount : ℕ → ℕ
  empty : κ × SizeClass → Option ℕ
  nextPage : κ → ℕ
  sparePages : κ → ℕ
  magazine : κ × SizeClass → List Slot
  held : List Slot
  returning : List (Slot × SizeClass)

def State.view {κ : Type} (s : State κ) : View κ where
  pages := s.pages
  live := s.live
  owner p := (s.header p).owner
  cls p := (s.header p).cls
  free p := (s.header p).free
  freeCount p := (s.header p).freeCount
  empty k := (s.pool k.1).emptyCache k.2
  nextPage cpu := (s.pool cpu).nextPage
  sparePages cpu := (s.pool cpu).sparePages
  magazine := s.magazine
  held := s.held
  returning := s.returning

namespace View
variable {κ : Type}

def setHeld (v : View κ) (held : List Slot) : View κ := { v with held := held }

def take (v : View κ) (p : ℕ) (free : List ℕ) : View κ :=
  { v with
    free := update v.free p free
    freeCount := update v.freeCount p (v.freeCount p - 1) }

def give (v : View κ) (p i : ℕ) : View κ :=
  { v with
    free := update v.free p (i :: v.free p)
    freeCount := update v.freeCount p (v.freeCount p + 1) }

def release (v : View κ) (p : ℕ) : View κ :=
  { v with pages := update v.pages p .retired, live := update v.live p false }

variable [DecidableEq κ]

def setEmpty (v : View κ) (k : κ × SizeClass) (p : Option ℕ) : View κ :=
  { v with empty := update v.empty k p }

def grow (v : View κ) (cpu : κ) (c : SizeClass) : View κ :=
  let p := v.nextPage cpu
  { v with
    live := update v.live p true
    owner := update v.owner p cpu
    cls := update v.cls p c
    free := update v.free p (List.range (capacity c))
    freeCount := update v.freeCount p (capacity c)
    nextPage := update v.nextPage cpu (v.nextPage cpu + 1)
    sparePages := update v.sparePages cpu (v.sparePages cpu - 1) }

def reserve (v : View κ) (cpu : κ) (start count : ℕ) : View κ :=
  { v with
    pages := fun i => if start ≤ i ∧ i < start + count then .busy else v.pages i
    nextPage := update v.nextPage cpu start
    sparePages := update v.sparePages cpu count }

def trimSpare (v : View κ) (cpu : κ) : View κ :=
  { v with
    pages := fun i =>
      if v.nextPage cpu ≤ i ∧ i < v.nextPage cpu + v.sparePages cpu then .free else v.pages i
    sparePages := update v.sparePages cpu 0 }

end View

attribute [local simp] State.setPool State.view State.setHeader View.grow State.mapSlab
  View.setEmpty State.setEmpty

variable {i : ℕ} {free : List ℕ}

theorem view_relink (s : State κ) (prev next : ℕ → Option ℕ) (cpu : κ) (c : SizeClass)
    (first : Option ℕ) : (s.relink prev next cpu c first).view = s.view := by
  ext1
  case empty => exact funext fun k => update_congr (Pool.emptyCache · k.2) (by rfl) k.1
  case nextPage => exact funext (update_congr Pool.nextPage (by rfl))
  case sparePages => exact funext (update_congr Pool.sparePages (by rfl))
  all_goals rfl

theorem view_link (hp : (s.pool cpu).first c ≠ some p) : (s.link cpu c p).view = s.view := by
  rw [link_eq hp, view_relink]

theorem view_unlink (hp : s.nexts p ≠ some p) : (s.unlink cpu c p).view = s.view := by
  rw [unlink_eq hp, view_relink]

theorem view_setEmpty (s : State κ) (cpu : κ) (c : SizeClass) (p : Option ℕ) :
    (s.setEmpty cpu c p).view = s.view.setEmpty (cpu, c) p := by
  ext1
  case empty =>
    funext ⟨k, d⟩
    obtain rfl | hk := eq_or_ne k cpu
    · obtain rfl | hd := eq_or_ne d c
      · simp
      · simp [hd]
    · simp [hk]
  case nextPage | sparePages =>
    funext k
    obtain rfl | hk := eq_or_ne k cpu
    · simp
    · simp [hk]
  all_goals rfl

omit [DecidableEq κ] in
theorem view_setFree (s : State κ) (p : ℕ) (free : List ℕ) (n : ℕ) :
    (s.setHeader p { s.header p with free := free, freeCount := n }).view =
      { s.view with
        free := update s.view.free p free
        freeCount := update s.view.freeCount p n } := by
  ext1
  case owner | cls | free | freeCount =>
    funext y
    obtain rfl | hy := eq_or_ne y p
    · simp
    · simp [hy]
  all_goals rfl

theorem view_takeSlot (s : State κ) (cpu : κ) (c : SizeClass) (p : ℕ) (free : List ℕ) :
    (s.takeSlot cpu c p free).view =
      if s.view.freeCount p = capacity (s.view.cls p) ∧ s.view.empty (cpu, c) = some p then
        (s.view.take p free).setEmpty (cpu, c) none
      else s.view.take p free := by
  have hfree := view_setFree s p free ((s.header p).freeCount - 1)
  by_cases hwas : (s.header p).freeCount = capacity (s.header p).cls ∧
      (s.pool cpu).emptyCache c = some p
  · refine Eq.trans ?_ (if_pos hwas).symm
    refine (congrArg view (if_pos hwas)).trans ?_
    rw [view_setEmpty, hfree]
    rfl
  · refine Eq.trans ?_ (if_neg hwas).symm
    refine (congrArg view (if_neg hwas)).trans ?_
    rw [hfree]
    rfl

theorem view_allocSlab (hp : s.nexts p ≠ some p) :
    (s.allocSlab cpu c p i free).view =
      (s.takeSlot cpu c p free).view.setHeld ((p, i) :: s.held) := by
  have hnexts : (s.takeSlot cpu c p free).nexts = s.nexts :=
    congrArg (fun links => links.2.2) (links_takeSlot s cpu c p free)
  have hview : ((s.takeSlot cpu c p free).unlink cpu c p).view = (s.takeSlot cpu c p free).view :=
    view_unlink (by rw [hnexts]; exact hp)
  have hheld : (s.takeSlot cpu c p free).held = s.held := by
    unfold takeSlot
    dsimp only
    split_ifs <;> rfl
  unfold allocSlab
  dsimp only
  split_ifs
  · have hheld' : ((s.takeSlot cpu c p free).unlink cpu c p).held = s.held :=
      (congrArg View.held hview).trans hheld
    rw [hheld', ← hview]
    rfl
  · rw [← hheld]
    rfl

theorem view_putSlot (hp : (s.header p).freeCount = 0 →
    (s.pool (s.header p).owner).first c ≠ some p) : (s.putSlot p i c).view = s.view.give p i := by
  have hfree := view_setFree s p (i :: (s.header p).free) ((s.header p).freeCount + 1)
  unfold putSlot
  dsimp only
  split_ifs with hfull
  · refine (view_link ?_).trans ?_
    · exact hp hfull
    · rw [hfree]
      rfl
  · rw [hfree]
    rfl

theorem view_mapSlab (s : State κ) (cpu : κ) (c : SizeClass) :
    (s.mapSlab cpu c).view = s.view.grow cpu c := by
  ext1
  case owner | cls | free | freeCount =>
    funext y
    obtain rfl | hy := eq_or_ne y (s.pool cpu).nextPage
    · simp
    · simp [hy]
  case empty =>
    funext ⟨k, d⟩
    obtain rfl | hk := eq_or_ne k cpu
    · simp
    · simp [hk]
  case nextPage | sparePages =>
    funext k
    obtain rfl | hk := eq_or_ne k cpu
    · simp
    · simp [hk]
  all_goals rfl

theorem view_growSlab (hp : (s.pool cpu).first c ≠ some (s.pool cpu).nextPage) :
    (s.growSlab cpu c).view = s.view.grow cpu c := by
  refine (view_link ?_).trans (view_mapSlab s cpu c)
  rw [← firsts.eq_1 _ (cpu, c), firsts_mapSlab]
  exact hp

theorem view_reserve (s : State κ) (cpu : κ) (start count : ℕ) :
    (s.reserve cpu start count).view = s.view.reserve cpu start count := by
  ext1
  case empty | nextPage | sparePages =>
    funext k
    simp only [view, View.reserve, reserve, setPool, update_apply]
    split_ifs with hk
    · simp [hk]
    · rfl
  all_goals rfl

theorem view_trimSpare (s : State κ) (cpu : κ) :
    (s.trimSpare cpu).view = s.view.trimSpare cpu := by
  ext1
  case empty | nextPage | sparePages =>
    funext k
    simp only [view, View.trimSpare, trimSpare, setPool, update_apply]
    split_ifs with hk
    · simp [hk]
    · rfl
  all_goals rfl

end Roanix.Mem.Slab
