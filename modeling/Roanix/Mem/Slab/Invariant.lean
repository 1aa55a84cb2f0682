import Roanix.Mem.Slab.Slots

/-! What holds between any two sections: the slots, the pages, the empty slabs and the lists. -/
namespace Roanix.Mem.Slab
open Lib Function

variable {κ : Type} {s : State κ} {p i : ℕ} {c : SizeClass} {cpu : κ}
  {lists : κ × SizeClass → List ℕ} {fresh : Option ℕ} {free : List ℕ}

structure Lists (s : State κ) (lists : κ × SizeClass → List ℕ) : Prop where
  linked : Linked s lists
  mem : ∀ k p, p ∈ lists k ↔ s.view.Of k p ∧ s.view.free p ≠ []

structure Inv [Fintype κ] (fresh : Option ℕ) (s : State κ) : Prop where
  slots : Slots s.view
  pages : Pages s.view
  empties : Empties fresh s.view
  lists : ∃ lists, Lists s lists

attribute [local simp] View.release

section Lists

section
variable (h : Lists s lists)
include h

theorem Lists.mem_of_first (hp : (s.pool cpu).first c = some p) :
    p ∈ lists (cpu, c) := by
  refine List.mem_of_mem_head? ?_
  rw [← h.linked.head]
  exact hp

theorem Lists.next_ne {k : κ × SizeClass} (hp : p ∈ lists k) :
    s.nexts p ≠ some p :=
  (h.linked.chain k).next_ne_self (h.linked.nodup k) hp

theorem Lists.notMem (hp : s.view.live p = true → s.view.free p = [])
    (k : κ × SizeClass) : p ∉ lists k := by
  intro hmem
  obtain ⟨hof, hfree⟩ := (h.mem k p).mp hmem
  exact hfree (hp hof.1)

theorem Lists.first_ne (hp : s.view.live p = true → s.view.free p = []) :
    (s.pool cpu).first c ≠ some p :=
  fun hfirst => h.notMem hp _ (h.mem_of_first hfirst)

theorem Lists.congr {s' : State κ} (hlinks : s'.links = s.links)
    (hview : ∀ k p, s'.view.Of k p ∧ s'.view.free p ≠ [] ↔ s.view.Of k p ∧ s.view.free p ≠ []) :
    Lists s' lists :=
  ⟨h.linked.of_links hlinks, fun k p => (h.mem k p).trans (hview k p).symm⟩

end

variable [DecidableEq κ]

theorem Lists.link (h : Linked s lists) (hp : ∀ k, p ∉ lists k)
    (hview : (s.link cpu c p).view = s.view)
    (hmem : ∀ k q, s.view.Of k q ∧ s.view.free q ≠ [] ↔ k = (cpu, c) ∧ q = p ∨ q ∈ lists k) :
    ∃ lists, Lists (s.link cpu c p) lists := by
  refine ⟨_, h.link hp, fun k q => ?_⟩
  rw [mem_update_cons, hview, hmem]

theorem Lists.unlink (h : Linked s lists) (hp : p ∈ lists (cpu, c))
    (hview : (s.unlink cpu c p).view = s.view)
    (hmem : ∀ k q, s.view.Of k q ∧ s.view.free q ≠ [] ↔ q ≠ p ∧ q ∈ lists k) :
    ∃ lists, Lists (s.unlink cpu c p) lists := by
  refine ⟨_, h.unlink hp, fun k q => ?_⟩
  rw [h.mem_update_erase hp, hview, hmem]

theorem Lists.drop {s' : State κ} (h : Lists s lists) (hp : p ∈ lists (cpu, c))
    (hlinks : s'.links = (s.unlink cpu c p).links)
    (hof : ∀ k q, s'.view.Of k q ↔ q ≠ p ∧ s.view.Of k q) (hfree : s'.view.free = s.view.free) :
    ∃ lists, Lists s' lists := by
  refine ⟨_, (h.linked.unlink hp).of_links hlinks, fun k q => ?_⟩
  rw [h.linked.mem_update_erase hp, h.mem, hof, hfree, and_assoc]

theorem takeSlot_spec (s : State κ) (cpu : κ) (c : SizeClass) (p : ℕ) (free : List ℕ) :
    (s.takeSlot cpu c p free).view.Of = s.view.Of ∧
      (s.takeSlot cpu c p free).view.free = update s.view.free p free ∧
      (s.takeSlot cpu c p free).view.freeCount p = s.view.freeCount p - 1 := by
  rw [view_takeSlot]
  split_ifs <;> exact ⟨rfl, rfl, update_self ..⟩

theorem Lists.allocSlab_live (h : Lists s lists) (hp : p ∈ lists (cpu, c)) :
    (s.allocSlab cpu c p i free).live = s.live := by
  refine (congrArg View.live (view_allocSlab (i := i) (h.next_ne hp))).trans ?_
  rw [view_takeSlot]
  split_ifs <;> rfl

theorem Lists.allocSlab (h : Lists s lists) (hp : p ∈ lists (cpu, c))
    (hf : s.view.free p = i :: free) (hcount : s.view.freeCount p = (s.view.free p).length) :
    ∃ lists, Lists (s.allocSlab cpu c p i free) lists := by
  have hlinked := h.linked.of_links (links_takeSlot s cpu c p free)
  obtain ⟨hof, hfree, hcount'⟩ := takeSlot_spec s cpu c p free
  rw [hcount, hf, List.length_cons] at hcount'
  -- the slot taken was the last one, or the slab stays on its list
  have hlists : ∃ lists, Lists (if ((s.takeSlot cpu c p free).header p).freeCount = 0 then
      (s.takeSlot cpu c p free).unlink cpu c p else s.takeSlot cpu c p free) lists := by
    split_ifs with hzero
    · have hnil : free = [] := List.eq_nil_of_length_eq_zero (hcount'.symm.trans hzero)
      refine Lists.unlink hlinked hp (view_unlink ?_) fun k q => ?_
      · exact (hlinked.chain _).next_ne_self (hlinked.nodup _) hp
      · rw [hof, hfree, hnil, h.mem k q]
        obtain rfl | hq := eq_or_ne q p
        · simp
        · simp [hq]
    · have hne : free ≠ [] := fun hnil => hzero (hcount'.trans (by rw [hnil]; rfl))
      refine ⟨lists, hlinked, fun k q => ?_⟩
      rw [hof, hfree, h.mem k q]
      obtain rfl | hq := eq_or_ne q p
      · simp [hne, hf]
      · simp [hq]
  obtain ⟨lists', hl⟩ := hlists
  exact ⟨lists', hl.congr rfl fun _ _ => Iff.rfl⟩

theorem Lists.putSlot (h : Lists s lists) (hlive : s.view.live p = true) (hc : s.view.cls p = c)
    (hcount : s.view.freeCount p = (s.view.free p).length) :
    (s.putSlot p i c).view = s.view.give p i ∧ ∃ lists, Lists (s.putSlot p i c) lists := by
  have hnil : s.view.freeCount p = 0 → s.view.free p = [] := fun hzero =>
    List.eq_nil_of_length_eq_zero (hcount.symm.trans hzero)
  have hview := view_setFree s p (i :: (s.header p).free) ((s.header p).freeCount + 1)
  have hlinked := h.linked.of_links
    (links_setFree s p (i :: (s.header p).free) ((s.header p).freeCount + 1))
  refine ⟨view_putSlot fun hzero => h.first_ne fun _ => hnil hzero, ?_⟩
  unfold State.putSlot
  dsimp only
  split_ifs with hzero
  · have hnot := h.notMem fun _ => hnil hzero
    refine Lists.link hlinked hnot (view_link ?_) fun k q => ?_
    · exact h.first_ne fun _ => hnil hzero
    · rw [hview, h.mem k q]
      obtain rfl | hq := eq_or_ne q p
      · have hof : s.view.Of k q ↔ k = ((s.header q).owner, c) :=
          ⟨fun ho => ho.2.symm.trans (by rw [hc]; rfl), fun hk => ⟨hlive, by rw [hk, hc]; rfl⟩⟩
        change s.view.Of k q ∧ _ ↔ _
        simp [hof, hnil hzero]
      · simp [View.Of, hq]
  · refine ⟨lists, hlinked, fun k q => ?_⟩
    have hne : s.view.free p ≠ [] := fun hn => hzero (hcount.trans (by rw [hn]; rfl))
    rw [hview, h.mem k q]
    obtain rfl | hq := eq_or_ne q p
    · simp [View.Of, hne]
    · simp [View.Of, hq]

theorem Lists.growSlab (h : Lists s lists) (hp : s.view.live (s.view.nextPage cpu) = false) :
    (s.growSlab cpu c).view = s.view.grow cpu c ∧ ∃ lists, Lists (s.growSlab cpu c) lists := by
  have hdead : s.view.live (s.view.nextPage cpu) = true → s.view.free (s.view.nextPage cpu) = [] :=
    fun hlive => by rw [hp] at hlive; cases hlive
  have hview : (s.growSlab cpu c).view = s.view.grow cpu c := view_growSlab (h.first_ne hdead)
  refine ⟨hview, ?_⟩
  have hnot := h.notMem hdead
  refine Lists.link (h.linked.mapSlab hnot) hnot (hview.trans (view_mapSlab s cpu c).symm)
    fun k q => ?_
  rw [view_mapSlab, h.mem k q]
  obtain rfl | hq := eq_or_ne q (s.view.nextPage cpu)
  · have hne : List.range (capacity c) ≠ [] := by simp [(capacity_pos c).ne']
    have hof : (s.view.grow cpu c).Of k (s.view.nextPage cpu) ↔ k = (cpu, c) := by
      simp only [View.Of, View.grow, update_self, true_and]
      exact eq_comm
    have hfree : (s.view.grow cpu c).free (s.view.nextPage cpu) = List.range (capacity c) :=
      update_self ..
    have hold : ¬ s.view.Of k (s.view.nextPage cpu) := by simp [View.Of, hp]
    rw [hof, hfree]
    exact ⟨fun hk => .inl ⟨hk.1, rfl⟩, fun hk => hk.elim (fun hk => ⟨hk.1, hne⟩)
      fun hk => absurd hk.1 hold⟩
  · have hq' : q ≠ (s.pool cpu).nextPage := hq
    simp [View.Of, View.grow, hq, hq']

end Lists

section Inv
variable [Fintype κ]

theorem Inv.count (h : Inv fresh s) (hp : s.view.live p = true) :
    s.view.freeCount p = (s.view.free p).length :=
  h.slots.count p hp

variable [DecidableEq κ]

theorem Inv.allocSlab (h : Inv fresh s) (hfresh : fresh = none ∨ fresh = some p)
    (hp : (s.pool cpu).first c = some p) (hf : (s.header p).free = i :: free) :
    Inv none (s.allocSlab cpu c p i free) := by
  obtain ⟨lists, hl⟩ := h.lists
  have hmem : p ∈ lists (cpu, c) := hl.mem_of_first hp
  obtain ⟨hof, hne⟩ := (hl.mem _ p).mp hmem
  have hview : (s.allocSlab cpu c p i free).view =
      (s.takeSlot cpu c p free).view.setHeld ((p, i) :: s.held) := view_allocSlab (hl.next_ne hmem)
  rw [view_takeSlot] at hview
  have hnot : ¬ (s.view.take p free).Full p := by
    have hlen := h.slots.length_le hof.1
    have hpos : 0 < (s.view.free p).length := List.length_pos_iff.mpr hne
    intro hfull
    have hcount : (s.view.free p).length - 1 = capacity (s.view.cls p) := by
      rw [← h.count hof.1]
      exact (update_self ..).symm.trans hfull
    omega
  refine ⟨?_, ?_, ?_, hl.allocSlab hmem hf (h.count hof.1)⟩
  · have hslots := h.slots.take hof.1 hf
    rw [hview]
    split_ifs
    · exact { hslots with }
    · exact hslots
  · rw [hview]
    split_ifs
    · exact { h.pages with }
    · exact { h.pages with }
  · rw [hview]
    exact h.empties.take hfresh hof hnot

omit [Fintype κ] in
theorem deallocSlab_cases (s : State κ) (p i : ℕ) (c : SizeClass) :
    (¬ (s.putSlot p i c).view.Full p ∧ s.deallocSlab p i c = s.putSlot p i c) ∨
    ((s.putSlot p i c).view.Full p ∧
      ((s.putSlot p i c).view.empty ((s.header p).owner, c) = none ∨
        (s.putSlot p i c).view.empty ((s.header p).owner, c) = some p) ∧
      s.deallocSlab p i c = (s.putSlot p i c).setEmpty (s.header p).owner c (some p)) ∨
    ((s.putSlot p i c).view.Full p ∧
      s.deallocSlab p i c = ((s.putSlot p i c).unlink (s.header p).owner c p).release p) := by
  by_cases hfull : (s.putSlot p i c).view.Full p
  · refine .inr ?_
    by_cases hcache : (s.putSlot p i c).view.empty ((s.header p).owner, c) = none ∨
        (s.putSlot p i c).view.empty ((s.header p).owner, c) = some p
    · exact .inl ⟨hfull, hcache, (if_neg (not_not.mpr hfull)).trans (if_pos hcache)⟩
    · exact .inr ⟨hfull, (if_neg (not_not.mpr hfull)).trans (if_neg hcache)⟩
  · exact .inl ⟨hfull, if_pos hfull⟩

omit [DecidableEq κ] in
theorem Inv.not_full (h : Inv fresh s) (hr : ((p, i), c) ∈ s.returning) : ¬ s.view.Full p := by
  obtain ⟨hlive, hi⟩ := h.slots.isSlot_of_returning hr
  have hfree : i ∉ s.view.free p := h.slots.notMem_free hr
  have hlt := h.slots.length_lt hlive hi hfree
  rw [← h.count hlive] at hlt
  exact hlt.ne

section
variable (h : Inv none s)
include h

theorem Inv.deallocSlab (hr : ((p, i), c) ∈ s.returning) :
    Inv none { s.deallocSlab p i c with returning := s.returning.erase ((p, i), c) } := by
  obtain ⟨lists, hl⟩ := h.lists
  have hlive : s.view.live p = true := (h.slots.isSlot_of_returning hr).1
  have hc : s.view.cls p = c := h.slots.returning _ hr
  have hof : s.view.Of ((s.header p).owner, c) p := ⟨hlive, by rw [hc]; rfl⟩
  have hnot := h.not_full hr
  obtain ⟨hview, lists', hl'⟩ := hl.putSlot hlive hc (h.count hlive)
  have hslots := h.slots.give hr
  have hset : ∀ {t : State κ} {w : View κ}, t.view = w →
      ({ t with returning := s.returning.erase ((p, i), c) } : State κ).view =
        { w with returning := s.returning.erase ((p, i), c) } := by
    rintro t w rfl
    rfl
  rcases deallocSlab_cases s p i c with ⟨hfull, he⟩ | ⟨hfull, hcache, he⟩ | ⟨hfull, he⟩
  all_goals
    rw [hview] at hfull
    rw [he]
  · refine ⟨?_, ?_, ?_, lists', hl'.congr rfl fun _ _ => Iff.rfl⟩
    all_goals rw [hset hview]
    · exact hslots
    · exact { h.pages with }
    · exact h.empties.give hnot hfull
  · rw [hview] at hcache
    have hkeep := (view_setEmpty _ _ _ _).trans
      (congrArg (View.setEmpty · ((s.header p).owner, c) (some p)) hview)
    refine ⟨?_, ?_, ?_, lists', hl'.congr (links_setEmpty ..) fun k q => ?_⟩
    · rw [hset hkeep]
      exact { hslots with }
    · rw [hset hkeep]
      exact { h.pages with }
    · rw [hset hkeep]
      exact h.empties.keep hof hfull hcache
    · exact Iff.rfl
  · have hmem : p ∈ lists' ((s.header p).owner, c) := by
      rw [hl'.mem, hview]
      exact ⟨hof, by simp [View.give]⟩
    have hgone : (((s.putSlot p i c).unlink (s.header p).owner c p).release p).view =
        (s.view.give p i).release p :=
      congrArg (View.release · p) ((view_unlink (hl'.next_ne hmem)).trans hview)
    refine ⟨?_, ?_, ?_, hl'.drop hmem rfl (fun k q => ?_) ?_⟩
    · rw [hset hgone]
      exact hslots.release hlive ((hslots.count p hlive).symm.trans hfull)
    · have hpages := h.pages.release hlive
      rw [hset hgone]
      exact { hpages with }
    · rw [hset hgone]
      exact h.empties.release hnot
    · rw [hset hgone, hview]
      obtain rfl | hq := eq_or_ne q p
      · simp [View.Of]
      · simp [View.Of, hq]
    · rw [hset hgone, hview]
      rfl

omit [DecidableEq κ] in
theorem Inv.mem_of_empty (hl : Lists s lists) (hp : (s.pool cpu).emptyCache c = some p) :
    p ∈ lists (cpu, c) := by
  obtain ⟨hof, hfull, -⟩ := (h.empties (cpu, c) p).mp hp
  refine (hl.mem _ p).mpr ⟨hof, fun hnil => ?_⟩
  have hlen : (s.view.free p).length = capacity (s.view.cls p) := (h.count hof.1).symm.trans hfull
  rw [hnil] at hlen
  exact (capacity_pos (s.view.cls p)).ne hlen

theorem Inv.view_trimEmpty (hp : (s.pool cpu).emptyCache c = some p) :
    (s.trimEmpty cpu c p).view = (s.view.setEmpty (cpu, c) none).release p := by
  obtain ⟨lists, hl⟩ := h.lists
  refine congrArg (View.release · p) ((view_setEmpty (s.unlink cpu c p) cpu c none).trans ?_)
  rw [view_unlink (hl.next_ne (h.mem_of_empty hl hp))]

theorem Inv.trimEmpty (hp : (s.pool cpu).emptyCache c = some p) :
    Inv none (s.trimEmpty cpu c p) := by
  obtain ⟨lists, hl⟩ := h.lists
  obtain ⟨hof, hfull, -⟩ := (h.empties (cpu, c) p).mp hp
  have hview := h.view_trimEmpty hp
  refine ⟨?_, ?_, ?_, hl.drop (h.mem_of_empty hl hp)
    (links_setEmpty (s.unlink cpu c p) cpu c none) (fun k q => ?_) ?_⟩
  · have hslots := h.slots.release hof.1 ((h.count hof.1).symm.trans hfull)
    rw [hview]
    exact { hslots with }
  · have hpages := h.pages.release hof.1
    rw [hview]
    exact { hpages with }
  · rw [hview]
    exact h.empties.trimEmpty hp
  · rw [hview]
    obtain rfl | hq := eq_or_ne q p
    · simp [View.Of]
    · simp [View.Of, View.setEmpty, hq]
  · rw [hview]
    rfl

section
variable (hs : 0 < (s.pool cpu).sparePages)
include hs

omit [DecidableEq κ] in
theorem Inv.spare_dead : s.view.live (s.view.nextPage cpu) = false :=
  (h.pages.spare cpu _ ⟨le_rfl, Nat.lt_add_of_pos_right hs⟩).2

theorem Inv.view_growSlab : (s.growSlab cpu c).view = s.view.grow cpu c := by
  obtain ⟨lists, hl⟩ := h.lists
  exact (hl.growSlab (h.spare_dead hs)).1

theorem Inv.growSlab : Inv (some (s.pool cpu).nextPage) (s.growSlab cpu c) := by
  obtain ⟨lists, hl⟩ := h.lists
  have hlive := h.spare_dead hs
  obtain ⟨hview, hlists⟩ := hl.growSlab hlive
  refine ⟨?_, ?_, ?_, hlists⟩
  all_goals rw [hview]
  · exact h.slots.grow hlive
  · exact h.pages.grow hs
  · exact h.empties.grow hlive

end

omit [DecidableEq κ] in
theorem Inv.frame {s' : State κ} (hslots : Slots s'.view) (hpages : Pages s'.view)
    (hheader : s'.header = s.header) (hlive : s'.live = s.live)
    (hfirst : ∀ cpu, (s'.pool cpu).first = (s.pool cpu).first)
    (hempty : ∀ cpu, (s'.pool cpu).emptyCache = (s.pool cpu).emptyCache) : Inv none s' := by
  obtain ⟨lists, hl⟩ := h.lists
  have hof : ∀ k p, s'.view.Of k p ↔ s.view.Of k p := by
    intro k p
    simp only [View.Of, State.view, hheader, hlive]
  refine ⟨hslots, hpages, fun k p => ?_, lists, hl.congr ?_ fun k p => ?_⟩
  · rw [hof]
    simp only [State.view, hheader, hempty]
    exact h.empties k p
  · have hfirsts : s'.firsts = s.firsts := funext fun k => congrFun (hfirst k.1) k.2
    have hprevs : s'.prevs = s.prevs := by unfold State.prevs; rw [hheader]
    have hnexts : s'.nexts = s.nexts := by unfold State.nexts; rw [hheader]
    unfold State.links
    rw [hfirsts, hprevs, hnexts]
  · rw [hof]
    simp only [State.view, hheader]

end

end Inv
end Roanix.Mem.Slab
