import Roanix.Mem.Slab.Invariant

/-! Every section keeps the invariant, so every slot of a slab has one owner, in any run and from any
CPU. -/
namespace Roanix.Mem.Slab
open Lib Function List

attribute [local simp] State.view

variable {κ : Type}

section
variable {s s' : State κ} {p : ℕ}

theorem cls_returning {l : List Slot} {c : SizeClass} {r : List (Slot × SizeClass)}
    (hl : ∀ slot ∈ l, (s.header slot.1).cls = c) (hr : ∀ x ∈ r, (s.header x.1.1).cls = x.2) :
    ∀ x ∈ l.map (·, c) ++ r, (s.header x.1.1).cls = x.2 := by
  intro x hx
  obtain hx | hx := mem_append.mp hx
  · obtain ⟨slot, hs, rfl⟩ := mem_map.mp hx
    exact hl slot hs
  · exact hr x hx

def State.AllFree (s : State κ) (p : ℕ) : Prop :=
  ∀ i < capacity (s.header p).cls, i ∈ (s.header p).free

theorem allFree_of_release {w : View κ} {q : ℕ} (hview : s'.view = w.release p)
    (hq : w.live q = true) (hq' : s'.live q = false)
    (hfree : ∀ i < capacity (w.cls p), i ∈ w.free p) : s'.AllFree q := by
  have hlive : (w.release p).live q = false := (congrFun (congrArg View.live hview) q).symm.trans hq'
  obtain rfl | hne := eq_or_ne q p
  · change ∀ i < capacity (s'.view.cls q), i ∈ s'.view.free q
    rw [hview]
    exact hfree
  · cases hq.symm.trans ((Function.update_of_ne hne _ _).symm.trans hlive)

variable [Fintype κ]

theorem Inv.setPage {kind : PageKind} (h : Inv none s) (hp : s.pages p ≠ .busy) :
    Inv none (s.setPage p kind) := by
  have hslots := h.slots
  exact h.frame { hslots with } (h.pages.setPage hp) rfl
    rfl (fun _ => rfl) (fun _ => rfl)

theorem Inv.new (h : s.IsNew) : Inv none s := by
  obtain ⟨hpages, hlive, hpool, hmag, hheld, hret⟩ := h
  have hslot : ∀ slot, ¬ s.view.IsSlot slot := fun slot hs => by
    cases (hlive slot.1).symm.trans hs.1
  have hof : ∀ k p, ¬ s.view.Of k p := fun k p ho => by
    cases (hlive p).symm.trans ho.1
  refine ⟨⟨fun slot => ?_, fun k slot hs => ?_, fun r hr => ?_, fun p hp => ?_⟩,
    ⟨fun p hp => ?_, fun cpu p hp => ?_, fun cpu cpu' p hp => ?_⟩, fun k p => ?_, fun _ => [],
    ⟨fun k => ?_, fun k => nodup_nil, fun k => ?_, fun _ _ _ hx => ?_⟩, fun k p => ?_⟩
  · rw [if_neg (hslot slot)]
    simp [View.places, View.freeSlots, hheld, hret, hlive, hmag, spread]
  · exact absurd hs (by simp [hmag])
  · exact absurd hr (by simp [hret])
  · cases (hlive p).symm.trans hp
  · cases (hlive p).symm.trans hp
  · simp [View.Spare, hpool] at hp
  · simp [View.Spare, hpool] at hp
  · refine iff_of_false ?_ fun hp => hof k p hp.1
    simp [hpool]
  · simp [State.firsts, hpool]
  · trivial
  · cases hx
  · exact iff_of_false (by simp) fun hp => hof k p hp.1

theorem Inv.held_nodup (h : Inv none s) : s.held.Nodup := by
  refine nodup_iff_count_le_one.mpr fun slot => ?_
  have hle : s.held.count slot + (s.returning.map Prod.fst).count slot + spread s.magazine slot +
    (s.view.freeSlots slot.1).count slot.2 ≤ 1 := h.slots.le_one slot
  omega

/-- Who owns the slots of a state, and which slabs are on its lists. -/
structure Correct (s : State κ) (lists : κ × SizeClass → List ℕ) : Prop where
  /-- A slot of a live slab is in one place: with a caller, with a call that takes it back, in a
  magazine or on the free list. Nothing else is in any of these. -/
  onePlace : ∀ p i, s.held.count (p, i) + (s.returning.map Prod.fst).count (p, i) +
      spread s.magazine (p, i) + (if s.live p then (s.header p).free else []).count i =
    if s.live p = true ∧ i < capacity (s.header p).cls then 1 else 0
  freeCount : ∀ p, s.live p = true → (s.header p).freeCount = (s.header p).free.length
  linked : Linked s lists
  onList : ∀ cpu c p, p ∈ lists (cpu, c) ↔ s.live p = true ∧ (s.header p).owner = cpu ∧
    (s.header p).cls = c ∧ 0 < (s.header p).freeCount
  /-- The cached slab is the one slab on the list with all its slots free. -/
  emptyCache : ∀ cpu c p, (s.pool cpu).emptyCache c = some p ↔
    p ∈ lists (cpu, c) ∧ (s.header p).freeCount = capacity (s.header p).cls
  callers : s.held.Nodup

theorem Inv.correct {lists : κ × SizeClass → List ℕ} (h : Inv none s) (hl : Lists s lists) :
    Correct s lists := by
  have hlist : ∀ cpu c p, p ∈ lists (cpu, c) ↔ s.live p = true ∧ (s.header p).owner = cpu ∧
      (s.header p).cls = c ∧ 0 < (s.header p).freeCount := by
    intro cpu c p
    rw [hl.mem]
    refine ⟨fun ⟨hof, hfree⟩ => ?_, fun ⟨hlive, ho, hc, hpos⟩ => ⟨⟨hlive, ?_⟩, fun hnil => ?_⟩⟩
    · refine ⟨hof.1, congrArg Prod.fst hof.2, congrArg Prod.snd hof.2, ?_⟩
      exact (length_pos_iff.mpr hfree).trans_eq (h.count hof.1).symm
    · rw [← ho, ← hc]
      rfl
    · exact hpos.ne' ((h.count hlive).trans (by rw [hnil]; rfl))
  refine ⟨fun p i => h.slots.once (p, i), h.slots.count, hl.linked, hlist, fun cpu c p => ?_,
    h.held_nodup⟩
  refine ⟨fun he => ⟨h.mem_of_empty hl he, ((h.empties (cpu, c) p).mp he).2.1⟩, fun ⟨hm, hfull⟩ => ?_⟩
  exact (h.empties (cpu, c) p).mpr ⟨((hl.mem _ p).mp hm).1, hfull, by simp⟩

end

variable [Fintype κ] [DecidableEq κ] {s s' : State κ} {p : ℕ} {cpu : κ} {slot : Slot}

theorem Inv.move (h : Inv none s) (cpu : κ) (c : SizeClass) (magazine held : List Slot)
    (returning : List (Slot × SizeClass))
    (hplaces : ∀ slot, held.count slot + (returning.map Prod.fst).count slot + magazine.count slot =
      s.held.count slot + (s.returning.map Prod.fst).count slot + (s.magazine (cpu, c)).count slot)
    (hcached : ∀ slot ∈ magazine, (s.header slot.1).cls = c)
    (hreturning : ∀ r ∈ returning, (s.header r.1.1).cls = r.2) :
    Inv none { s.setMagazine cpu c magazine with held := held, returning := returning } := by
  refine h.frame (h.slots.move rfl rfl rfl rfl (fun slot => ?_) (fun k slot hs => ?_) hreturning)
    { h.pages with } rfl rfl (fun _ => rfl) (fun _ => rfl)
  · have hspread := spread_update s.magazine (cpu, c) magazine slot
    have := hplaces slot
    change held.count slot + (returning.map Prod.fst).count slot +
      spread (update s.magazine (cpu, c) magazine) slot = s.held.count slot +
        (s.returning.map Prod.fst).count slot + spread s.magazine slot
    omega
  · obtain ⟨rfl, hnew⟩ | ⟨-, hold⟩ := update_cases (slot ∈ ·) hs
    · exact hcached slot hnew
    · exact h.slots.cached k slot hold

theorem Inv.reserve {start count : ℕ} (h : Inv none s)
    (hf : ∀ i, start ≤ i → i < start + count → s.pages i = .free) :
    Inv none (s.reserve cpu start count) := by
  have hslots := h.slots
  refine h.frame ?_ ?_ rfl rfl (update_congr Pool.first (by rfl))
    (update_congr Pool.emptyCache (by rfl))
  · exact { hslots with }
  · rw [view_reserve]
    exact h.pages.reserve hf

theorem Inv.trimSpare (h : Inv none s) : Inv none (s.trimSpare cpu) := by
  have hslots := h.slots
  refine h.frame ?_ ?_ rfl rfl (update_congr Pool.first (by rfl))
    (update_congr Pool.emptyCache (by rfl))
  · exact { hslots with }
  · rw [view_trimSpare]
    exact h.pages.trimSpare

omit [Fintype κ] in
theorem growSlab_first (s : State κ) (cpu : κ) (c : SizeClass) :
    ((s.growSlab cpu c).pool cpu).first c = some (s.pool cpu).nextPage := by
  simp [State.growSlab, State.link, State.setFirst, State.setPool]

theorem count_returning (l : List Slot) (c : SizeClass) (r : List (Slot × SizeClass)) (x : Slot) :
    ((l.map (·, c) ++ r).map Prod.fst).count x = l.count x + (r.map Prod.fst).count x := by
  simp [comp_def]

theorem Inv.step (h : Inv none s) (hs : Step s s') : Inv none s' := by
  have hcached : ∀ k, ∀ slot ∈ s.magazine k, (s.header slot.1).cls = k.2 := h.slots.cached
  have hreturning : ∀ r ∈ s.returning, (s.header r.1.1).cls = r.2 := h.slots.returning
  have hheld : ∀ {slot}, slot ∈ s.held → ∀ x, s.held.count x = (slot :: s.held.erase slot).count x :=
    fun hm x => (perm_cons_erase hm).count_eq x
  cases hs with
  | hit cpu c hmag =>
    refine h.move cpu c _ _ s.returning (fun x => ?_) (fun x hx => ?_) hreturning
    · rw [hmag, List.count_cons, List.count_cons]
      omega
    · refine hcached (cpu, c) x ?_
      rw [hmag]
      exact mem_cons_of_mem _ hx
  | allocSlab cpu c hp hf => exact h.allocSlab (.inl rfl) hp hf
  | reserve cpu start count _ _ _ hf => exact h.reserve hf
  | growSlab cpu c hfirst hspare hf =>
    refine (h.growSlab hspare).allocSlab (.inr rfl) ?_ ?_
    · exact growSlab_first s cpu c
    · have hfree := congrFun (congrArg View.free (h.view_growSlab (c := c) hspare)) (s.pool cpu).nextPage
      exact (hfree.trans (update_self ..)).trans hf
  | cache cpu hm _ =>
    refine h.move cpu _ _ _ s.returning (fun x => ?_)
      (forall_mem_cons.mpr ⟨rfl, hcached _⟩) hreturning
    rw [hheld hm, List.count_cons, List.count_cons]
    omega
  | @spill cpu slot hm _ =>
    refine h.move cpu _ _ _ _ (fun x => ?_)
      (forall_mem_cons.mpr ⟨rfl, fun x hx => hcached _ x (mem_of_mem_drop hx)⟩)
      (cls_returning (fun x hx => hcached _ x (mem_of_mem_take hx)) hreturning)
    have hsplit := congrArg (List.count x)
      (List.take_append_drop (MAGAZINE_CAPACITY / 2) (s.magazine (cpu, (s.header slot.1).cls)))
    rw [List.count_append] at hsplit
    rw [count_returning, hheld hm, List.count_cons, List.count_cons]
    omega
  | @uncached slot hm =>
    have hmove := h.move (s.header slot.1).owner (s.header slot.1).cls
      (s.magazine ((s.header slot.1).owner, (s.header slot.1).cls)) (s.held.erase slot)
      ([slot].map (·, (s.header slot.1).cls) ++ s.returning) (fun x => ?_) (hcached _)
      (cls_returning (fun x hx => ?_) hreturning)
    · simpa [State.setMagazine] using hmove
    · rw [count_returning, hheld hm, List.count_cons, List.count_cons, count_nil]
      omega
    · rw [mem_singleton.mp hx]
  | deallocSlab hr => exact h.deallocSlab hr
  | detach cpu c =>
    refine h.move cpu c [] s.held _ (fun x => ?_) (fun x hx => ?_)
      (cls_returning (hcached (cpu, c)) hreturning)
    · rw [count_returning, count_nil]
      omega
    · cases hx
  | trimSpare cpu => exact h.trimSpare
  | trimEmpty cpu c hp => exact h.trimEmpty hp
  | reclaim p hp | largeTake p hp | largeRetire p hp => exact h.setPage (by rw [hp]; decide)

variable {i : ℕ} {c : SizeClass}

theorem Inv.deallocSlab_released {q : ℕ} (h : Inv none s) (hr : ((p, i), c) ∈ s.returning)
    (hq : s.live q = true) (hq' : (s.deallocSlab p i c).live q = false) :
    (s.deallocSlab p i c).AllFree q := by
  obtain ⟨lists, hl⟩ := h.lists
  have hlive : s.view.live p = true := (h.slots.isSlot_of_returning hr).1
  have hc : s.view.cls p = c := h.slots.returning _ hr
  obtain ⟨hview, lists', hl'⟩ := hl.putSlot hlive hc (h.count hlive)
  have hkept : (s.putSlot p i c).live q = true := (congrFun (congrArg View.live hview) q).trans hq
  obtain ⟨-, he⟩ | ⟨-, -, he⟩ | ⟨hfull, he⟩ := deallocSlab_cases s p i c
  · rw [he, hkept] at hq'
    cases hq'
  · rw [he] at hq'
    cases hkept.symm.trans hq'
  · have hmem : p ∈ lists' ((s.header p).owner, c) := by
      rw [hl'.mem, hview]
      exact ⟨⟨hlive, by rw [← hc]; rfl⟩, by simp [View.give]⟩
    have hslots := h.slots.give hr
    rw [hview] at hfull
    rw [he] at hq' ⊢
    refine allFree_of_release (p := p) (w := s.view.give p i) ?_ hq hq' fun j hj => ?_
    · exact congrArg (View.release · p) ((view_unlink (hl'.next_ne hmem)).trans hview)
    · exact hslots.all_free hlive ((hslots.count p hlive).symm.trans hfull) hj

theorem Inv.trimEmpty_released {q : ℕ} (h : Inv none s) (hp : (s.pool cpu).emptyCache c = some p)
    (hq : s.live q = true) (hq' : (s.trimEmpty cpu c p).live q = false) :
    (s.trimEmpty cpu c p).AllFree q := by
  obtain ⟨hof, hfull, -⟩ := (h.empties (cpu, c) p).mp hp
  refine allFree_of_release (h.view_trimEmpty hp) hq hq' fun j hj => ?_
  exact h.slots.all_free hof.1 ((h.count hof.1).symm.trans hfull) hj

theorem Inv.released (h : Inv none s) (hs : Step s s') (hp : s.live p = true)
    (hp' : s'.live p = false) : s'.AllFree p := by
  cases hs with
  | deallocSlab hr => exact h.deallocSlab_released hr hp hp'
  | trimEmpty cpu c he => exact h.trimEmpty_released he hp hp'
  | allocSlab cpu c hfirst hf =>
    obtain ⟨lists, hl⟩ := h.lists
    rw [hl.allocSlab_live (hl.mem_of_first hfirst), hp] at hp'
    cases hp'
  | growSlab cpu c _ hspare hf =>
    obtain ⟨lists, hl⟩ := (h.growSlab hspare).lists
    rw [hl.allocSlab_live (hl.mem_of_first (growSlab_first s cpu c))] at hp'
    have hlive := congrFun (congrArg View.live (h.view_growSlab (c := c) hspare)) p
    exact absurd (hlive.symm.trans hp') (by simp [View.grow, Function.update_apply, hp])
  | hit | reserve | cache | spill | uncached | detach | trimSpare | reclaim | largeTake
  | largeRetire => cases hp.symm.trans hp'

/-- In any run every slot has one owner and the lists have the slabs with a free slot, and a page
goes back to the arena only when all its slots are free. -/
theorem slab_ownership (hs : (machine κ).Reachable s) :
    (∃ lists, Correct s lists) ∧
      ∀ s' p, Step s s' → s.live p = true → s'.live p = false → s'.AllFree p := by
  have h : Inv none s :=
    hs.invariant (fun _ => Inv.new) (fun _ _ hinv => hinv.step)
  obtain ⟨lists, hl⟩ := h.lists
  exact ⟨⟨lists, h.correct hl⟩, fun s' p => h.released⟩

theorem slab_ownership_example :
    ∃ s : State (Fin 1), (machine (Fin 1)).Reachable s ∧ s.live 0 = true ∧
      (s.pool 0).emptyCache 8 = some 0 ∧ (s.trimEmpty 0 8 0).live 0 = false ∧
      (s.trimEmpty 0 8 0).AllFree 0 := by
  have h : (machine (Fin 1)).Reachable ⟨fun _ => .free, fun _ => false,
      fun _ => ⟨0, 0, 0, [], none, none⟩, fun _ => ⟨fun _ => none, fun _ => none, 0, 0⟩,
      fun _ => [], [], []⟩ :=
    .init ⟨fun _ => rfl, fun _ => rfl, fun _ => rfl, fun _ => rfl, rfl, rfl⟩
  have h := h.step (.reserve 0 0 1 rfl (.inr rfl) (by decide) fun _ _ _ => rfl)
  have h := h.step (.growSlab 0 8 rfl (by decide) (show range (capacity 8) = [0] by decide))
  have h := h.step (.uncached (show ((0, 0) : Slot) ∈ [(0, 0)] by decide))
  have h := h.step (.deallocSlab (p := 0) (i := 0) (c := 8) (by decide))
  exact ⟨_, h, by decide, by decide, by decide,
    (slab_ownership h).2 _ 0 (.trimEmpty 0 8 (by decide)) (by decide) (by decide)⟩

end Roanix.Mem.Slab
