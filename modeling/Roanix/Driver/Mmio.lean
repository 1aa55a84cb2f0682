import Roanix.Lib.Machine
import Roanix.Mem.Addr

/-! The windows through which device registers are mapped (`mmio.rs`). Pages are numbered from the
start of the region, whose first page stays mapped. -/
namespace Roanix.Driver.Mmio
open Lib List Mem

@[ext] structure Range where
  start : ℕ
  pages : ℕ
  deriving DecidableEq

def Range.stop (r : Range) : ℕ := r.start + r.pages

abbrev Range.Has (r : Range) (p : ℕ) : Prop := r.start ≤ p ∧ p < r.stop

/-- A window with the page of `GUARD_PAGES` behind it. -/
def Range.guarded (w : Range) : Range := ⟨w.start, w.pages + 1⟩

def windowPages : ℕ := 2 ^ 27

/-- The loop of `allocate`: where the range starts, and the free list without it. -/
def firstFit (needed : ℕ) : List Range → Option (ℕ × List Range)
  | [] => none
  | r :: rest =>
    if r.pages < needed then (firstFit needed rest).map fun x => (x.1, r :: x.2)
    else some (r.start,
      if r.pages - needed = 0 then rest else ⟨r.start + needed, r.pages - needed⟩ :: rest)

def allocate (pages : ℕ) (free : List Range) : Option (ℕ × List Range) :=
  (checkedAdd pages 1).bind fun needed => firstFit needed free

/-- One half of `coalesce`: a range before others, the first of which it may touch. -/
def join (r : Range) : List Range → List Range
  | [] => [r]
  | next :: rest =>
    if r.stop = next.start then ⟨r.start, r.pages + next.pages⟩ :: rest else r :: next :: rest

/-- `release`: the range goes before the first one that starts behind it, and is joined with the range
after it and then with the one before it. -/
def release (r : Range) : List Range → List Range
  | [] => [r]
  | previous :: rest =>
    if r.start < previous.start then join r (previous :: rest)
    else if ∀ next ∈ rest.head?, r.start < next.start then join previous (join r rest)
    else previous :: release r rest

structure State where
  free : List Range
  live : List Range
  mapped : ℕ → Bool

def setPages (mapped : ℕ → Bool) (r : Range) (present : Bool) (p : ℕ) : Bool :=
  if r.Has p then present else mapped p

/-- `map`, where `map_page` fails at the page of an index, if it comes to that. -/
def State.map (s : State) (pages failing : ℕ) : State :=
  match allocate pages s.free with
  | none => s
  | some (start, free) =>
    let w : Range := ⟨start, pages⟩
    let done : Range := ⟨start, failing⟩
    if failing < pages then
      ⟨release w.guarded free, s.live, setPages (setPages s.mapped done true) done false⟩
    else ⟨free, w :: s.live, setPages s.mapped w true⟩

def State.unmap (s : State) (w : Range) : State :=
  ⟨release w.guarded s.free, s.live.erase w, setPages s.mapped w false⟩

def initial : State := ⟨[⟨1, windowPages - 1⟩], [], fun p => p == 0⟩

def machine : Machine State where
  init s := s = initial
  step s s' := (∃ pages failing, s' = s.map pages failing) ∨ ∃ w ∈ s.live, s' = s.unmap w

/-- How many of the ranges have a page. -/
def cover (l : List Range) (p : ℕ) : ℕ := l.countP fun r => r.Has p

/-- The ranges are sorted from a page on, and neither empty nor adjacent. -/
def Sorted (k : ℕ) : List Range → Prop
  | [] => True
  | r :: rest => k < r.start ∧ 0 < r.pages ∧ Sorted r.stop rest

structure Inv (s : State) : Prop where
  sorted : Sorted 0 s.free
  tiles : ∀ p, cover (s.free ++ s.live.map Range.guarded) p =
    if 1 ≤ p ∧ p < windowPages then 1 else 0
  mapped : ∀ p, s.mapped p = true ↔ p = 0 ∨ 0 < cover s.live p

variable {l free free' live : List Range} {r a b w : Range} {k n start p : ℕ} {s : State}

theorem cover_append (l' : List Range) : cover (l ++ l') p = cover l p + cover l' p := countP_append

theorem cover_cons : cover (r :: l) p = cover l p + if r.Has p then 1 else 0 := by
  simp [cover, countP_cons]

theorem cover_pos (h : r ∈ l) (hp : r.Has p) : 0 < cover l p :=
  countP_pos_iff.mpr ⟨r, h, by simpa using hp⟩

theorem cover_guarded : cover l p ≤ cover (l.map Range.guarded) p := by
  rw [cover, cover, countP_map]
  refine countP_mono_left fun w _ h => ?_
  simp only [decide_eq_true_eq] at h
  simpa using ⟨h.1, h.2.trans (Nat.lt_succ_self _)⟩

theorem cover_parts (hstart : r.start = a.start) (h : a.stop = b.start) (hstop : b.stop = r.stop) :
    cover (r :: l) p = cover (a :: b :: l) p := by
  simp only [cover_cons, Range.Has, Range.stop] at *
  grind

theorem cover_join : cover (join r l) p = cover (r :: l) p := by
  cases l with
  | nil => rfl
  | cons next rest =>
    rw [join]
    split
    · next h => exact cover_parts rfl h (by rw [Range.stop, ← h]; exact Nat.add_assoc ..)
    · rfl

theorem cover_release : cover (release r l) p = cover (r :: l) p := by
  induction l with
  | nil => rfl
  | cons previous rest ih =>
    rw [release]
    split_ifs
    · exact cover_join
    · simp only [cover_join, cover_cons]
      omega
    · simp only [cover_cons, ih]
      omega

theorem disjoint_of_cover (h : ∀ p, cover l p ≤ 1) (hne : ∀ r ∈ l, 0 < r.pages) :
    l.Pairwise fun a b => a.stop ≤ b.start ∨ b.stop ≤ a.start := by
  induction l with
  | nil => exact .nil
  | cons r rest ih =>
    obtain ⟨hr, hne⟩ := forall_mem_cons.mp hne
    simp only [cover_cons] at h
    refine pairwise_cons.mpr ⟨fun a ha => ?_, ih (fun p => (Nat.le_add_right ..).trans (h p)) hne⟩
    by_contra hab
    have ha' := hne a ha
    have hp := h (max r.start a.start)
    simp only [Range.stop] at hab
    have hpos := cover_pos (p := max r.start a.start) ha (by simp only [Range.Has, Range.stop]; omega)
    rw [if_pos (by simp only [Range.Has, Range.stop]; omega)] at hp
    omega

theorem Sorted.forall_mem (h : Sorted k l) : l.Pairwise (fun a b => a.stop < b.start) ∧
    ∀ a ∈ l, k < a.start ∧ 0 < a.pages := by
  induction l generalizing k with
  | nil => simp
  | cons r rest ih =>
    obtain ⟨hlow, hne, hrest⟩ := h
    obtain ⟨hp, hm⟩ := ih hrest
    refine ⟨pairwise_cons.mpr ⟨fun a ha => (hm a ha).1, hp⟩, forall_mem_cons.mpr ⟨⟨hlow, hne⟩, ?_⟩⟩
    exact fun a ha => ⟨hlow.trans ((Nat.le_add_right ..).trans_lt (hm a ha).1), (hm a ha).2⟩

theorem Sorted.mono {j : ℕ} (h : Sorted k l) (hj : ∀ a ∈ l.head?, k < a.start → j < a.start) :
    Sorted j l := by
  cases l with
  | nil => trivial
  | cons a rest => exact ⟨hj a rfl h.1, h.2⟩

theorem Sorted.join (h : Sorted (r.stop - 1) l) (hk : k < r.start) (hr : 0 < r.pages) :
    Sorted k (join r l) := by
  cases l with
  | nil => exact ⟨hk, hr, trivial⟩
  | cons next rest =>
    obtain ⟨hlow, hne, hrest⟩ := h
    rw [Mmio.join]
    split_ifs with he
    · refine ⟨hk, Nat.add_pos_left hr _, hrest.mono fun a _ ha => ?_⟩
      simp only [Range.stop] at he ha ⊢
      omega
    · exact ⟨hk, hr, by omega, hne, hrest⟩

theorem Sorted.release (h : Sorted k l) (hk : k < r.start) (hr : 0 < r.pages)
    (hc : ∀ p, cover (r :: l) p ≤ 1) : Sorted k (release r l) := by
  have hd := disjoint_of_cover hc (forall_mem_cons.mpr ⟨hr, fun a ha => (h.forall_mem.2 a ha).2⟩)
  replace hd := (pairwise_cons.mp hd).1
  clear hc
  induction l generalizing k with
  | nil => exact ⟨hk, hr, trivial⟩
  | cons previous rest ih =>
    obtain ⟨hp, hd⟩ := forall_mem_cons.mp hd
    obtain ⟨hlow, hne, hrest⟩ := h
    simp only [Range.stop] at hp hd
    rw [Mmio.release]
    split_ifs with hb hn
    · exact Sorted.join ⟨by simp only [Range.stop]; omega, hne, hrest⟩ hk hr
    · refine Sorted.join (Sorted.join (hrest.mono fun a ha _ => ?_) ?_ hr) hlow hne
      all_goals simp only [Range.stop]
      · have := hd a (mem_of_mem_head? ha)
        have := hn a ha
        omega
      · omega
    · refine ⟨hlow, hne, ih hrest ?_ hd⟩
      -- The next range is not behind the one released, and does not touch the previous one.
      cases rest with
      | nil => simp at hn
      | cons a rest => exact hrest.1.trans_le (by simpa using hn)

theorem firstFit_spec (hn : 0 < n) (h : Sorted k free) (hf : firstFit n free = some (start, free')) :
    k < start ∧ Sorted k free' ∧ ∀ p, cover free p = cover (⟨start, n⟩ :: free') p := by
  induction free generalizing k free' with
  | nil => cases hf
  | cons r rest ih =>
    obtain ⟨hlow, hne, hrest⟩ := h
    rw [firstFit] at hf
    by_cases hlt : r.pages < n
    · rw [if_pos hlt] at hf
      obtain ⟨x, hx, he⟩ := Option.map_eq_some_iff.mp hf
      cases he
      obtain ⟨hi, hs, hc⟩ := ih hrest hx
      refine ⟨hlow.trans ((Nat.le_add_right ..).trans_lt hi), ⟨hlow, hne, hs⟩, fun p => ?_⟩
      simp only [cover_cons, hc]
      omega
    · rw [if_neg hlt] at hf
      cases hf
      have hstop : r.start + n + (r.pages - n) = r.stop := by
        rw [Range.stop]
        omega
      have hc (p : ℕ) : cover (r :: rest) p =
          cover (⟨r.start, n⟩ :: ⟨r.start + n, r.pages - n⟩ :: rest) p := cover_parts rfl rfl hstop
      refine ⟨hlow, ?_⟩
      split_ifs with hz
      · refine ⟨hrest.mono fun a _ ha => by omega, fun p => ?_⟩
        rw [hc, hz]
        simp [cover_cons, Range.stop]
      · refine ⟨⟨Nat.lt_add_right n hlow, Nat.pos_of_ne_zero hz, ?_⟩, hc⟩
        exact hrest.mono fun a _ ha => hstop.trans_lt ha

theorem Inv.head {m : ℕ → Bool} (h : Inv ⟨free, w :: live, m⟩) (hp : w.guarded.Has p) :
    1 ≤ p ∧ cover live p = 0 := by
  have ht := h.tiles p
  have hg := cover_guarded (l := live) (p := p)
  simp only [cover_append, map_cons, cover_cons, if_pos hp] at ht
  split_ifs at ht
  omega

theorem Inv.release {m : ℕ → Bool} (h : Inv ⟨free, w :: live, m⟩) :
    Inv ⟨release w.guarded free, live, setPages m w false⟩ := by
  have hstart : w.guarded.start < w.guarded.stop := Nat.lt_add_of_pos_right w.pages.succ_pos
  have ht := h.tiles
  simp only [cover_append, map_cons, cover_cons] at ht
  refine ⟨h.sorted.release (h.head ⟨le_rfl, hstart⟩).1 w.pages.succ_pos fun p => ?_, fun p => ?_,
    fun p => ?_⟩
  · have hle := (ht p).trans_le (by split <;> simp : _ ≤ 1)
    rw [cover_cons]
    exact (Nat.add_le_add_left (Nat.le_add_left ..) _).trans hle
  · simp only [cover_append, cover_release, cover_cons, ← ht p]
    omega
  · have hm := h.mapped p
    simp only [cover_cons, setPages] at hm ⊢
    split_ifs at hm ⊢ with hp
    · have ha := h.head ⟨hp.1, hp.2.trans (Nat.lt_succ_self _)⟩
      simp [ha.2, Nat.ne_of_gt ha.1]
    · exact hm

theorem Inv.perm (h : Inv s) (hp : s.live.Perm l) : Inv ⟨s.free, l, s.mapped⟩ where
  sorted := h.sorted
  tiles p := (((hp.map _).append_left _).countP_eq _).symm.trans (h.tiles p)
  mapped p := (h.mapped p).trans (by rw [cover, hp.countP_eq]; rfl)

theorem Inv.map (h : Inv s) (failing : ℕ) : Inv (s.map n failing) := by
  rw [State.map]
  split
  · exact h
  next start free' ha =>
  obtain ⟨m, hm, hf⟩ := Option.bind_eq_some_iff.mp ha
  obtain ⟨rfl, -⟩ := checkedAdd_eq_some.mp hm
  obtain ⟨hlow, hs, hc⟩ := firstFit_spec n.succ_pos h.sorted hf
  have hw : Inv ⟨free', ⟨start, n⟩ :: s.live, setPages s.mapped ⟨start, n⟩ true⟩ := by
    refine ⟨hs, fun p => ?_, fun p => ?_⟩
    · rw [← h.tiles, cover_append, cover_append, hc, map_cons, cover_cons, cover_cons]
      exact (Nat.add_assoc ..).symm.trans (Nat.add_right_comm ..)
    · simp only [setPages, cover_cons]
      split_ifs
      · simp
      · exact h.mapped p
  simp only
  split_ifs with hfail
  · -- The pages that were mapped were not mapped before.
    refine ⟨hw.release.sorted, hw.release.tiles, fun p => ?_⟩
    simp only [setPages]
    split_ifs with hp
    · have hlt := Nat.add_lt_add_left (hfail.trans n.lt_succ_self) start
      have ha := hw.head (p := p) ⟨hp.1, hp.2.trans hlt⟩
      simp [ha.2, Nat.ne_of_gt ha.1]
    · exact h.mapped p
  · exact hw

theorem Inv.of_reachable (h : machine.Reachable s) : Inv s := by
  refine h.invariant (fun s h => ?_) fun s s' hi h => ?_
  · subst h
    refine ⟨⟨by decide, by decide, trivial⟩, fun p => cover_cons.trans (Nat.zero_add _), fun p => ?_⟩
    simp [initial, cover]
  · rcases h with ⟨n, failing, rfl⟩ | ⟨w, hw, rfl⟩
    · exact hi.map failing
    · exact (hi.perm (perm_cons_erase hw)).release

theorem Inv.restored (h : Inv s) (hl : s.live = []) : s.free = initial.free := by
  obtain ⟨free, live, m⟩ := s
  obtain rfl : live = [] := hl
  have ht (p : ℕ) : 0 < cover free p ↔ 1 ≤ p ∧ p < windowPages := by
    have := h.tiles p
    rw [map_nil, append_nil] at this
    rw [this]
    split_ifs with hp <;> simp [hp]
  cases free with
  | nil => exact absurd ((ht 1).mpr (by decide)) (lt_irrefl 0)
  | cons r rest =>
    obtain ⟨hlow, hne, hrest⟩ := h.sorted
    have hstop : r.stop = r.start + r.pages := rfl
    -- Up to its end the first range alone has the pages.
    have hfirst (p : ℕ) (hp : p ≤ r.stop) (hin : 1 ≤ p ∧ p < windowPages) : r.Has p := by
      obtain ⟨a, ha, hap⟩ := countP_pos_iff.mp ((ht p).mpr hin)
      simp only [decide_eq_true_eq] at hap
      rcases mem_cons.mp ha with rfl | ha
      · exact hap
      · have := (hrest.forall_mem.2 a ha).1
        omega
    have hone := hfirst 1 (by omega) (by decide)
    have hlast := (ht (r.stop - 1)).mp (cover_pos mem_cons_self (by omega))
    have hend : r.stop = windowPages := by
      by_contra hlt
      exact lt_irrefl _ (hfirst r.stop le_rfl (by omega)).2
    cases rest with
    | nil =>
      rw [show r = ⟨1, windowPages - 1⟩ from Range.ext (by simp only; omega) (by simp only; omega)]
      rfl
    | cons a rest =>
      have ha := (ht a.start).mp (cover_pos (by simp) ⟨le_rfl, Nat.lt_add_of_pos_right hrest.2.1⟩)
      have := hrest.1
      omega

/-- In every state the free list is sorted, without empty, overlapping or adjacent ranges; windows have
an unmapped page between them and meet no free range; the free ranges and the windows with their guards
tile the region; and once the windows are released, in any order, the free list is the first one. -/
theorem windows_never_touch (hs : machine.Reachable s) :
    (s.free.Pairwise (fun a b => a.stop < b.start) ∧ ∀ r ∈ s.free, 0 < r.pages) ∧
    s.live.Pairwise (fun a b => a.stop < b.start ∨ b.stop < a.start) ∧
    (∀ w ∈ s.live, (∀ p, w.Has p → s.mapped p = true) ∧ s.mapped w.stop = false ∧
      ∀ r ∈ s.free, r.stop ≤ w.start ∨ w.stop < r.start) ∧
    (∀ p, cover (s.free ++ s.live.map Range.guarded) p = if 1 ≤ p ∧ p < windowPages then 1 else 0) ∧
    ∀ order : List Range, order.Perm s.live → (order.foldl State.unmap s).free = initial.free := by
  have hi := Inv.of_reachable hs
  obtain ⟨hsorted, hne⟩ := hi.sorted.forall_mem
  have hd := disjoint_of_cover (fun p => (hi.tiles p).trans_le (by split <;> simp))
    (forall_mem_append.mpr ⟨fun r hr => (hne r hr).2, forall_mem_map.mpr fun w _ => w.pages.succ_pos⟩)
  obtain ⟨-, hlive, hcross⟩ := pairwise_append.mp hd
  refine ⟨⟨hsorted, fun r hr => (hne r hr).2⟩, pairwise_map.mp hlive, fun w hw => ⟨fun p hp => ?_, ?_,
    fun r hr => hcross r hr _ (mem_map_of_mem hw)⟩, hi.tiles, fun order ho => ?_⟩
  · exact (hi.mapped p).mpr (.inr (cover_pos hw hp))
  · have hp := hi.perm (perm_cons_erase hw)
    have ha := hp.head (p := w.stop) ⟨Nat.le_add_right .., Nat.lt_succ_self _⟩
    simpa [cover_cons, Range.Has, ha.2, Nat.ne_of_gt ha.1] using hp.mapped w.stop
  · clear hi hsorted hne hd hlive hcross
    induction order generalizing s with
    | nil => exact (Inv.of_reachable hs).restored ho.nil_eq.symm
    | cons w order ih =>
      have hw := ho.subset mem_cons_self
      exact ih (hs.step (.inr ⟨w, hw, rfl⟩)) (ho.trans (perm_cons_erase hw)).cons_inv

theorem windows_never_touch_example : machine.Reachable (initial.map 3 3) ∧
    ((initial.map 3 3).unmap ⟨1, 3⟩).free = [⟨1, windowPages - 1⟩] := by
  have h : machine.Reachable initial := .init rfl
  replace h := h.step (.inl ⟨3, 3, rfl⟩)
  exact ⟨h, (windows_never_touch h).2.2.2.2 [⟨1, 3⟩] (.refl _)⟩

/-- Since no two ranges are adjacent, free pages in a row are in one range. -/
theorem Sorted.firstFit_lowest (h : Sorted k l) : (firstFit (n + 1) l).map Prod.fst = some start ↔
    IsLeast {k | ∀ p, k ≤ p → p ≤ k + n → 0 < cover l p} start := by
  induction l generalizing k with
  | nil => exact iff_of_false nofun fun h => absurd (h.1 start le_rfl (Nat.le_add_right ..)) (lt_irrefl 0)
  | cons r rest ih =>
    obtain ⟨-, -, hrest⟩ := h
    have hbehind {p : ℕ} (hp : 0 < cover rest p) : r.stop < p := by
      obtain ⟨a, ha, hap⟩ := countP_pos_iff.mp hp
      exact (hrest.forall_mem.2 a ha).1.trans_le (of_decide_eq_true hap).1
    have hcons (p : ℕ) : 0 < cover (r :: rest) p ↔ r.Has p ∨ 0 < cover rest p := by
      rw [cover_cons]
      split_ifs with hp
      · exact iff_of_true (Nat.succ_pos _) (.inl hp)
      · exact (or_iff_right hp).symm
    have hstop : r.stop = r.start + r.pages := rfl
    simp only [hcons]
    rw [firstFit]
    by_cases hlt : r.pages < n + 1
    · -- A row that meets the first range would go on at its end.
      have hsame : {k | ∀ p, k ≤ p → p ≤ k + n → r.Has p ∨ 0 < cover rest p} =
          {k | ∀ p, k ≤ p → p ≤ k + n → 0 < cover rest p} := by
        ext k
        refine ⟨fun hk p hp hn => ?_, fun hk p hp hn => .inr (hk p hp hn)⟩
        have hend := hk r.stop
        have hfirst := hk k le_rfl
        grind
      rw [if_pos hlt, hsame, ← ih hrest, Option.map_map]
      rfl
    · have hleast : IsLeast {k | ∀ p, k ≤ p → p ≤ k + n → r.Has p ∨ 0 < cover rest p} r.start := by
        refine ⟨fun p hp hn => .inl ⟨hp, by omega⟩, fun k hk => ?_⟩
        obtain hin | hin := hk k le_rfl (Nat.le_add_right ..)
        · exact hin.1
        · have := hbehind hin
          omega
      rw [if_neg hlt, Option.map_some, Option.some.injEq]
      exact ⟨fun h => h ▸ hleast, hleast.unique⟩

/-- A window of `n` pages and its guard have room from a page on: no window has one of the pages. -/
def State.Room (s : State) (n start : ℕ) : Prop :=
  ∀ p, start ≤ p → p ≤ start + n → 1 ≤ p ∧ p < windowPages ∧ cover (s.live.map Range.guarded) p = 0

/-- A window is put at the lowest place with room for it, and is refused only if there is none. -/
theorem window_is_lowest (hs : machine.Reachable s) :
    (allocate n s.free).map Prod.fst = some start ↔ IsLeast {k | s.Room n k} start := by
  have hi := Inv.of_reachable hs
  have hfree (p : ℕ) : 1 ≤ p ∧ p < windowPages ∧ cover (s.live.map Range.guarded) p = 0 ↔
      0 < cover s.free p := by
    have := hi.tiles p
    rw [cover_append] at this
    split_ifs at this <;> omega
  by_cases hn : n + 1 < 2 ^ 64
  · simp only [State.Room, hfree, ← hi.sorted.firstFit_lowest]
    rw [allocate, checkedAdd_eq_some.mpr ⟨rfl, hn⟩]
    rfl
  · refine iff_of_false (by rw [allocate, checkedAdd, if_neg hn]; nofun) fun h => ?_
    have hlast : start + n < 2 ^ 27 := (h.1 (start + n) (Nat.le_add_right ..) le_rfl).2.1
    omega

/-- Behind a window of three pages. -/
theorem window_is_lowest_example : IsLeast {k | (initial.map 3 3).Room 2 k} 5 :=
  (window_is_lowest ((Machine.Reachable.init rfl).step (.inl ⟨3, 3, rfl⟩))).mp rfl

end Roanix.Driver.Mmio
