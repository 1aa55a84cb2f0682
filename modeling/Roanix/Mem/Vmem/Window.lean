import Roanix.Mem.Vmem.Ops

/-! Windows of whole tags around an allocation, which grow by a free neighbour at a time. -/
namespace Roanix.Mem
open Lib Segment Option Index

namespace Vmem
variable {tags : Index ℕ Segment} {quantum : ℕ}

/-- `joined` has one tag `t` for the window `[lo, hi)` and is otherwise `tags`. -/
def Joined (tags joined : Index ℕ Segment) (lo hi : ℕ) (t : Segment) : Prop :=
  ∀ k, joined.get k = if k = lo then some t else if lo < k ∧ k < hi then none else tags.get k

theorem Joined.tiled {spans : ℕ → Option ℕ} {joined : Index ℕ Segment} {lo hi b n : ℕ}
    {t : Segment} (hj : Joined tags joined lo hi t)
    (h : Tiled quantum spans fun k => (tags.get k).map piece)
    (ht : t.piece = ⟨hi - lo, b, true⟩) (hb : spans b = some n) (hlo : b ≤ lo)
    (hhi : hi ≤ b + n) (hlt : lo < hi) (hqlo : quantum ∣ lo) (hqhi : quantum ∣ hi)
    (hleft : ∀ k u, tags.get k = some u → k < lo → k + u.size ≤ lo)
    (hright : ∀ k u, tags.get k = some u → lo ≤ k → k < hi → k + u.size ≤ hi)
    (hbefore : ∀ k u, tags.get k = some u → k + u.size = lo → u.span = b → u.free = false)
    (hafter : ∀ u, tags.get hi = some u → u.span = b → u.free = false) :
    Tiled quantum spans fun k => (joined.get k).map piece := by
  have hsome : ∀ k p, (tags.get k).map piece = some p →
      ∃ u, tags.get k = some u ∧ u.piece = p := fun k p hp => map_eq_some_iff.mp hp
  refine h.merge hb hlo hhi (fun k hk => ?_) (fun k p hp hk => ?_) (fun k p hp hk hke => ?_)
    hlt hqlo hqhi ?_ (fun k hk hke => ?_) (fun k p hp hk hs => ?_) (fun p hp hs => ?_)
  · rw [hj k, if_neg (by omega), if_neg (by omega)]
  · obtain ⟨u, hu, rfl⟩ := hsome k p hp
    exact hleft k u hu hk
  · obtain ⟨u, hu, rfl⟩ := hsome k p hp
    exact hright k u hu hk hke
  · rw [hj lo, if_pos rfl, map_some, ht]
  · rw [hj k, if_neg (by omega), if_pos ⟨hk, hke⟩, map_none]
  · obtain ⟨u, hu, rfl⟩ := hsome k p hp
    exact hbefore k u hu hk hs
  · obtain ⟨u, hu, rfl⟩ := hsome hi p hp
    exact hafter u hu hs

section Merge
variable {joined : Index ℕ Segment} {lo mid hi : ℕ} {p q : Segment} (hlo : lo < mid) (hhi : mid < hi)
include hlo hhi

theorem Joined.absorb (hj : Joined tags joined lo mid p) (hq : Joined tags tags mid hi q)
    (f : Segment → Segment) : Joined tags ((joined.modify lo f).remove mid) lo hi (f p) := by
  intro k
  have hk := hj k
  have hk' := hq k
  rw [get_remove, get_modify]
  grind

theorem Joined.precede (hj : Joined tags joined mid hi q) (hp : Joined tags tags lo mid p)
    (f : Segment → Segment) : Joined tags ((joined.modify lo f).remove mid) lo hi (f p) := by
  intro k
  have hk := hj k
  have hk' := hp k
  rw [get_remove, get_modify]
  grind

end Merge

theorem Joined.sum {joined : Index ℕ Segment} {lo hi base : ℕ} {t u : Segment}
    (hj : Joined tags joined lo hi t) (hfree : t.free = true) (hu : tags.get base = some u)
    (halloc : u.free = false) (hbase : lo ≤ base ∧ base < hi)
    (hothers : ∀ k w, tags.get k = some w → k ≠ base → lo ≤ k → k < hi → w.free = true) :
    (joined.sum fun _ t => t.charge) + u.size = tags.sum fun _ t => t.charge := by
  have hrest : (joined.sum fun _ t => t.charge) = (tags.remove base).sum fun _ t => t.charge := by
    refine sum_eq_of_get fun k => ?_
    rw [hj k, get_remove]
    by_cases hk : lo ≤ k ∧ k < hi
    · have hnew : ((if k = lo then some t else if lo < k ∧ k < hi then none
          else tags.get k).map charge).getD 0 = 0 := by
        by_cases hkl : k = lo
        · simp [hkl, charge, hfree]
        · rw [if_neg hkl, if_pos ⟨by omega, hk.2⟩]
          rfl
      rw [hnew]
      by_cases hkb : k = base
      · simp [hkb]
      · rw [if_neg hkb]
        cases hw : tags.get k with
        | none => rfl
        | some w => simp [charge, hothers k w hw hkb hk.1 hk.2]
    · rw [if_neg (by omega), if_neg (by omega), if_neg (by omega)]
  rw [hrest, sum_of_get _ hu]
  simp [charge, halloc]

def allocated (v : Vmem) (k : ℕ) : Option ℕ :=
  ((v.tags.get k).filter fun t => !t.free).map Segment.size

/-- `[lo, hi)` is made of whole tags of one span: the allocated tag at `base` and free ones. -/
structure Window (v : Vmem) (spans : Index ℕ ℕ) (base : ℕ) (t : Segment) (lo hi : ℕ) : Prop where
  base_mem : lo ≤ base ∧ base < hi
  aligned : v.quantum ∣ lo ∧ v.quantum ∣ hi
  start : ∃ u, v.tags.get lo = some u ∧ u.span = t.span
  right : ∀ k u, v.tags.get k = some u → lo ≤ k → k < hi → k + u.size ≤ hi
  others : ∀ k u, v.tags.get k = some u → k ≠ base → lo ≤ k → k < hi → u.free = true
  inside : ∃ n, spans.get t.span = some n ∧ t.span ≤ lo ∧ hi ≤ t.span + n

section Windows
variable {v : Vmem} {spans : Index ℕ ℕ} {lists : ℕ → List ℕ} {base lo hi : ℕ} {t u : Segment}

variable (h : v.Inv spans lists)
include h

theorem Inv.apart {k k' : ℕ} {p p' : Segment} (hp : v.tags.get k = some p)
    (hp' : v.tags.get k' = some p') (hlt : k < k') : k + p.size ≤ k' :=
  h.tiled_tags.apart (piece_of_get hp) (piece_of_get hp') hlt

theorem Inv.tag_bounds {k : ℕ} {p : Segment} (hp : v.tags.get k = some p) :
    0 < p.size ∧ (v.quantum ∣ k ∧ v.quantum ∣ p.size) ∧
      ∃ n, spans.get p.span = some n ∧ p.span ≤ k ∧ k + p.size ≤ p.span + n := by
  have hg := piece_of_get hp
  exact ⟨h.tiled_tags.pos hg, h.tiled_tags.aligned hg, h.tiled_tags.inside hg⟩

theorem Inv.only (ht : v.tags.get base = some t) {k : ℕ} {p : Segment} (hp : v.tags.get k = some p)
    (hlo : base ≤ k) (hhi : k < base + t.size) : k = base ∧ p = t := by
  have hk : k = base := by
    by_contra hne
    have := h.apart ht hp (by omega)
    omega
  subst hk
  exact ⟨rfl, mem_unique hp ht⟩

theorem Inv.joined (ht : v.tags.get base = some t) :
    Joined v.tags v.tags base (base + t.size) t := by
  intro k
  split_ifs with hk hin
  · rw [hk, ht]
  · by_contra hne
    obtain ⟨p, hp⟩ := ne_none_iff_exists'.mp hne
    exact hk (h.only ht hp hin.1.le hin.2).1
  · rfl

theorem Inv.get_none_of_inside (ht : v.segments.get base = some t) {k : ℕ} (hlt : base < k)
    (hend : k < t.endAddr) : v.tags.get k = none := by
  rw [endAddr, h.keyed base t ht] at hend
  rw [h.joined (get_tags_of ht) k, if_neg hlt.ne', if_pos ⟨hlt, hend⟩]

section
variable (ht : v.tags.get base = some t)
include ht

theorem Inv.listed_start {k : ℕ} (hk : Listed lists k) (hlo : base ≤ k) (hhi : k < base + t.size) :
    k = base := by
  obtain ⟨p, hp, -⟩ := h.get_tags_free.mp hk
  exact (h.only ht hp hlo hhi).1

theorem Inv.not_listed (halloc : t.free = false) : ¬ Listed lists base := by
  rw [h.get_tags_free, ht]
  rintro ⟨m, hm, hf⟩
  rw [← some.inj hm, halloc] at hf
  cases hf

theorem Inv.coalesced (hu : v.tags.get (base + t.size) = some u) (hs : t.span = u.span)
    (hfree : t.free = true) : u.free = false :=
  h.tiled_tags.coalesced (piece_of_get ht) (piece_of_get hu) hs hfree

theorem Inv.window : Window v spans base t base (base + t.size) := by
  obtain ⟨hpos, ⟨hqb, hqs⟩, hin⟩ := h.tag_bounds ht
  refine ⟨by omega, ⟨hqb, Nat.dvd_add hqb hqs⟩, ⟨t, ht, rfl⟩, fun k u hu hk hke => ?_,
    fun k u hu hne hk hke => absurd (h.only ht hu hk hke).1 hne, hin⟩
  obtain ⟨rfl, rfl⟩ := h.only ht hu hk hke
  exact le_rfl

end

theorem Window.grow_right (hw : Window v spans base t lo hi) (hu : v.tags.get hi = some u)
    (hfree : u.free = true) (hspan : u.span = t.span) : Window v spans base t lo (hi + u.size) := by
  obtain ⟨hpos, ⟨-, hqs⟩, n, hn, -, hend⟩ := h.tag_bounds hu
  obtain ⟨n', hn', hlo, -⟩ := hw.inside
  rw [hspan, hn', some.injEq] at hn
  have hmem := hw.base_mem
  refine ⟨by omega, ⟨hw.aligned.1, Nat.dvd_add hw.aligned.2 hqs⟩, hw.start,
    fun k p hp hk hke => ?_, fun k p hp hne hk hke => ?_, n', hn', hlo, by rw [hspan] at hend; omega⟩
  · by_cases hkh : k < hi
    · have := hw.right k p hp hk hkh
      omega
    · obtain ⟨rfl, rfl⟩ := h.only hu hp (by omega) hke
      exact le_rfl
  · by_cases hkh : k < hi
    · exact hw.others k p hp hne hk hkh
    · obtain ⟨rfl, rfl⟩ := h.only hu hp (by omega) hke
      exact hfree

theorem Window.grow_left (hw : Window v spans base t lo hi) {k : ℕ} (hu : v.tags.get k = some u)
    (hend : k + u.size = lo) (hfree : u.free = true) (hspan : u.span = t.span) :
    Window v spans base t k hi := by
  obtain ⟨hpos, ⟨hqk, -⟩, n, hn, hlo, -⟩ := h.tag_bounds hu
  obtain ⟨n', hn', -, hhi⟩ := hw.inside
  have hmem := hw.base_mem
  refine ⟨by omega, ⟨hqk, hw.aligned.2⟩, ⟨u, hu, hspan⟩, fun k' p hp hk hke => ?_,
    fun k' p hp hne hk hke => ?_, n', hn', by rw [hspan] at hlo; exact hlo, hhi⟩
  · by_cases hkl : k' < lo
    · obtain ⟨rfl, rfl⟩ := h.only hu hp hk (by omega)
      omega
    · exact hw.right k' p hp (by omega) hke
  · by_cases hkl : k' < lo
    · obtain ⟨rfl, rfl⟩ := h.only hu hp hk (by omega)
      exact hfree
    · exact hw.others k' p hp hne (by omega) hke

theorem Inv.unlinked_tags {k : ℕ} (ht : v.tags.get k = some t) :
    t.previous = none ∧ t.next = none := by
  obtain ⟨u, -, rfl⟩ := h.view.get ht
  exact ⟨rfl, rfl⟩

theorem Window.inv {w : Vmem} {joined : Index ℕ Segment} {lists' : ℕ → List ℕ} {used : ℕ}
    (hw : Window v spans base t lo hi) (ht : v.tags.get base = some t) (halloc : t.free = false)
    (hj : Joined v.tags joined lo hi { base := lo, size := hi - lo, span := t.span, free := true })
    (hbefore : ∀ k u, v.tags.get k = some u → k + u.size = lo → u.span = t.span → u.free = false)
    (hafter : ∀ u, v.tags.get hi = some u → u.span = t.span → u.free = false)
    (hlisted : ∀ k, Listed lists' k ↔ k = lo ∨ (¬ (lo ≤ k ∧ k < hi) ∧ Listed lists k))
    (hv : w.View joined lists' v.quantum v.total used) (hused : used + t.size = v.used) :
    w.Inv spans lists' := by
  obtain ⟨n, hn, hlo, hhi⟩ := hw.inside
  obtain ⟨u, hu, -⟩ := hw.start
  have hmem := hw.base_mem
  have hsum := hj.sum rfl ht halloc hmem hw.others
  refine hv.inv h.quantum (fun k p hp => ?_) (hj.tiled h.tiled_tags rfl hn hlo hhi (by omega)
    hw.aligned.1 hw.aligned.2 (fun k p hp hk => h.apart hp hu hk) hw.right hbefore hafter)
    (fun k => ?_) h.bounded h.total ?_
  · rw [hj k] at hp
    split_ifs at hp with h1
    · rw [← some.inj hp, h1]
    · exact h.keyed_tags hp
  · rw [hlisted, hj k, h.get_tags_free]
    by_cases h1 : k = lo
    · simp [h1]
    · by_cases h2 : lo < k ∧ k < hi
      · simp [h2, h2.1.le]
      · have h3 : ¬ (lo ≤ k ∧ k < hi) := by omega
        simp [h1, h2, h3]
  · have htags := h.sum_tags
    omega

theorem Inv.following {found : Option (ℕ × Segment)} (ht : v.tags.get base = some t)
    (hf : (v.segments.first (base < ·)).filter (fun e =>
      e.2.free && e.2.span = t.span && e.2.base = base + t.size) = found) :
    (∃ n m, found = some (base + t.size, n) ∧
      v.tags.get (base + t.size) = some m ∧ m.free = true ∧ m.span = t.span) ∨
    (found = none ∧
      ∀ m, v.tags.get (base + t.size) = some m → m.span = t.span → m.free = false) := by
  cases found with
  | some e =>
    obtain ⟨k, n⟩ := e
    obtain ⟨hfirst, hp⟩ := filter_eq_some_iff.mp hf
    obtain ⟨hn, -, -⟩ := first_eq_some hfirst
    simp only [Bool.and_eq_true, decide_eq_true_eq] at hp
    obtain rfl : k = base + t.size := (h.keyed k n hn).symm.trans hp.2
    exact .inl ⟨n, n.unlinked, rfl, get_tags_of hn, hp.1.1, hp.1.2⟩
  | none =>
    refine .inr ⟨rfl, fun m hm hs => ?_⟩
    obtain ⟨hpos, -, -⟩ := h.tag_bounds ht
    obtain ⟨n, hn, rfl⟩ := h.view.get hm
    have hfirst : v.segments.first (base < ·) = some (base + t.size, n) := by
      refine first_of_min hn ?_ fun k u hu hk => ?_
      · exact decide_eq_true (Nat.lt_add_of_pos_right hpos)
      · exact h.apart ht (get_tags_of hu) (of_decide_eq_true hk)
    rw [hfirst] at hf
    have hkey := h.keyed _ n hn
    have hs' : n.span = t.span := hs
    have hfree : n.free = false := by simpa [hs', hkey] using hf
    exact hfree

/-- The tag that `free` finds before an allocation ends where it starts. The lookup happens
after the following tag was absorbed, which changed nothing below the allocation. -/
theorem Inv.preceding {w : Vmem} {found : Option (ℕ × Segment)} (span : ℕ)
    (hlow : ∀ k < base, w.tags.get k = v.tags.get k)
    (hf : (w.segments.last (· < base)).filter (fun e =>
      e.2.free && e.2.span = span && e.2.endAddr = base) = found) :
    (∃ k n m, found = some (k, n) ∧
      k < base ∧ v.tags.get k = some m ∧ m.free = true ∧ m.span = span ∧ k + m.size = base) ∨
    (found = none ∧
      ∀ k u, v.tags.get k = some u → k + u.size = base → u.span = span → u.free = false) := by
  have hget : ∀ k n, w.segments.get k = some n → k < base → v.tags.get k = some n.unlinked :=
    fun k n hn hk => (hlow k hk).symm.trans (get_tags_of hn)
  cases found with
  | some e =>
    obtain ⟨k, n⟩ := e
    obtain ⟨hlast, hp⟩ := filter_eq_some_iff.mp hf
    obtain ⟨hn, hk, -⟩ := last_eq_some hlast
    have hk : k < base := of_decide_eq_true hk
    simp only [Bool.and_eq_true, decide_eq_true_eq] at hp
    have hkey : n.base = k := (h.keyed_tags (hget k n hn hk) : n.unlinked.base = k)
    refine .inl ⟨k, n, n.unlinked, rfl, hk, hget k n hn hk, hp.1.1, hp.1.2, ?_⟩
    rw [← hkey]
    exact hp.2
  | none =>
    refine .inr ⟨rfl, fun k u hu hend hs => ?_⟩
    obtain ⟨hpos, -, -⟩ := h.tag_bounds hu
    have hk : k < base := by omega
    have hw : w.tags.get k = some u := (hlow k hk).trans hu
    rw [get_tags, map_eq_some_iff] at hw
    obtain ⟨n, hn, rfl⟩ := hw
    have hlast : w.segments.last (· < base) = some (k, n) := by
      refine last_of_max hn (decide_eq_true hk) fun k' n' hn' hk' => ?_
      have hk' : k' < base := of_decide_eq_true hk'
      by_contra hlt
      have hapart := h.apart hu (hget k' n' hn' hk') (by omega)
      omega
    have hkey : n.base = k := (h.keyed_tags hu : n.unlinked.base = k)
    have hlimit : n.endAddr = base := by
      rw [endAddr, hkey]
      exact hend
    have hs' : n.span = span := hs
    rw [hlast] at hf
    have hfree : n.free = false := by simpa [hs', hlimit] using hf
    exact hfree

end Windows

end Vmem

end Roanix.Mem
