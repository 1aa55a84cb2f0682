import Roanix.Lib.Bitmap
import Roanix.Lib.Chain
import Roanix.Lib.Tiling
import Roanix.Mem.Vmem.Basic

/-! The free lists of an arena, and its invariant: the tags tile the spans, the free tags are the
listed ones, and the counters are sums over them. While an operation runs, a free tag may be on no
list, so its steps are followed through the tags and the lists. -/
namespace Roanix.Mem
open Lib Function Segment Index Option

def Segment.unlinked (t : Segment) : Segment := { t with previous := none, next := none }

def Segment.piece (t : Segment) : Piece := { t with }

theorem Segment.piece_of_get {tags : Index ℕ Segment} {k : ℕ} {t : Segment}
    (ht : tags.get k = some t) : (tags.get k).map piece = some t.piece := by
  rw [ht, map_some]

def Segment.charge (t : Segment) : ℕ := if t.free then 0 else t.size

namespace Vmem

variable {v w : Vmem} {k : ℕ} {n p : ℕ → Segment → Link}

def previousOf (v : Vmem) (k : ℕ) : Link := (v.segments.get k).bind Segment.previous

def nextOf (v : Vmem) (k : ℕ) : Link := (v.segments.get k).bind Segment.next

def tags (v : Vmem) : Index ℕ Segment := v.segments.mapVals fun _ t => t.unlinked

theorem get_tags (v : Vmem) (k : ℕ) : v.tags.get k = (v.segments.get k).map Segment.unlinked := by
  rw [tags, get_mapVals]

theorem get_tags_of {t : Segment} (ht : v.segments.get k = some t) :
    v.tags.get k = some t.unlinked := by
  rw [get_tags, ht]
  rfl

def SameTags (v w : Vmem) : Prop :=
  w.tags = v.tags ∧ w.quantum = v.quantum ∧ w.total = v.total ∧ w.used = v.used

structure Linked (v : Vmem) (lists : ℕ → List ℕ) : Prop where
  head : ∀ l, v.freelists l = (lists l).head?
  nodup : ∀ l, (lists l).Nodup
  chain : ∀ l, Chain v.previousOf v.nextOf none (lists l)
  sized : ∀ l, ∀ k ∈ lists l, ∃ t, v.segments.get k = some t ∧ freelistIndex t.size = l
  bit : ∀ l < 64, v.freelistMap.getLsbD l = (lists l).head?.isSome

theorem Linked.list_eq {lists : ℕ → List ℕ} (h : v.Linked lists) {l : ℕ} {t : Segment}
    (ht : v.segments.get k = some t) (hk : k ∈ lists l) : l = freelistIndex t.size := by
  obtain ⟨u, hu, hl⟩ := h.sized l k hk
  rw [ht, Option.some.injEq] at hu
  rw [hu, hl]

theorem size_of_tags_eq (h : w.tags = v.tags) {u : Segment} (hu : v.segments.get k = some u) :
    ∃ u', w.segments.get k = some u' ∧ u'.size = u.size := by
  have hk := congrArg (·.get k) h
  simp only [get_tags, hu, Option.map_some, Option.map_eq_some_iff] at hk
  obtain ⟨u', hu', he⟩ := hk
  exact ⟨u', hu', (congrArg Segment.size he : u'.unlinked.size = _)⟩

theorem freelistIndex_lt {size : ℕ} (h : size < 2 ^ 64) : freelistIndex size < 64 := by
  unfold freelistIndex
  rw [Nat.log2_lt (by omega)]
  omega

section
variable {lists : ℕ → List ℕ} (h : v.Linked lists)
include h

theorem Linked.family : Family v.freelists v.previousOf v.nextOf lists where
  __ := h
  apart l m k hl hm := by
    obtain ⟨u, hu, hul⟩ := h.sized m k hm
    rw [h.list_eq hu hl, hul]

theorem Linked.push {base l : ℕ} {t : Segment} (ht : v.segments.get base = some t)
    (hl : freelistIndex t.size = l) (hb : base ∉ lists l) (htags : w.tags = v.tags)
    (hprev : ∀ k, w.previousOf k =
      if k = base then none else if v.freelists l = some k then some base else v.previousOf k)
    (hnext : ∀ k, w.nextOf k = if k = base then v.freelists l else v.nextOf k)
    (hheads : w.freelists = update v.freelists l (some base))
    (hmap : w.freelistMap = v.freelistMap ||| (1#64 <<< l)) :
    w.Linked (update lists l (base :: lists l)) := by
  have hout : ∀ m, base ∉ lists m := by
    intro m hm
    rw [h.list_eq ht hm, hl] at hm
    exact hb hm
  have hfamily := h.family.push hout hheads hprev hnext
  refine { hfamily with sized := fun m k hk => ?_, bit := fun m hm => ?_ }
  · have hold : ∃ u, v.segments.get k = some u ∧ freelistIndex u.size = m := by
      obtain ⟨rfl, rfl⟩ | hk := mem_update_cons.mp hk
      · exact ⟨t, ht, hl⟩
      · exact h.sized m k hk
    obtain ⟨u, hu, hul⟩ := hold
    obtain ⟨u', hu', he⟩ := size_of_tags_eq htags hu
    exact ⟨u', hu', by rw [he, hul]⟩
  · rw [hmap, BitVec.getLsbD_or, Bitmap.getLsbD_one_shiftLeft hm, h.bit m hm]
    by_cases hml : m = l
    · subst hml; simp
    · simp [hml]

theorem Linked.pop {base l : ℕ} (hb : base ∈ lists l) (htags : w.tags = v.tags)
    (hprev : ∀ k, w.previousOf k = if k = base then none
      else if v.nextOf base = some k then v.previousOf base else v.previousOf k)
    (hnext : ∀ k, w.nextOf k = if k = base then none
      else if v.previousOf base = some k then v.nextOf base else v.nextOf k)
    (hheads : w.freelists = if v.previousOf base = none
      then update v.freelists l (v.nextOf base) else v.freelists)
    (hmap : w.freelistMap = if v.previousOf base = none ∧ v.nextOf base = none
      then v.freelistMap &&& ~~~(1#64 <<< l) else v.freelistMap) :
    w.Linked (update lists l ((lists l).erase base)) := by
  have hhead := (h.chain l).head_erase hb
  have hsome : (lists l).head?.isSome := by
    cases hx : lists l with
    | nil => simp [hx] at hb
    | cons x xs => rfl
  have hheads' : w.freelists = update v.freelists l
      (if v.previousOf base = none then v.nextOf base else v.freelists l) := by
    rw [hheads]
    split_ifs
    · rfl
    · exact (update_eq_self l _).symm
  have hfamily : Family w.freelists w.previousOf w.nextOf _ :=
    h.family.erase hb hheads' (fun k hk => by rw [hprev, if_neg hk])
      fun k hk => by rw [hnext, if_neg hk]
  refine { hfamily with sized := fun m k hk => ?_, bit := fun m hm => ?_ }
  · obtain ⟨u, hu, hul⟩ := h.sized m k ((h.family.mem_update_erase hb).mp hk).2
    obtain ⟨u', hu', he⟩ := size_of_tags_eq htags hu
    exact ⟨u', hu', by rw [he, hul]⟩
  · by_cases hml : m = l
    · subst hml
      rw [update_self, hhead, hmap]
      by_cases hp : v.previousOf base = none
      · cases hn : v.nextOf base with
        | none => simp [hp]
        | some n => simp [hp, h.bit m hm, hsome]
      · simp [hp, h.bit m hm]
    · rw [update_of_ne hml, hmap, ← h.bit m hm]
      split_ifs
      · rw [BitVec.getLsbD_and, BitVec.getLsbD_not, Bitmap.getLsbD_one_shiftLeft hm]
        simp [hm, hml]
      · rfl

end

/-- `w` has the tags of `v` with new links, given from each key and its old tag. -/
def Relinked (v w : Vmem) (previous next : ℕ → Segment → Link) : Prop :=
  ∀ k, w.segments.get k =
    (v.segments.get k).map fun u => { u with previous := previous k u, next := next k u }

theorem Relinked.tags_eq (h : Relinked v w p n) : w.tags = v.tags := by
  refine ext_get fun k => ?_
  rw [get_tags, get_tags, h k, Option.map_map]
  rfl

theorem Relinked.previousOf_eq (h : Relinked v w p n) (k : ℕ) :
    w.previousOf k = (v.segments.get k).bind (p k) := by
  rw [previousOf, h k]
  cases v.segments.get k <;> rfl

theorem Relinked.nextOf_eq (h : Relinked v w p n) (k : ℕ) :
    w.nextOf k = (v.segments.get k).bind (n k) := by
  rw [nextOf, h k]
  cases v.segments.get k <;> rfl

variable {lists : ℕ → List ℕ}

def pieces (v : Vmem) (k : ℕ) : Option Piece := (v.segments.get k).map Segment.piece

def Listed (lists : ℕ → List ℕ) (k : ℕ) : Prop := ∃ l, k ∈ lists l

structure Inv (v : Vmem) (spans : Index ℕ ℕ) (lists : ℕ → List ℕ) : Prop where
  quantum : IsPowerOfTwo v.quantum
  keyed : ∀ k t, v.segments.get k = some t → t.base = k
  tiled : Tiled v.quantum spans.get v.pieces
  linked : v.Linked lists
  listed : ∀ k, Listed lists k ↔ ∃ t, v.segments.get k = some t ∧ t.free = true
  bounded : ∀ b n, spans.get b = some n → b + n < 2 ^ 64
  total : v.total = spans.sum fun _ n => n
  used : v.used = v.segments.sum fun _ t => t.charge

theorem pieces_eq_some {p : Piece} :
    v.pieces k = some p ↔ ∃ t, v.segments.get k = some t ∧ t.piece = p := by
  rw [pieces, map_eq_some_iff]

theorem Inv.new {quantum : ℕ} (h : IsPowerOfTwo quantum) :
    (empty quantum).Inv .empty fun _ => [] where
  quantum := h
  keyed k t ht := by simp [empty] at ht
  tiled := Tiled.empty quantum
  linked :=
    { head := fun _ => rfl
      nodup := fun _ => .nil
      chain := fun _ => trivial
      sized := fun l k hk => by simp at hk
      bit := fun l _ => by simp [empty] }
  listed k := by simp [Listed, empty]
  bounded b n hn := by simp at hn
  total := rfl
  used := rfl

theorem Linked.congr {w : Vmem} (h : v.Linked lists)
    (htags : ∀ k, Listed lists k → w.segments.get k = v.segments.get k)
    (hheads : w.freelists = v.freelists) (hmap : w.freelistMap = v.freelistMap) :
    w.Linked lists where
  head l := by rw [hheads, h.head l]
  nodup := h.nodup
  chain l := (h.chain l).congr fun k hk => by
    simp only [previousOf, nextOf, htags k ⟨l, hk⟩, and_self]
  sized l k hk := by
    rw [htags k ⟨l, hk⟩]
    exact h.sized l k hk
  bit l hl := by rw [hmap, h.bit l hl]

theorem listed_push (lists : ℕ → List ℕ) (base l k : ℕ) :
    Listed (update lists l (base :: lists l)) k ↔ k = base ∨ Listed lists k := by
  simp [Listed, mem_update_cons, exists_or]

theorem Inv.size_lt {spans : Index ℕ ℕ} (h : v.Inv spans lists) {t : Segment}
    (ht : v.segments.get k = some t) : t.endAddr < 2 ^ 64 := by
  obtain ⟨n, hn, hlo, hhi⟩ := h.tiled.inside (pieces_eq_some.mpr ⟨t, ht, rfl⟩)
  have hb := h.bounded _ n hn
  have hk := h.keyed k t ht
  simp only [piece] at hlo hhi hb
  unfold endAddr
  omega

/-- The tags without links, the lists, and the counters that no list operation changes. -/
structure View (v : Vmem) (tags : Index ℕ Segment) (lists : ℕ → List ℕ)
    (quantum total used : ℕ) : Prop where
  tags_eq : v.tags = tags
  linked : v.Linked lists
  quantum_eq : v.quantum = quantum
  total_eq : v.total = total
  used_eq : v.used = used

variable {tags : Index ℕ Segment} {quantum total used : ℕ} {spans : Index ℕ ℕ}

section
variable (h : v.View tags lists quantum total used)
include h

theorem View.get {t : Segment} (ht : tags.get k = some t) :
    ∃ u, v.segments.get k = some u ∧ u.unlinked = t := by
  rw [← h.tags_eq, get_tags, map_eq_some_iff] at ht
  exact ht

theorem View.get_none (hk : tags.get k = none) :
    v.segments.get k = none := by
  rwa [← h.tags_eq, get_tags, map_eq_none_iff] at hk

theorem View.same {w : Vmem} {lists' : ℕ → List ℕ} (hs : v.SameTags w) (hl : w.Linked lists') :
    w.View tags lists' quantum total used :=
  ⟨hs.1.trans h.tags_eq, hl, hs.2.1.trans h.quantum_eq, hs.2.2.1.trans h.total_eq,
    hs.2.2.2.trans h.used_eq⟩

theorem View.inv (hq : IsPowerOfTwo quantum) (hkeyed : ∀ k t, tags.get k = some t → t.base = k)
    (htiled : Tiled quantum spans.get fun k => (tags.get k).map piece)
    (hlisted : ∀ k, Listed lists k ↔ ∃ t, tags.get k = some t ∧ t.free = true)
    (hbounded : ∀ b n, spans.get b = some n → b + n < 2 ^ 64)
    (htotal : total = spans.sum fun _ n => n) (hused : used = tags.sum fun _ t => t.charge) :
    v.Inv spans lists := by
  have hget : ∀ k, tags.get k = (v.segments.get k).map unlinked := fun k => by
    rw [← h.tags_eq, get_tags]
  refine ⟨h.quantum_eq ▸ hq, fun k t ht => ?_, ?_, h.linked, fun k => ?_, hbounded,
    h.total_eq.trans htotal, ?_⟩
  · exact hkeyed k t.unlinked (by rw [hget, ht]; rfl)
  · have hp : (fun k => (tags.get k).map piece) = v.pieces := funext fun k => by
      rw [hget, map_map]
      rfl
    rw [h.quantum_eq, ← hp]
    exact htiled
  · rw [hlisted, hget]
    cases v.segments.get k <;> simp [unlinked]
  · rw [h.used_eq, hused, ← h.tags_eq, Vmem.tags, sum_mapVals]
    rfl

end

section
variable (h : v.Inv spans lists)
include h

theorem Inv.get_tags_free : Listed lists k ↔ ∃ t, v.tags.get k = some t ∧ t.free = true := by
  rw [h.listed, get_tags]
  cases v.segments.get k <;> simp [unlinked]

theorem Inv.view : v.View v.tags lists v.quantum v.total v.used := ⟨rfl, h.linked, rfl, rfl, rfl⟩

theorem Inv.tiled_tags :
    Tiled v.quantum spans.get fun k => (v.tags.get k).map piece := by
  have hp : (fun k => (v.tags.get k).map piece) = v.pieces :=
    funext fun k => by rw [get_tags, map_map]; rfl
  rw [hp]
  exact h.tiled

theorem Inv.keyed_tags {t : Segment} (ht : v.tags.get k = some t) : t.base = k := by
  obtain ⟨u, hu, rfl⟩ := h.view.get ht
  exact h.keyed k u hu

theorem Inv.sum_tags : (v.tags.sum fun _ t => t.charge) = v.used := by
  rw [h.used, Vmem.tags, sum_mapVals]
  rfl

end

end Vmem

namespace VmemM
open Act Vmem
variable {T : Panic → Prop} {E : VmemError → Arena → Prop} {s : Arena} {lists : ℕ → List ℕ}
  {base l : ℕ} {t : Segment} {Q : Unit → Arena → Prop}
variable {v w : Vmem}

def pushPrevious (base : ℕ) (head : Link) (k : ℕ) (u : Segment) : Link :=
  if k = base then none else if head = some k then some base else u.previous

def pushNext (base : ℕ) (head : Link) (k : ℕ) (u : Segment) : Link :=
  if k = base then head else u.next

def popPrevious (base : ℕ) (previous next : Link) (k : ℕ) (u : Segment) : Link :=
  if k = base then none else if next = some k then previous else u.previous

def popNext (base : ℕ) (previous next : Link) (k : ℕ) (u : Segment) : Link :=
  if k = base then none else if previous = some k then next else u.next

attribute [local simp] popPrevious popNext pushPrevious pushNext previousOf nextOf

private theorem linked_of_push (h : v.Linked lists) (ht : v.segments.get base = some t)
    (hl : freelistIndex t.size = l) (hb : base ∉ lists l)
    (hw : Relinked v w (pushPrevious base (lists l).head?) (pushNext base (lists l).head?))
    (hheads : w.freelists = update v.freelists l (some base))
    (hmap : w.freelistMap = v.freelistMap ||| (1#64 <<< l)) :
    w.Linked (update lists l (base :: lists l)) := by
  refine h.push ht hl hb hw.tags_eq (fun k => ?_) (fun k => ?_) hheads hmap
  · rw [hw.previousOf_eq, previousOf, h.head]
    by_cases hk : k = base
    · simp [hk]
    · by_cases hh : (lists l).head? = some k
      · obtain ⟨u, hu, -⟩ := h.sized l k (List.mem_of_mem_head? hh)
        simp [hu]
      · cases v.segments.get k <;> simp [hh]
  · rw [hw.nextOf_eq, nextOf, h.head]
    by_cases hk : k = base
    · simp [hk, ht]
    · cases v.segments.get k <;> simp [hk]

private theorem linked_of_pop (h : v.Linked lists) (ht : v.segments.get base = some t)
    (hb : base ∈ lists l)
    (hw : Relinked v w (popPrevious base t.previous t.next) (popNext base t.previous t.next))
    (hheads : w.freelists =
      if t.previous = none then update v.freelists l t.next else v.freelists)
    (hmap : w.freelistMap = if t.previous = none ∧ t.next = none
      then v.freelistMap &&& ~~~(1#64 <<< l) else v.freelistMap) :
    w.Linked (update lists l ((lists l).erase base)) := by
  have hprev : v.previousOf base = t.previous := by simp [ht]
  have hnext : v.nextOf base = t.next := by simp [ht]
  refine h.pop hb hw.tags_eq (fun k => ?_) (fun k => ?_) (by rw [hprev, hnext, hheads])
    (by rw [hprev, hnext, hmap])
  · rw [hw.previousOf_eq, hprev, hnext]
    by_cases hk : k = base
    · simp [hk]
    · by_cases hn : t.next = some k
      · obtain ⟨u, hu, -⟩ := h.sized l k ((h.chain l).next_mem hb (hnext.trans hn))
        simp [hn, hu]
      · cases hu : v.segments.get k <;> simp [hn, hu]
  · rw [hw.nextOf_eq, hprev, hnext]
    by_cases hk : k = base
    · simp [hk]
    · by_cases hp : t.previous = some k
      · have hm := ((h.chain l).prev_mem hb (hprev.trans hp)).resolve_right (by simp)
        obtain ⟨u, hu, -⟩ := h.sized l k hm
        simp [hp, hu]
      · cases hu : v.segments.get k <;> simp [hp, hu]

theorem wp_pushFree (h : s.vmem.Linked lists) (ht : s.vmem.segments.get base = some t)
    (hl : freelistIndex t.size = l) (hb : base ∉ lists l)
    (hQ : ∀ w, s.vmem.SameTags w → w.Linked (update lists l (base :: lists l)) →
      Q () { s with vmem := w }) :
    wp T (pushFree base) Q E s := by
  simp only [pushFree, wp_bind, wp_tag ht, wp_vmem, wp_updateTag ht, hl, h.head l]
  cases hh : (lists l).head? with
  | none =>
    refine hQ _ ⟨Relinked.tags_eq ?alone, rfl, rfl, rfl⟩ (linked_of_push h ht hl hb ?alone rfl rfl)
    intro k
    by_cases hk : k = base <;> simp [hk, hh]
  | some head =>
    obtain ⟨u, hu, -⟩ := h.sized l head (List.mem_of_mem_head? hh)
    have hne : head ≠ base := fun he => hb (he ▸ List.mem_of_mem_head? hh)
    simp only [wp_bind]
    rw [wp_updateLink (t := u) (by simp [hne, hu])]
    refine hQ _ ⟨Relinked.tags_eq ?front, rfl, rfl, rfl⟩ (linked_of_push h ht hl hb ?front rfl rfl)
    intro k
    cases hk : s.vmem.segments.get k <;>
      grind [cases Segment, pushPrevious, pushNext, get_modify]

private theorem neighbour_of_mem (h : v.Linked lists) (ht : v.segments.get base = some t)
    (hb : base ∈ lists l) {k : ℕ} (hk : t.previous = some k ∨ t.next = some k) :
    k ≠ base ∧ ∃ u, v.segments.get k = some u := by
  have hprev : v.previousOf base = t.previous := by simp [ht]
  have hnext : v.nextOf base = t.next := by simp [ht]
  rcases hk with hk | hk
  · have hne := (h.chain l).prev_ne_self (h.nodup l) (by simp) hb
    have hm := ((h.chain l).prev_mem hb (hprev.trans hk)).resolve_right (by simp)
    obtain ⟨u, hu, -⟩ := h.sized l k hm
    exact ⟨fun he => hne (he ▸ hprev.trans hk), u, hu⟩
  · have hne := (h.chain l).next_ne_self (h.nodup l) hb
    obtain ⟨u, hu, -⟩ := h.sized l k ((h.chain l).next_mem hb (hnext.trans hk))
    exact ⟨fun he => hne (he ▸ hnext.trans hk), u, hu⟩

theorem wp_popFree (h : s.vmem.Linked lists) (ht : s.vmem.segments.get base = some t)
    (hl : freelistIndex t.size = l) (hb : base ∈ lists l)
    (hQ : ∀ w, s.vmem.SameTags w → w.Linked (update lists l ((lists l).erase base)) →
      Q () { s with vmem := w }) :
    wp T (popFree base) Q E s := by
  simp only [popFree, wp_bind, wp_tag ht, wp_updateTag ht, hl]
  cases hp : t.previous with
  | none =>
    cases hn : t.next with
    | none =>
      refine hQ _ ⟨Relinked.tags_eq ?only, rfl, rfl, rfl⟩
        (linked_of_pop h ht hb ?only (by simp [hp, hn]) (by simp [hp, hn]))
      intro k
      by_cases hk : k = base <;> simp [hk, hp, hn]
    | some n =>
      obtain ⟨hnb, u, hu⟩ := neighbour_of_mem h ht hb (.inr hn)
      simp only [wp_bind, wp_setFreelist, reduceCtorEq, if_false]
      rw [wp_updateLink (t := u) (by simp [hnb, hu])]
      refine hQ _ ⟨Relinked.tags_eq ?head, rfl, rfl, rfl⟩
        (linked_of_pop h ht hb ?head (by simp [hp, hn]) (by simp [hn]))
      intro k
      cases hk : s.vmem.segments.get k <;>
        grind [cases Segment, popPrevious, popNext, get_modify]
  | some p =>
    obtain ⟨hpb, q, hq⟩ := neighbour_of_mem h ht hb (.inl hp)
    simp only [wp_bind]
    rw [wp_updateLink (t := q) (by simp [hpb, hq])]
    cases hn : t.next with
    | none =>
      refine hQ _ ⟨Relinked.tags_eq ?last, rfl, rfl, rfl⟩
        (linked_of_pop h ht hb ?last (by simp [hp]) (by simp [hp]))
      intro k
      cases hk : s.vmem.segments.get k <;>
        grind [cases Segment, popPrevious, popNext, get_modify]
    | some n =>
      obtain ⟨hnb, u, hu⟩ := neighbour_of_mem h ht hb (.inr hn)
      rw [wp_updateLink (t := if n = p then { u with next := some n } else u)
        (by grind [get_modify])]
      refine hQ _ ⟨Relinked.tags_eq ?inner, rfl, rfl, rfl⟩
        (linked_of_pop h ht hb ?inner (by simp [hp]) (by simp [hp]))
      intro k
      cases hk : s.vmem.segments.get k <;>
        grind [cases Segment, popPrevious, popNext, get_modify]

variable {tags : Index ℕ Segment} {quantum total used : ℕ}

section
variable (h : s.vmem.View tags lists quantum total used)
include h

theorem wp_updateTag_view
    (ht : tags.get base = some t) (hoff : ¬ Listed lists base) {f : Segment → Segment}
    (hf : ∀ u, (f u).unlinked = f u.unlinked)
    (hQ : ∀ w : Vmem, w.View (tags.modify base f) lists quantum total used →
      Q () { s with vmem := w }) :
    wp T (updateTag base f) Q E s := by
  obtain ⟨u, hu, -⟩ := h.get ht
  rw [wp_updateTag hu]
  refine hQ _ { h with tags_eq := ?_, linked := h.linked.congr (fun k hk => ?_) rfl rfl }
  · rw [← h.tags_eq]
    exact mapVals_modify hf s.vmem.segments
  · have hne : k ≠ base := fun he => hoff (he ▸ hk)
    simp only [get_modify, hne, if_false]

theorem wp_insertTag_view (hnew : tags.get base = none) (ht : t.unlinked = t)
    (hQ : ∀ w : Vmem, w.View (tags.insert base t) lists quantum total used →
      Q () { s with vmem := w }) :
    wp T (insertTag base t (some base)) Q E s := by
  simp only [insertTag, insertReserved_node]
  refine hQ _ { h with tags_eq := ?_, linked := h.linked.congr (fun k hk => ?_) rfl rfl }
  · rw [← h.tags_eq]
    exact (mapVals_insert _ base t s.vmem.segments).trans (by rw [ht]; rfl)
  · obtain ⟨l, hl⟩ := hk
    obtain ⟨u, hu, -⟩ := h.linked.sized l k hl
    have hne : k ≠ base := fun he => by
      rw [he, h.get_none hnew] at hu
      cases hu
    simp only [get_insert, hne, if_false]

theorem removeTag_view (hoff : ¬ Listed lists base) :
    ({ s.vmem with segments := s.vmem.segments.remove base } : Vmem).View (tags.remove base) lists
      quantum total used := by
  refine { h with tags_eq := ?_, linked := h.linked.congr (fun k hk => ?_) rfl rfl }
  · rw [← h.tags_eq]
    exact mapVals_remove _ base s.vmem.segments
  · have hne : k ≠ base := fun he => hoff (he ▸ hk)
    simp only [get_remove, hne, if_false]

theorem wp_pushFree_view
    (ht : tags.get base = some t) (hoff : ¬ Listed lists base)
    (hQ : ∀ w : Vmem, w.View tags (Function.update lists (freelistIndex t.size)
      (base :: lists (freelistIndex t.size))) quantum total used → Q () { s with vmem := w }) :
    wp T (pushFree base) Q E s := by
  obtain ⟨u, hu, hut⟩ := h.get ht
  have hus : u.size = t.size := by rw [← hut]; rfl
  exact wp_pushFree h.linked hu (congrArg freelistIndex hus) (fun hm => hoff ⟨_, hm⟩)
    fun w hs hl => hQ w (h.same hs hl)

theorem wp_popFree_view
    (ht : tags.get base = some t) (hon : Listed lists base)
    (hQ : ∀ (w : Vmem) (lists' : ℕ → List ℕ), (∀ k, Listed lists' k ↔ k ≠ base ∧ Listed lists k) →
      w.View tags lists' quantum total used → Q () { s with vmem := w }) :
    wp T (popFree base) Q E s := by
  obtain ⟨u, hu, -⟩ := h.get ht
  obtain ⟨l, hl⟩ := hon
  have hle : freelistIndex u.size = l := (h.linked.list_eq hu hl).symm
  exact wp_popFree h.linked hu hle hl fun w hs hlw =>
    hQ w _ (by simp [Vmem.Listed, h.linked.family.mem_update_erase hl]) (h.same hs hlw)

end

end VmemM
end Roanix.Mem
