import Roanix.Mem.Vmem.Window

/-! Taking a range out of a free tag. The tag is replaced by the range and by the free
remainders before and after it. -/
namespace Roanix.Mem
open Lib Index Segment Option

namespace Vmem
variable {tags : Index ℕ Segment} {base segment size : ℕ}

/-- The tags after `[base, base + size)` is taken out of the free tag `t` at `segment`. -/
def takeTags (tags : Index ℕ Segment) (segment : ℕ) (t : Segment) (base size : ℕ) :
    Index ℕ Segment :=
  let cut :=
    if segment < base then
      (tags.modify segment fun t => { t with size := base - segment }).insert base
        { base := base, size := size, span := t.span, free := false }
    else
      (tags.modify segment fun t => { t with size := size }).modify segment fun t =>
        { t with free := false }
  if base + size < t.endAddr then
    cut.insert (base + size)
      { base := base + size, size := t.endAddr - base - size, span := t.span, free := true }
  else cut

/-- The tags once the range itself stands. -/
def cutTags (tags : Index ℕ Segment) (segment : ℕ) (t : Segment) (base size : ℕ) :
    Index ℕ Segment :=
  if segment < base then
    (tags.modify segment fun t => { t with size := base - segment }).insert base
      { base := base, size := size, span := t.span, free := false }
  else
    (tags.modify segment fun t => { t with size := size }).modify segment fun t =>
      { t with free := false }

theorem takeTags_eq (t : Segment) : takeTags tags segment t base size =
    if base + size < t.endAddr then
      (cutTags tags segment t base size).insert (base + size)
        { base := base + size, size := t.endAddr - base - size, span := t.span, free := true }
    else cutTags tags segment t base size := rfl

theorem get_cutTags_of_ne {t : Segment} {k : ℕ} (hb : k ≠ base) (hs : k ≠ segment) :
    (cutTags tags segment t base size).get k = tags.get k := by
  unfold cutTags
  split_ifs
  · rw [get_insert, if_neg hb, get_modify, if_neg hs]
  · rw [get_modify, if_neg hs, get_modify, if_neg hs]

theorem get_takeTags {t : Segment} (ht : tags.get segment = some t) (hkey : t.base = segment)
    (hun : t.unlinked = t) (hle : segment ≤ base) (hsize : 0 < size) (k : ℕ) :
    (takeTags tags segment t base size).get k =
      if k = base then some { base := base, size := size, span := t.span, free := false }
      else if k = segment then some { t with size := base - segment }
      else if k = base + size ∧ base + size < t.endAddr then
        some { base := base + size, size := t.endAddr - base - size, span := t.span, free := true }
      else tags.get k := by
  have hlinks : t.previous = none ∧ t.next = none := by
    rw [← hun]
    exact ⟨rfl, rfl⟩
  have hcut : (cutTags tags segment t base size).get k =
      if k = base then some { base := base, size := size, span := t.span, free := false }
      else if k = segment then some { t with size := base - segment } else tags.get k := by
    by_cases hks : k = segment
    · unfold cutTags
      rcases hle.eq_or_lt with rfl | hlt
      · simp [hks, ht, hkey, hlinks.1, hlinks.2]
      · simp [hks, ht, hlt, hlt.ne]
    · by_cases hkb : k = base
      · have hlt : segment < base := by omega
        simp [cutTags, hkb, hlt]
      · rw [get_cutTags_of_ne hkb hks, if_neg hkb, if_neg hks]
  rw [takeTags_eq]
  by_cases hend : base + size < t.endAddr
  · rw [if_pos hend, get_insert, hcut]
    by_cases hk : k = base + size
    · rw [if_pos hk, if_neg (by omega), if_neg (by omega), if_pos ⟨hk, hend⟩]
    · simp only [hk, if_false, false_and]
  · simp only [hend, if_false, hcut, and_false]

theorem tiled_takeTags {v : Vmem} {spans : Index ℕ ℕ} {lists : ℕ → List ℕ} {t : Segment}
    (h : v.Inv spans lists) (ht : v.tags.get segment = some t) (hfree : t.free = true)
    (hle : segment ≤ base) (hsize : 0 < size) (hend : base + size ≤ t.endAddr)
    (hqb : v.quantum ∣ base) (hqs : v.quantum ∣ size) :
    Tiled v.quantum spans.get fun k =>
      ((takeTags v.tags segment t base size).get k).map piece := by
  have hp := piece_of_get ht
  have hlimit : t.endAddr = segment + t.size := by rw [← h.keyed_tags ht]; rfl
  obtain ⟨-, ⟨hqk, hqt⟩, n, hn, hlo, hhi⟩ := h.tag_bounds ht
  have hqe : v.quantum ∣ t.endAddr := hlimit ▸ Nat.dvd_add hqk hqt
  have hun : t.unlinked = t := by
    obtain ⟨u, -, rfl⟩ := h.view.get ht
    rfl
  have hget := get_takeTags ht (h.keyed_tags ht) hun hle hsize
  -- inside the window stand at most the remainder before, the range, and the remainder after
  have hwin : ∀ k p, ((takeTags v.tags segment t base size).get k).map piece = some p →
      segment ≤ k → k < t.endAddr →
      (k = base ∧ p = ⟨size, t.span, false⟩) ∨
      (k = segment ∧ segment < base ∧ p = ⟨base - segment, t.span, true⟩) ∨
      (k = base + size ∧ p = ⟨t.endAddr - base - size, t.span, true⟩) := by
    intro k p hk hsk hke
    rw [hget] at hk
    split_ifs at hk with h1 h2 h3
    · exact .inl ⟨h1, (some.inj hk).symm⟩
    · refine .inr (.inl ⟨h2, by omega, ?_⟩)
      rw [← some.inj hk, piece, hfree]
    · exact .inr (.inr ⟨h3.1, (some.inj hk).symm⟩)
    · obtain ⟨u, hu, -⟩ := map_eq_some_iff.mp hk
      exact absurd (h.only ht hu hsk (hlimit ▸ hke)).1 h2
  have hout : ∀ k, k < segment ∨ t.endAddr ≤ k →
      ((takeTags v.tags segment t base size).get k).map piece =
        (v.tags.get k).map piece := by
    intro k hk
    rw [hget, if_neg (by omega), if_neg (by omega), if_neg (by omega)]
  refine h.tiled_tags.replace hn hlo (hlimit ▸ hhi) hout
    (fun k p hk hlt => h.tiled_tags.apart hk hp hlt)
    (fun k p hk hsk hke => ?_) (fun k p hk hsk hke => ?_) (fun a ha hae => ?_)
    (fun k k' p p' hk hk' hsk hke hlt => ?_) (fun k p p' hk hk' hs hs' hlo' hke hf => ?_)
  · obtain ⟨u, hu, rfl⟩ := map_eq_some_iff.mp hk
    obtain ⟨rfl, rfl⟩ := h.only ht hu hsk (hlimit ▸ hke)
    exact hlimit.ge
  · rcases hwin k p hk hsk hke with ⟨rfl, rfl⟩ | ⟨rfl, hlt, rfl⟩ | ⟨rfl, rfl⟩
    · exact ⟨hsize, ⟨hqb, hqs⟩, rfl, hend⟩
    · refine ⟨by simp only; omega, ⟨hqk, Nat.dvd_sub hqb hqk⟩, rfl, by simp only; omega⟩
    · refine ⟨by simp only; omega, ⟨Nat.dvd_add hqb hqs, ?_⟩, rfl, by simp only; omega⟩
      exact Nat.dvd_sub (Nat.dvd_sub hqe hqb) hqs
  · by_cases hab : a < base
    · refine ⟨segment, ⟨base - segment, t.span, t.free⟩, ?_, le_rfl, ha, by simp only; omega⟩
      rw [hget, if_neg (by omega), if_pos rfl]
      rfl
    · by_cases has : a < base + size
      · refine ⟨base, ⟨size, t.span, false⟩, ?_, hle, by omega, has⟩
        rw [hget, if_pos rfl]
        rfl
      · refine ⟨base + size, ⟨t.endAddr - base - size, t.span, true⟩, ?_, by omega, by omega,
          by simp only; omega⟩
        rw [hget, if_neg (by omega), if_neg (by omega), if_pos ⟨rfl, by omega⟩]
        rfl
  · rcases hwin k p hk hsk (by omega) with ⟨rfl, rfl⟩ | ⟨rfl, h1, rfl⟩ | ⟨rfl, rfl⟩ <;>
      rcases hwin k' p' hk' (by omega) hke with ⟨rfl, rfl⟩ | ⟨rfl, h2, rfl⟩ | ⟨rfl, rfl⟩ <;>
      simp only at hlt ⊢ <;> omega
  · by_cases hks : k < segment
    · -- the neighbour before was not free, since the whole tag was
      have hk0 := (hout k (.inl hks)).symm.trans hk
      have hend0 : k + p.size = segment := le_antisymm (h.tiled_tags.apart hk0 hp hks) hlo'
      have := h.tiled_tags.coalesced hk0 (hend0 ▸ hp) hs hf
      simp [piece, hfree] at this
    · rcases hwin k p hk (by omega) hke with ⟨rfl, rfl⟩ | ⟨rfl, h1, rfl⟩ | ⟨rfl, rfl⟩
      · simp at hf
      · have hkb : k + (base - k) = base := by omega
        simp only [hkb, hget, if_true, map_some, some.injEq] at hk'
        rw [← hk']
        rfl
      · have hke' : base + size + (t.endAddr - base - size) = t.endAddr := by omega
        simp only [hke'] at hk'
        rw [hout _ (.inr le_rfl), hlimit] at hk'
        exact h.tiled_tags.coalesced hp hk' hs'.symm hfree

theorem sum_takeTags {t : Segment} (ht : tags.get segment = some t) (hfree : t.free = true)
    (hle : segment ≤ base) (hsize : 0 < size) (hbase : segment < base → tags.get base = none)
    (htrail : base + size < t.endAddr → tags.get (base + size) = none) :
    ((takeTags tags segment t base size).sum fun _ t => t.charge) =
      (tags.sum fun _ t => t.charge) + size := by
  have hold : (tags.sum fun _ t => t.charge) = (tags.remove segment).sum fun _ t => t.charge := by
    rw [sum_of_get _ ht]
    simp [charge, hfree]
  have hcut : ((cutTags tags segment t base size).sum fun _ t => t.charge) =
      (tags.sum fun _ t => t.charge) + size := by
    unfold cutTags
    by_cases hlt : segment < base
    · rw [if_pos hlt, sum_insert, remove_of_none, sum_modify _ _ ht, hold]
      · simp [charge, hfree]
      · rw [get_modify, if_neg (by omega), hbase hlt]
    · rw [if_neg hlt, sum_modify (v := { t with size := size }), remove_modify, hold]
      · simp [charge]
      · simp [ht]
  rw [takeTags_eq]
  by_cases hend : base + size < t.endAddr
  · rw [if_pos hend, sum_insert, remove_of_none, hcut]
    · simp [charge]
    · rw [get_cutTags_of_ne (by omega) (by omega), htrail hend]
  · rw [if_neg hend, hcut]

end Vmem

namespace VmemM
open Act Vmem
variable {T : Panic → Prop} {E : VmemError → Arena → Prop} {s : Arena} {lists : ℕ → List ℕ}
  {tags : Index ℕ Segment} {quantum total used : ℕ} {t : Segment} {Q : Unit → Arena → Prop}

section
variable {segment : ℕ} {r : Reservation} (hle : segment ≤ r.base) (hsize : 0 < r.size)
  (hend : r.base + r.size ≤ t.endAddr)
include hle hsize hend

theorem wp_take_view (h : s.vmem.View tags lists quantum total used)
    (ht : tags.get segment = some t) (hon : Listed lists segment)
    (honly : ∀ k, tags.get k = none → ¬ Listed lists k)
    (hbase : segment < r.base → tags.get r.base = none ∧ r.start = some r.base)
    (htrail : r.base + r.size < t.endAddr →
      tags.get (r.base + r.size) = none ∧ r.trailing = some (r.base + r.size))
    (hQ : ∀ (w : Vmem) (lists' : ℕ → List ℕ),
      (∀ k, Listed lists' k ↔ (k = segment ∧ segment < r.base) ∨
        (k = r.base + r.size ∧ r.base + r.size < t.endAddr) ∨ (k ≠ segment ∧ Listed lists k)) →
      w.View (takeTags tags segment t r.base r.size) lists' quantum total (used + r.size) →
      Q () { s with vmem := w }) : wp T (take segment r) Q E s := by
  obtain ⟨u, hu, hut⟩ := h.get ht
  have huend : u.endAddr = t.endAddr := by rw [← hut]; rfl
  have huspan : u.span = t.span := by rw [← hut]; rfl
  obtain ⟨base, size, start, trailing⟩ := r
  simp only at hle hsize hend hbase htrail hQ
  simp only [take, wp_bind, wp_tag hu, huend, huspan]
  refine wp_popFree_view h ht hon fun w₁ lists₁ hl₁ hv₁ => ?_
  have hoff₁ : ¬ Listed lists₁ segment := fun hm => ((hl₁ segment).mp hm).1 rfl
  -- what is left to do once the range itself stands
  have hrest : ∀ (w₂ : Vmem) (lists₂ : ℕ → List ℕ),
      (∀ k, Listed lists₂ k ↔ (k = segment ∧ segment < base) ∨ (k ≠ segment ∧ Listed lists k)) →
      w₂.View (cutTags tags segment t base size) lists₂ quantum total used →
      wp T (do
        if base + size < t.endAddr then
          insertTag (base + size)
            { base := base + size, size := t.endAddr - base - size, span := t.span, free := true }
            trailing
          pushFree (base + size)
        modifyVmem fun v => { v with used := v.used + size }) Q E { s with vmem := w₂ } := by
    intro w₂ lists₂ hl₂ hv₂
    rw [takeTags_eq] at hQ
    by_cases hlt : base + size < t.endAddr
    · have hoff₂ : ¬ Listed lists₂ (base + size) := by
        rw [hl₂]
        rintro (⟨hk, -⟩ | ⟨-, hk⟩)
        · omega
        · exact honly _ (htrail hlt).1 hk
      simp only [hlt, if_true, wp_bind, (htrail hlt).2]
      have hnew : (cutTags tags segment t base size).get (base + size) = none := by
        rw [get_cutTags_of_ne (by omega) (by omega), (htrail hlt).1]
      refine wp_insertTag_view hv₂ hnew rfl fun w₃ hv₃ => ?_
      refine wp_pushFree_view hv₃ (by rw [get_insert, if_pos rfl]) hoff₂
        fun w₄ hv₄ => ?_
      refine hQ _ _ (fun k => ?_) ⟨?_, hv₄.linked.congr (fun _ _ => rfl) rfl rfl, hv₄.quantum_eq,
        hv₄.total_eq, congrArg (· + size) hv₄.used_eq⟩
      · rw [listed_push, hl₂]
        tauto
      · rw [if_pos hlt]
        exact hv₄.tags_eq
    · simp only [hlt, if_false]
      refine hQ _ lists₂ (fun k => ?_) ⟨?_, hv₂.linked.congr (fun _ _ => rfl) rfl rfl,
        hv₂.quantum_eq, hv₂.total_eq, congrArg (· + size) hv₂.used_eq⟩
      · rw [hl₂]
        simp only [hlt, and_false, false_or]
      · rw [if_neg hlt]
        exact hv₂.tags_eq
  by_cases hlt : segment < base
  · simp only [hlt, if_true, wp_bind, (hbase hlt).2]
    refine wp_updateTag_view hv₁ ht hoff₁ (fun _ => rfl) fun w₂ hv₂ => ?_
    refine wp_pushFree_view hv₂ (by rw [get_modify, if_pos rfl, ht]; rfl)
      hoff₁ fun w₃ hv₃ => ?_
    refine wp_insertTag_view hv₃ ?_ rfl fun w₄ hv₄ => ?_
    · rw [get_modify, if_neg (by omega), (hbase hlt).1]
    refine hrest w₄ _ (fun k => ?_) (by rwa [cutTags, if_pos hlt])
    rw [listed_push, hl₁]
    simp only [hlt, and_true]
  · simp only [hlt, if_false, wp_bind]
    refine wp_updateTag_view hv₁ ht hoff₁ (fun _ => rfl) fun w₂ hv₂ => ?_
    refine wp_updateTag_view hv₂ (by rw [get_modify, if_pos rfl, ht]; rfl) hoff₁
      (fun _ => rfl) fun w₃ hv₃ => ?_
    refine hrest w₃ lists₁ (fun k => ?_) (by rwa [cutTags, if_neg hlt])
    rw [hl₁]
    simp only [hlt, and_false, false_or]

theorem wp_take {spans : Index ℕ ℕ} (h : s.vmem.Inv spans lists)
    (ht : s.vmem.segments.get segment = some t) (hfree : t.free = true)
    (hqb : s.vmem.quantum ∣ r.base) (hqs : s.vmem.quantum ∣ r.size)
    (hstart : segment < r.base → r.start = some r.base)
    (htrail : r.base + r.size < t.endAddr → r.trailing = some (r.base + r.size))
    (hQ : ∀ (w : Vmem) (lists' : ℕ → List ℕ), w.Inv spans lists' →
      w.tags = takeTags s.vmem.tags segment t.unlinked r.base r.size →
      w.quantum = s.vmem.quantum → w.total = s.vmem.total → w.used = s.vmem.used + r.size →
      Q () { s with vmem := w }) : wp T (take segment r) Q E s := by
  have htag := get_tags_of ht
  have hkey : t.unlinked.base = segment := h.keyed segment t ht
  have hinside : ∀ k, segment < k → k < t.endAddr → s.vmem.tags.get k = none :=
    fun k => h.get_none_of_inside ht
  have hlisted := fun k => h.get_tags_free (k := k)
  refine wp_take_view (t := t.unlinked) hle hsize hend h.view htag ((hlisted _).mpr ⟨_, htag, hfree⟩)
    (fun k hk hm => ?_)
    (fun hlt => ⟨hinside _ hlt (by omega), hstart hlt⟩)
    (fun hlt => ⟨hinside _ (by omega) hlt, htrail hlt⟩) fun w lists' hl' hv => ?_
  · obtain ⟨u, hu, -⟩ := (hlisted k).mp hm
    rw [hk] at hu
    cases hu
  have hget := get_takeTags htag hkey rfl hle hsize
  refine hQ w lists' (hv.inv h.quantum (fun k u hu => ?_) ?_ (fun k => ?_) h.bounded h.total ?_)
    hv.tags_eq hv.quantum_eq hv.total_eq hv.used_eq
  · rw [hget] at hu
    split_ifs at hu with h1 h2 h3
    · rw [← some.inj hu, h1]
    · rw [← some.inj hu, h2]
      exact hkey
    · rw [← some.inj hu, h3.1]
    · exact h.keyed_tags hu
  · exact tiled_takeTags h htag hfree hle hsize hend hqb hqs
  · rw [hl', hget]
    split_ifs with h1 h2 h3
    · have hb : ¬ Listed lists k ∨ k = segment := by
        by_cases hks : k = segment
        · exact .inr hks
        · rw [hlisted, hinside k (by omega) (by omega)]
          simp
      simp only [some.injEq]
      constructor
      · rintro (⟨hk, hlt⟩ | ⟨hk, -⟩ | ⟨hk, hm⟩)
        · omega
        · omega
        · exact absurd hm (hb.resolve_right hk)
      · rintro ⟨u, rfl, hu⟩
        cases hu
    · exact ⟨fun _ => ⟨_, rfl, hfree⟩, fun _ => .inl ⟨h2, by omega⟩⟩
    · exact ⟨fun _ => ⟨_, rfl, rfl⟩, fun _ => .inr (.inl h3)⟩
    · rw [← hlisted]
      constructor
      · rintro (⟨hk, -⟩ | hk | ⟨-, hm⟩)
        · exact absurd hk h2
        · exact absurd hk h3
        · exact hm
      · exact fun hm => .inr (.inr ⟨h2, hm⟩)
  · rw [sum_takeTags htag hfree hle hsize (fun hlt => hinside _ hlt (by omega))
      (fun hlt => hinside _ (by omega) hlt), h.sum_tags]

end

end VmemM
end Roanix.Mem
