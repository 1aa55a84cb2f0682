import Roanix.Lib.Bitmap
import Roanix.Mem.Vmem.Ops

/-! The searches for a free tag. Each reads the lists only, ends within the fuel it is given,
and finds nothing but free tags with room for the request. -/
namespace Roanix.Mem
open Lib List Option

namespace Vmem

variable {t : Segment} {v : Vmem} {k : ℕ} {spans : Index ℕ ℕ} {lists : ℕ → List ℕ}
variable {base l n : ℕ}

def Fits (v : Vmem) (segment base size : ℕ) : Prop :=
  ∃ t, v.segments.get segment = some t ∧ t.free = true ∧ segment ≤ base ∧
    base + size ≤ t.endAddr ∧ v.quantum ∣ base

theorem guaranteedFreelist_le {size : ℕ} (hn : 0 < n)
    (h : guaranteedFreelist size ≤ freelistIndex n) : size ≤ n := by
  have hmax : max n 1 = n := by omega
  have hlog : 2 ^ freelistIndex n ≤ n := by
    rw [freelistIndex, hmax]
    exact Nat.log2_self_le hn.ne'
  by_cases hs : size = 0
  · omega
  have hmaxs : max size 1 = size := by omega
  unfold guaranteedFreelist at h
  split_ifs at h with hp
  · rw [freelistIndex, hmaxs] at h
    calc size = 2 ^ size.log2 := hp.2.symm
      _ ≤ 2 ^ freelistIndex n := Nat.pow_le_pow_right (by norm_num) h
      _ ≤ n := hlog
  · have hlt : size < 2 ^ (freelistIndex size + 1) := by
      rw [freelistIndex, hmaxs]
      exact Nat.lt_log2_self
    calc size ≤ 2 ^ (freelistIndex size + 1) := hlt.le
      _ ≤ 2 ^ freelistIndex n := Nat.pow_le_pow_right (by norm_num) h
      _ ≤ n := hlog

theorem trailingZeros_spec {x : BitVec 64} (h : x ≠ 0) :
    trailingZeros x < 64 ∧ x.getLsbD (trailingZeros x) = true := by
  unfold trailingZeros
  cases hf : (range 64).find? fun l => x.getLsbD l with
  | none =>
    refine absurd (BitVec.eq_of_getLsbD_eq fun i hi => ?_) h
    have := find?_eq_none.mp hf i (mem_range.mpr hi)
    simpa using this
  | some l =>
    have hp := find?_some hf
    exact ⟨mem_range.mp (mem_of_find?_eq_some hf), hp⟩

theorem placement_spec {size align min max : ℕ} (ha : IsPowerOfTwo align)
    (h : placement t size align min max = some base) :
    t.base ≤ base ∧ min ≤ base ∧ base + size ≤ t.endAddr ∧ base + size ≤ max ∧ align ∣ base := by
  simp only [placement, bind_eq_bind, bind_eq_some_iff] at h
  obtain ⟨raised, hr, limit, hl, hif⟩ := h
  obtain ⟨rfl, hlt⟩ := checkedAdd_eq_some.mp hr
  obtain ⟨rfl, -⟩ := checkedAdd_eq_some.mp hl
  split_ifs at hif with hfit
  have hb := some.inj hif
  obtain ⟨hd, hge, -⟩ := alignUp_spec ha (by omega) hlt
  rw [hb] at hd hge hfit
  have h1 : t.base ≤ Nat.max t.base min := Nat.le_max_left _ _
  have h2 : min ≤ Nat.max t.base min := Nat.le_max_right _ _
  exact ⟨h1.trans hge, h2.trans hge, hfit.1, hfit.2, hd⟩

/-- `[base, base + size)` lies in the free tag at `segment` and in the bounds, at a multiple of the
alignment. -/
def Admits (v : Vmem) (size align min max segment base : ℕ) : Prop :=
  ∃ t, v.segments.get segment = some t ∧ t.free = true ∧ segment ≤ base ∧
    base + size ≤ t.endAddr ∧ align ∣ base ∧ min ≤ base ∧ base + size ≤ max

/-- A tag has no room for a request whose alignment is a word. -/
def Full (v : Vmem) (size align min max segment : ℕ) : Prop :=
  align < 2 ^ 64 → ∀ base, ¬ v.Admits size align min max segment base

theorem Admits.fits {size align min max segment : ℕ} (h : v.Admits size align min max segment base)
    (hq : v.quantum ∣ align) : v.Fits segment base size := by
  obtain ⟨t, ht, hf, hle, hend, ha, -⟩ := h
  exact ⟨t, ht, hf, hle, hend, hq.trans ha⟩

theorem placement_eq_none {size align min max : ℕ} (ha : IsPowerOfTwo align) (hw : align < 2 ^ 64)
    (hend : t.endAddr < 2 ^ 64) (h : placement t size align min max = none) (hbase : t.base ≤ base)
    (hfit : base + size ≤ t.endAddr) (hdvd : align ∣ base) (hmin : min ≤ base) :
    max < base + size := by
  by_contra hmax
  have hlow : Nat.max t.base min ≤ base := Nat.max_le.mpr ⟨hbase, hmin⟩
  -- the last multiple below the end of the words is a whole unit away from it
  have hroom : base + align ≤ 2 ^ 64 := by
    obtain ⟨c, hc⟩ := Nat.dvd_sub ((ha.dvd_of_le (by decide) hw.le)) hdvd
    have hpos : 0 < 2 ^ 64 - base := by omega
    have hle : align ≤ 2 ^ 64 - base := Nat.le_of_dvd hpos ⟨c, hc⟩
    omega
  have hraised : Nat.max t.base min + (align - 1) < 2 ^ 64 := by omega
  obtain ⟨hd, -, hlt⟩ := alignUp_spec ha hw.le hraised
  have hle : alignDown (Nat.max t.base min + (align - 1)) align ≤ base := by
    obtain ⟨c, hc⟩ := hd
    obtain ⟨d, rfl⟩ := hdvd
    rw [hc] at hlt ⊢
    have : align * c < align * (d + 1) := by rw [Nat.mul_succ]; omega
    exact Nat.mul_le_mul_left _ (Nat.lt_succ_iff.mp (Nat.lt_of_mul_lt_mul_left this))
  simp only [placement, checkedAdd, if_pos hraised, bind_eq_bind, bind_some] at h
  rw [if_pos (by omega), bind_some, if_pos (by omega)] at h
  cases h

theorem Inv.mem_list {spans : Index ℕ ℕ} {lists : ℕ → List ℕ} (h : v.Inv spans lists)
    (hk : k ∈ lists l) :
    ∃ t, v.segments.get k = some t ∧ t.base = k ∧ t.free = true ∧ freelistIndex t.size = l := by
  obtain ⟨t, ht, hf⟩ := (h.listed k).mp ⟨l, hk⟩
  exact ⟨t, ht, h.keyed k t ht, hf, (h.linked.list_eq ht hk).symm⟩

theorem Inv.length_list_le (h : v.Inv spans lists) (l : ℕ) :
    (lists l).length ≤ v.segments.entries.length := by
  have hsub : lists l ⊆ v.segments.entries.map Prod.fst := by
    intro k hk
    obtain ⟨t, ht, -⟩ := h.mem_list hk
    exact mem_map.mpr ⟨(k, t), Index.get_eq_some.mp ht, rfl⟩
  have := (subperm_of_subset (h.linked.nodup l) hsub).length_le
  rwa [length_map] at this

theorem Inv.quantum_dvd {spans : Index ℕ ℕ} {lists : ℕ → List ℕ} (h : v.Inv spans lists)
    (ht : v.segments.get k = some t) : v.quantum ∣ k ∧ 0 < t.size :=
  have hp := pieces_eq_some.mpr ⟨t, ht, rfl⟩
  ⟨(h.tiled.aligned hp).1, h.tiled.pos hp⟩

theorem freelistIndex_mono {m : ℕ} (h : m ≤ n) : freelistIndex m ≤ freelistIndex n := by
  rw [freelistIndex, freelistIndex, Nat.log2_eq_log_two, Nat.log2_eq_log_two]
  exact Nat.log_mono_right (max_le_max_right 1 h)

theorem Inv.size_le_of_admits (h : v.Inv spans lists) {size align min max : ℕ}
    (ht : v.segments.get k = some t) (ha : v.Admits size align min max k base) : size ≤ t.size := by
  obtain ⟨u, hu, -, hle, hend, -⟩ := ha
  obtain rfl : u = t := mem_unique hu ht
  rw [Segment.endAddr, h.keyed k u ht] at hend
  omega

theorem Inv.mem_scanned (h : v.Inv spans lists) {size : ℕ} (ht : v.segments.get k = some t)
    (hf : t.free = true) (hs : size ≤ t.size) : k ∈ lists (freelistIndex t.size) ∧
      freelistIndex size ≤ freelistIndex t.size ∧ freelistIndex t.size < freelistCount := by
  obtain ⟨l, hl⟩ := (h.listed k).mpr ⟨t, ht, hf⟩
  have hlt : t.size < 2 ^ 64 := (Nat.le_add_left _ _).trans_lt (h.size_lt ht)
  exact ⟨h.linked.list_eq ht hl ▸ hl, freelistIndex_mono hs, freelistIndex_lt hlt⟩

end Vmem

namespace VmemM
open Act Vmem
variable {T : Panic → Prop} {E : VmemError → Arena → Prop} {s : Arena} {lists : ℕ → List ℕ}
  {spans : Index ℕ ℕ} {size align min max : ℕ} {best : Bool}
variable {Q : Option (ℕ × ℕ) → Arena → Prop} {done xs : List ℕ} {fuel l : ℕ} {p : Link}
  {chosen : Option (ℕ × ℕ × ℕ)}

section
variable (h : s.vmem.Inv spans lists)
  (hQ' : ∀ k t, s.vmem.segments.get k = some t → t.free = true → size ≤ t.size → Q (some (k, k)) s)
include h hQ'

theorem wp_walkFit (hQ : (∀ k ∈ xs, ∀ t, s.vmem.segments.get k = some t → t.size < size) → Q none s)
    (hc : Chain s.vmem.previousOf s.vmem.nextOf p xs) (hx : ∀ k ∈ xs, k ∈ lists l)
    (hfuel : xs.length ≤ fuel) : wp T (walkFit size fuel xs.head?) Q E s := by
  induction xs generalizing p fuel with
  | nil =>
    rw [head?_nil, walkFit]
    exact hQ nofun
  | cons k xs ih =>
    obtain ⟨t, ht, hb, hf, -⟩ := h.mem_list (hx k (by simp))
    obtain ⟨fuel, rfl⟩ : ∃ n, fuel = n + 1 := ⟨fuel - 1, by simp at hfuel; omega⟩
    simp only [head?_cons, walkFit, wp_bind, wp_link ht]
    by_cases hs : size ≤ t.size
    · simp only [hs, hb]
      exact hQ' k t ht hf hs
    · have hn : t.next = xs.head? := by
        have := hc.2.1
        rwa [nextOf, ht] at this
      simp only [hs, hn]
      refine ih (fun hall => hQ ?_) hc.2.2 (fun j hj => hx j (by simp [hj])) (by simpa using hfuel)
      rw [forall_mem_cons]
      refine ⟨fun u hu => ?_, hall⟩
      obtain rfl := mem_unique hu ht
      omega

theorem wp_instantFit
    (hQ : (∀ k t, s.vmem.segments.get k = some t → t.free = true → t.size < size) → Q none s) :
    wp T (instantFit size) Q E s := by
  have hwalk : (∀ l, guaranteedFreelist size ≤ l → l < freelistCount → lists l = []) →
      wp T (walkFit size s.vmem.segments.entries.length
        (s.vmem.freelists (freelistIndex size))) Q E s := by
    intro hempty
    rw [h.linked.head]
    refine wp_walkFit h hQ' (fun hall => hQ fun k t ht hf => ?_) (h.linked.chain _) (fun k hk => hk)
      (h.length_list_le _)
    by_contra hs
    obtain ⟨hmem, hle, hlt⟩ := h.mem_scanned ht hf (Nat.le_of_not_lt hs)
    obtain heq | hlow := hle.eq_or_lt
    · exact hs (hall k (heq ▸ hmem) t ht)
    · have hg : guaranteedFreelist size ≤ freelistIndex t.size := by
        unfold guaranteedFreelist
        split_ifs <;> omega
      rw [hempty _ hg hlt] at hmem
      cases hmem
  simp only [instantFit, wp_bind, wp_vmem]
  by_cases hg : guaranteedFreelist size < freelistCount
  · simp only [hg, if_true]
    by_cases hz : s.vmem.freelistMap &&& (BitVec.allOnes 64 <<< guaranteedFreelist size) = 0
    · simp only [hz, ne_eq, not_true_eq_false]
      refine hwalk fun l hl hlt => ?_
      have h64 : l < 64 := hlt
      have hbit : (s.vmem.freelistMap &&& (BitVec.allOnes 64 <<< guaranteedFreelist size)).getLsbD l =
          false := by
        rw [hz]
        exact BitVec.getLsbD_zero
      rw [BitVec.getLsbD_and, Bitmap.getLsbD_allOnes_shiftLeft h64, decide_eq_true hl, h.linked.bit l h64] at hbit
      simpa using hbit
    · -- the lowest set bit is of a list whose tags are all large enough
      obtain ⟨hl, hbit⟩ := trailingZeros_spec hz
      simp only [hz, ne_eq, not_false_eq_true, if_true]
      generalize trailingZeros _ = l at hl hbit ⊢
      rw [BitVec.getLsbD_and, Bool.and_eq_true, Bitmap.getLsbD_allOnes_shiftLeft hl, decide_eq_true_eq] at hbit
      have hsome := hbit.1
      rw [h.linked.bit l hl, isSome_iff_exists] at hsome
      obtain ⟨k, hk⟩ := hsome
      obtain ⟨t, ht, hb, hf, hti⟩ := h.mem_list (mem_of_mem_head? hk)
      have hsize := guaranteedFreelist_le (h.quantum_dvd ht).2 (hti ▸ hbit.2)
      rw [h.linked.head, hk]
      simp only [wp_bind, wp_link ht, hb]
      exact hQ' k t ht hf hsize
  · simp only [hg, if_false, ne_eq]
    exact hwalk fun l hl hlt => absurd (hl.trans_lt hlt) hg

end

/-- What a walk holds after the tags of `done`: none of them has room, or one that has, with its
size, which is the smallest in a search for the best. -/
def Chosen (v : Vmem) (size align min max : ℕ) (best : Bool) (done : List ℕ) :
    Option (ℕ × ℕ × ℕ) → Prop
  | none => ∀ k ∈ done, v.Full size align min max k
  | some (segment, base, n) => v.Admits size align min max segment base ∧
      segment ∈ done ∧ (∃ t, v.segments.get segment = some t ∧ t.size = n) ∧
      (best = true → ∀ k ∈ done, ∀ u, v.segments.get k = some u → ¬ v.Full size align min max k →
        n ≤ u.size)

theorem Chosen.skip {v : Vmem} {k : ℕ} (h : Chosen v size align min max best done chosen)
    (hk : v.Full size align min max k ∨ ∃ c, chosen = some c ∧
      ∀ u, v.segments.get k = some u → c.2.2 ≤ u.size) :
    Chosen v size align min max best (done ++ [k]) chosen := by
  cases chosen with
  | none =>
    have hfull := hk.resolve_right nofun
    exact forall_mem_append.mpr ⟨h, forall_mem_singleton.mpr hfull⟩
  | some c =>
    obtain ⟨hadmits, hmem, hsize, hmin⟩ := h
    refine ⟨hadmits, mem_append_left _ hmem, hsize, fun hbest => ?_⟩
    refine forall_mem_append.mpr ⟨hmin hbest, forall_mem_singleton.mpr fun u hu hroom => ?_⟩
    obtain ⟨c', hc', hle⟩ := hk.resolve_left hroom
    cases hc'
    exact hle u hu

theorem Chosen.take {v : Vmem} {k base : ℕ} {t : Segment}
    (h : Chosen v size align min max best done chosen) (ht : v.segments.get k = some t)
    (hadmits : v.Admits size align min max k base) (hsmall : chosen.all fun c => t.size < c.2.2) :
    Chosen v size align min max best (done ++ [k]) (some (k, base, t.size)) := by
  refine ⟨hadmits, mem_append_right _ (mem_singleton_self k), ⟨t, ht, rfl⟩,
    fun hbest => forall_mem_append.mpr ⟨?_, ?_⟩⟩
  · intro j hj u hu hroom
    cases chosen with
    | none => exact absurd (h j hj) hroom
    | some c =>
      have hlt : t.size < c.2.2 := of_decide_eq_true hsmall
      exact hlt.le.trans (h.2.2.2 hbest j hj u hu hroom)
  · refine forall_mem_singleton.mpr fun u hu _ => ?_
    exact (congrArg Segment.size (mem_unique ht hu)).le

section
variable (h : s.vmem.Inv spans lists) (ha : IsPowerOfTwo align)
include h ha

theorem wp_walkScan {Q : Option (ℕ × ℕ × ℕ) → Arena → Prop}
    (hQ : ∀ chosen, Chosen s.vmem size align min max best (done ++ xs) chosen → Q chosen s)
    (hc : Chain s.vmem.previousOf s.vmem.nextOf p xs) (hx : ∀ k ∈ xs, k ∈ lists l)
    (hchosen : Chosen s.vmem size align min max best done chosen) (hfuel : xs.length ≤ fuel) :
    wp T (walkScan size align min max best fuel xs.head? chosen) Q E s := by
  induction xs generalizing p fuel chosen done with
  | nil =>
    rw [head?_nil, walkScan]
    exact hQ chosen (by rwa [append_nil])
  | cons k xs ih =>
    obtain ⟨t, ht, hb, hf, -⟩ := h.mem_list (hx k (by simp))
    obtain ⟨fuel, rfl⟩ : ∃ n, fuel = n + 1 := ⟨fuel - 1, by simp at hfuel; omega⟩
    have hn : t.next = xs.head? := by
      have := hc.2.1
      rwa [nextOf, ht] at this
    have hnext : ∀ chosen, Chosen s.vmem size align min max best (done ++ [k]) chosen →
        wp T (walkScan size align min max best fuel t.next chosen) Q E s := by
      intro chosen hch
      rw [hn]
      refine ih (fun c hc' => hQ c ?_) hc.2.2 (fun j hj => hx j (by simp [hj])) hch
        (by simpa using hfuel)
      rwa [append_assoc] at hc'
    simp only [head?_cons, walkScan, wp_bind, wp_link ht]
    cases hpl : placement t size align min max with
    | none =>
      refine hnext chosen (hchosen.skip (.inl fun hw base => ?_))
      rintro ⟨u, hu, -, hle, hend, hdvd, hmin, hmax⟩
      obtain rfl := mem_unique hu ht
      exact Nat.not_lt.mpr hmax
        (placement_eq_none ha hw (h.size_lt ht) hpl (hb.trans_le hle) hend hdvd hmin)
    | some base =>
      have hadmits : s.vmem.Admits size align min max k base := by
        obtain ⟨hle, hmin, hend, hmax, hdvd⟩ := placement_spec ha hpl
        exact ⟨t, ht, hf, hb ▸ hle, hend, hdvd, hmin, hmax⟩
      rw [hb]
      cases best with
      | false =>
        exact hQ _ ⟨hadmits, by simp, ⟨t, ht, rfl⟩, nofun⟩
      | true =>
        simp only [Bool.not_true, Bool.false_eq_true, if_false]
        split_ifs with hsmall
        · exact hnext _ (hchosen.take ht hadmits hsmall)
        · refine hnext chosen (hchosen.skip (.inr ?_))
          cases chosen with
          | none => exact absurd rfl hsmall
          | some c =>
            refine ⟨c, rfl, fun u hu => ?_⟩
            obtain rfl := mem_unique hu ht
            simpa using hsmall

/-- A tag with room; in a search for the best it is the smallest of those that are asked about. -/
def Picked (v : Vmem) (size align min max : ℕ) (best : Bool) (among : ℕ → Prop)
    (segment base : ℕ) : Prop :=
  v.Admits size align min max segment base ∧
    (best = true → ∀ t, v.segments.get segment = some t → ∀ k u, among k →
      v.segments.get k = some u → ¬ v.Full size align min max k → t.size ≤ u.size)

theorem wp_scanLists {ls : List ℕ} (hls : ls.Pairwise (· < ·))
    (hQ : (∀ l ∈ ls, ∀ k ∈ lists l, s.vmem.Full size align min max k) → Q none s)
    (hQ' : ∀ k b, Picked s.vmem size align min max best (fun j => ∃ l ∈ ls, j ∈ lists l) k b →
      Q (some (k, b)) s) : wp T (scanLists size align min max best ls) Q E s := by
  induction ls with
  | nil =>
    exact hQ nofun
  | cons l ls ih =>
    obtain ⟨hlow, hls⟩ := pairwise_cons.mp hls
    simp only [scanLists, wp_bind, wp_vmem, h.linked.head]
    refine wp_walkScan h ha (fun chosen hch => ?_) (h.linked.chain l) (fun k hk => hk)
      (show Chosen s.vmem size align min max best [] none from nofun) (h.length_list_le l)
    cases chosen with
    | none =>
      refine ih hls (fun hfull => hQ (forall_mem_cons.mpr ⟨hch, hfull⟩)) fun k b hk => ?_
      refine hQ' k b ⟨hk.1, fun hbest t ht j u hj hu hroom => hk.2 hbest t ht j u ?_ hu hroom⟩
      obtain ⟨m, hm, hj⟩ := hj
      obtain rfl | hm := mem_cons.mp hm
      · exact absurd (hch j hj) hroom
      · exact ⟨m, hm, hj⟩
    | some c =>
      obtain ⟨hadmits, hmem, ⟨t, ht, hsize⟩, hmin⟩ := hch
      refine hQ' c.1 c.2.1 ⟨hadmits, fun hbest t' ht' j u hj hu hroom => ?_⟩
      obtain rfl := mem_unique ht' ht
      obtain ⟨m, hm, hj⟩ := hj
      obtain rfl | hm := mem_cons.mp hm
      · exact hsize.trans_le (hmin hbest j hj u hu hroom)
      · -- the tags of a later list are of a larger size class
        have hclass := h.linked.list_eq ht hmem
        have hclass' := h.linked.list_eq hu hj
        by_contra hlt
        have hle := freelistIndex_mono (Nat.le_of_not_le hlt)
        have := hlow m hm
        omega

theorem wp_scanFit (hQ : (∀ k, s.vmem.Full size align min max k) → Q none s)
    (hQ' : ∀ k b, Picked s.vmem size align min max best (fun _ => True) k b → Q (some (k, b)) s) :
    wp T (scanFit size align min max best) Q E s := by
  have hvisited : ∀ k, ¬ s.vmem.Full size align min max k → ∃ l ∈ range' (freelistIndex size)
      (freelistCount - freelistIndex size), k ∈ lists l := by
    intro k hroom
    obtain ⟨-, b, hb⟩ : align < 2 ^ 64 ∧ ∃ b, s.vmem.Admits size align min max k b := by
      simpa [Full] using hroom
    obtain ⟨t, ht, hf, -⟩ := id hb
    obtain ⟨hmem, hle, hlt⟩ := h.mem_scanned ht hf (h.size_le_of_admits ht hb)
    exact ⟨_, mem_range'_1.mpr ⟨hle, by omega⟩, hmem⟩
  refine wp_scanLists h ha pairwise_lt_range' (fun hfull => hQ fun k => ?_) fun k b hk => ?_
  · by_contra hroom
    obtain ⟨l, hl, hmem⟩ := hvisited k hroom
    exact hroom (hfull l hl k hmem)
  · refine hQ' k b ⟨hk.1, fun hbest t ht j u _ hu hroom => ?_⟩
    exact hk.2 hbest t ht j u (hvisited j hroom) hu hroom

end

end VmemM
end Roanix.Mem
