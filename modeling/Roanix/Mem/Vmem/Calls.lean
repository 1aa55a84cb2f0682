import Roanix.Mem.Vmem.Take
import Roanix.Mem.Vmem.Window
import Roanix.Mem.Vmem.Search

/-! The arena's calls. A returned range is joined with the free tags of its span before and after it.
Each call keeps the invariant when it returns, and the arena when it fails. -/
namespace Roanix.Mem
open Lib

namespace Vmem

variable {v : Vmem} {base n size : ℕ}

def Took (v w : Vmem) (base size : ℕ) : Prop :=
  ∃ segment t, v.segments.get segment = some t ∧ v.Fits segment base size ∧
    w.tags = takeTags v.tags segment t.unlinked base size ∧ w.quantum = v.quantum ∧
    w.total = v.total ∧ w.used = v.used + size

theorem roundSize_spec (hq : IsPowerOfTwo v.quantum) (h : v.roundSize size = .ok n) :
    0 < n ∧ v.quantum ∣ n ∧ size ≤ n := by
  unfold roundSize at h
  split_ifs at h with hz
  cases hc : checkedAdd size (v.quantum - 1) with
  | none => simp [hc] at h
  | some m =>
    obtain ⟨rfl, hlt⟩ := checkedAdd_eq_some.mp hc
    simp only [hc, Except.ok.injEq] at h
    obtain ⟨hd, hge, -⟩ := alignUp_spec hq (by omega) hlt
    rw [h] at hd hge
    exact ⟨by omega, hd, hge⟩

theorem roundSize_error {e : VmemError} (h : v.roundSize size = .error e) : e = .invalid := by
  unfold roundSize at h
  split_ifs at h
  · exact (Except.error.inj h).symm
  · cases hc : checkedAdd size (v.quantum - 1) <;> simp only [hc] at h
    · exact (Except.error.inj h).symm
    · cases h

theorem fixedSize_spec (hq : IsPowerOfTwo v.quantum) (h : v.fixedSize base size = .ok n) :
    0 < n ∧ v.quantum ∣ n ∧ v.quantum ∣ base ∧ base + n < 2 ^ 64 ∧ v.roundSize size = .ok n := by
  unfold fixedSize at h
  cases hr : v.roundSize size with
  | error e => simp [hr] at h
  | ok m =>
    simp only [hr] at h
    split_ifs at h with hc
    obtain rfl : m = n := by simpa using h
    obtain ⟨hpos, hd, -⟩ := roundSize_spec hq hr
    rw [not_or, not_not] at hc
    refine ⟨hpos, hd, hc.1, ?_, rfl⟩
    by_contra hlt
    exact hc.2 (by rw [checkedAdd, if_neg hlt])

theorem fixedSegment_fits {segment : ℕ} (hqb : v.quantum ∣ base)
    (h : VmemM.fixedSegment v base size = some segment) : v.Fits segment base size := by
  obtain ⟨hs, hany⟩ := Option.filter_eq_some_iff.mp h
  obtain ⟨⟨k, t⟩, hf, rfl⟩ := Option.map_eq_some_iff.mp hs
  obtain ⟨hlast, hp⟩ := Option.filter_eq_some_iff.mp hf
  obtain ⟨ht, hk, -⟩ := Index.last_eq_some hlast
  simp only [Bool.and_eq_true] at hp
  simp only [ht, Option.any_some, decide_eq_true_eq] at hany
  exact ⟨t, ht, hp.1, of_decide_eq_true hk, hany, hqb⟩

end Vmem

namespace VmemM
open Act Vmem
variable {T : Panic → Prop} {E : VmemError → Arena → Prop} {s : Arena} {lists : ℕ → List ℕ}
  {spans : Index ℕ ℕ}

section
variable {base : ℕ} {t : Segment} {Q : ℕ → Arena → Prop}

private theorem wp_release {v : Vmem} {lists' : ℕ → List ℕ} {joined : Index ℕ Segment} {lo hi : ℕ}
    (h : v.Inv spans lists) (ht : v.tags.get base = some t) (halloc : t.free = false)
    (hw : Window v spans base t lo hi)
    (hj : Joined v.tags joined lo hi { base := lo, size := hi - lo, span := t.span, free := true })
    (hbefore : ∀ k u, v.tags.get k = some u → k + u.size = lo → u.span = t.span → u.free = false)
    (hafter : ∀ u, v.tags.get hi = some u → u.span = t.span → u.free = false)
    (hlisted : ∀ k, Listed lists' k ↔ ¬ (lo ≤ k ∧ k < hi) ∧ Listed lists k)
    (hv : s.vmem.View joined lists' v.quantum v.total v.used)
    (hQ : ∀ (w : Vmem) (lists' : ℕ → List ℕ), w.Inv spans lists' → w.tags = joined →
      w.quantum = v.quantum → w.total = v.total → w.used + t.size = v.used →
      Q t.size { s with vmem := w }) :
    wp T (do
      pushFree lo
      modifyVmem fun v => { v with used := v.used - t.size }
      return t.size) Q E s := by
  have hmem := hw.base_mem
  obtain ⟨n, hn, -, hhi⟩ := hw.inside
  have hoff : ¬ Listed lists' lo := by
    rw [hlisted]
    omega
  have hcharge : t.size ≤ v.used := by
    have hsum := hj.sum rfl ht halloc hmem hw.others
    have htags := h.sum_tags
    omega
  rw [wp_bind]
  refine wp_pushFree_view hv (by rw [hj lo, if_pos rfl]) hoff fun w hv' => ?_
  simp only [wp_bind, wp_modifyVmem]
  have hused : v.used - t.size + t.size = v.used := Nat.sub_add_cancel hcharge
  have hfinal : ({ w with used := w.used - t.size } : Vmem).View joined
      (Function.update lists' (freelistIndex (hi - lo)) (lo :: lists' (freelistIndex (hi - lo))))
      v.quantum v.total (v.used - t.size) :=
    ⟨hv'.tags_eq, hv'.linked.congr (fun _ _ => rfl) rfl rfl, hv'.quantum_eq, hv'.total_eq,
      congrArg (· - t.size) hv'.used_eq⟩
  refine hQ _ _ (hw.inv h ht halloc hj hbefore hafter (fun k => ?_) hfinal hused) hv'.tags_eq
    hv'.quantum_eq hv'.total_eq ?_
  · rw [listed_push, hlisted]
  · rw [show w.used = v.used from hv'.used_eq]
    exact hused

theorem wp_absorbFollowing {Q : Unit → Arena → Prop} {u : Segment} (h : s.vmem.Inv spans lists)
    (ht : s.vmem.tags.get base = some t) (halloc : t.free = false) (huspan : u.span = t.span)
    (huend : u.endAddr = base + t.size)
    (hQ : ∀ (w : Vmem) (lists' : ℕ → List ℕ) (hi : ℕ), Window s.vmem spans base t base hi →
      (∀ m, s.vmem.tags.get hi = some m → m.span = t.span → m.free = false) →
      Joined s.vmem.tags w.tags base hi { t with size := hi - base } →
      (∀ k, Listed lists' k ↔ ¬ (base ≤ k ∧ k < hi) ∧ Listed lists k) →
      w.View w.tags lists' s.vmem.quantum s.vmem.total s.vmem.used → Q () { s with vmem := w }) :
    wp T (absorbFollowing base u) Q E s := by
  have hwin := h.window ht
  obtain ⟨hpos, -, -⟩ := h.tag_bounds ht
  have hoff := h.not_listed ht halloc
  -- nothing but the tag itself starts in its range, and it is on no list
  have hout : ∀ k, Listed lists k → base ≤ k → ¬ k < base + t.size :=
    fun k hk hlo hhi => hoff (h.listed_start ht hk hlo hhi ▸ hk)
  simp only [absorbFollowing, wp_bind, wp_vmem, huspan, huend]
  rcases h.following ht rfl with ⟨n, m, hf, hm, hfree, hspan⟩ | ⟨hf, hnone⟩
  · obtain ⟨hmpos, -, -⟩ := h.tag_bounds hm
    rw [hf]
    simp only [wp_bind]
    refine wp_popFree_view h.view hm (h.get_tags_free.mpr ⟨m, hm, hfree⟩)
      fun w₁ lists₁ hl₁ hv₁ => ?_
    obtain ⟨n₁, hn₁, hn₁u⟩ := hv₁.get hm
    have hn₁s : n₁.size = m.size := by rw [← hn₁u]; rfl
    rw [wp_tag hn₁]
    refine wp_updateTag_view hv₁ ht (fun hb => hoff ((hl₁ base).mp hb).2) (fun _ => rfl)
      fun w₂ hv₂ => ?_
    have hv₃ := removeTag_view (s := { s with vmem := w₂ }) hv₂
      (fun hb => ((hl₁ (base + t.size)).mp hb).1 rfl)
    refine hQ _ lists₁ _ (hwin.grow_right h hm hfree hspan)
      (fun p hp hs => h.coalesced hm hp (hspan.trans hs.symm) hfree) ?_
      (fun k => ?_) { hv₃ with tags_eq := rfl }
    · have hsz : base + t.size + m.size - base = t.size + n₁.size := by omega
      rw [hv₃.tags_eq, hsz]
      exact (h.joined ht).absorb (by omega) (by omega) (h.joined hm) _
    · rw [hl₁]
      refine and_congr_left fun hb => not_congr ⟨fun he => by omega, fun hk => ?_⟩
      have := hout k hb hk.1
      exact h.listed_start hm hb (by omega) hk.2
  · rw [hf]
    refine hQ s.vmem lists _ hwin hnone ?_ (fun k => ?_) h.view
    · rw [Nat.add_sub_cancel_left]
      exact h.joined ht
    · exact (and_iff_right_of_imp fun hb hk => hout k hb hk.1 hk.2).symm

theorem wp_joinPreceding {v : Vmem} {lists₁ : ℕ → List ℕ} {hi span : ℕ} (h : v.Inv spans lists)
    (ht : v.tags.get base = some t) (htspan : t.span = span) (hw : Window v spans base t base hi)
    (hj : Joined v.tags s.vmem.tags base hi { t with size := hi - base })
    (hl : ∀ k, Listed lists₁ k ↔ ¬ (base ≤ k ∧ k < hi) ∧ Listed lists k)
    (hv : s.vmem.View s.vmem.tags lists₁ v.quantum v.total v.used)
    (hQ : ∀ (lo : ℕ) (w : Vmem) (lists' : ℕ → List ℕ), Window v spans base t lo hi →
      (∀ k u, v.tags.get k = some u → k + u.size = lo → u.span = t.span → u.free = false) →
      Joined v.tags w.tags lo hi { base := lo, size := hi - lo, span := t.span, free := true } →
      (∀ k, Listed lists' k ↔ ¬ (lo ≤ k ∧ k < hi) ∧ Listed lists k) →
      w.View w.tags lists' v.quantum v.total v.used → Q lo { s with vmem := w }) :
    wp T (joinPreceding base span) Q E s := by
  subst htspan
  have hmem := hw.base_mem
  have hbase : s.vmem.tags.get base = some { t with size := hi - base } := by
    rw [hj base, if_pos rfl]
  have hoff : ¬ Listed lists₁ base := fun hb => ((hl base).mp hb).1 hmem
  have hlow : ∀ k < base, s.vmem.tags.get k = v.tags.get k := fun k hk => by
    rw [hj k, if_neg (by omega), if_neg (by omega)]
  obtain ⟨htp, htn⟩ := h.unlinked_tags ht
  have htb := h.keyed_tags ht
  simp only [joinPreceding, wp_bind, wp_vmem]
  rcases h.preceding t.span hlow rfl with
    ⟨k, n, m, hf, hk, hm, hfree, hspan, hend⟩ | ⟨hf, hnone⟩
  · obtain ⟨hmpos, -, c, hc, -, hmend⟩ := h.tag_bounds hm
    have hmk : s.vmem.tags.get k = some m := (hlow k hk).trans hm
    have hon : Listed lists₁ k := (hl k).mpr ⟨by omega, h.get_tags_free.mpr ⟨m, hm, hfree⟩⟩
    obtain ⟨hmp, hmn⟩ := h.unlinked_tags hm
    have hmb := h.keyed_tags hm
    rw [hf]
    simp only [wp_bind]
    refine wp_popFree_view hv hmk hon fun w₁ lists₂ hl₂ hv₁ => ?_
    obtain ⟨b, hb, hbu⟩ := hv₁.get hbase
    have hbs : b.size = hi - base := by
      have : b.unlinked.size = hi - base := by rw [hbu]
      exact this
    rw [wp_tag hb]
    refine wp_updateTag_view hv₁ hmk (fun hq => ((hl₂ k).mp hq).1 rfl) (fun _ => rfl)
      fun w₂ hv₂ => ?_
    have hv₃ := removeTag_view (s := { s with vmem := w₂ }) hv₂
      (fun hq => hoff ((hl₂ base).mp hq).2)
    refine hQ k _ lists₂ (hw.grow_left h hm hend hfree hspan) (fun j p hp hjk hs => ?_)
      ?_ (fun j => ?_) { hv₃ with tags_eq := rfl }
    · -- a free tag before this one would have been joined with it already
      by_contra hne
      have hmfree := h.coalesced hp (hjk ▸ hm) (hs.trans hspan.symm) (by simpa using hne)
      rw [hfree] at hmfree
      cases hmfree
    · have hjoined := h.joined hm
      rw [hend] at hjoined
      have hsz : m.size + b.size = hi - k := by omega
      have hjoin := hj.precede hk hmem.2 hjoined fun u => { u with size := u.size + b.size }
      simp only [hsz, hmb, hspan, hfree, hmp, hmn] at hjoin
      rw [hv₃.tags_eq]
      exact hjoin
    · rw [hl₂, hl]
      constructor
      · rintro ⟨hjk, hjb, hq⟩
        refine ⟨fun hin => hjk ?_, hq⟩
        exact h.listed_start hm hq hin.1 (by omega)
      · rintro ⟨hin, hq⟩
        exact ⟨by omega, by omega, hq⟩
  · rw [hf]
    simp only [wp_bind]
    refine wp_updateTag_view hv hbase hoff (fun _ => rfl) fun w hv' => ?_
    refine hQ base w lists₁ hw hnone (fun j => ?_) hl
      { hv' with tags_eq := rfl }
    rw [hv'.tags_eq, Index.get_modify]
    by_cases hjb : j = base
    · rw [if_pos hjb, if_pos hjb, hjb, hbase, Option.map_some, htb, htp, htn]
    · rw [if_neg hjb, hj j, if_neg hjb, if_neg hjb]

theorem wp_free (h : s.vmem.Inv spans lists) (ht : s.vmem.segments.get base = some t)
    (halloc : t.free = false)
    (hQ : ∀ (w : Vmem) (lists' : ℕ → List ℕ) (lo hi : ℕ), w.Inv spans lists' →
      Window s.vmem spans base t.unlinked lo hi →
      Joined s.vmem.tags w.tags lo hi
        { base := lo, size := hi - lo, span := t.span, free := true } →
      w.quantum = s.vmem.quantum → w.total = s.vmem.total → w.used + t.size = s.vmem.used →
      Q t.size { s with vmem := w }) :
    wp T (free base) Q E s := by
  have htag := get_tags_of ht
  have huend : t.endAddr = base + t.unlinked.size := by
    rw [Segment.endAddr, h.keyed base t ht]
    rfl
  simp only [free, wp_bind, wp_tag ht, wp_check halloc]
  refine wp_absorbFollowing h htag halloc rfl huend fun w₁ lists₁ hi hwin hafter hj₁ hl₁ hv₁ => ?_
  refine wp_joinPreceding h htag rfl hwin hj₁ hl₁ hv₁
    fun lo w₂ lists₂ hwin₂ hbefore hj₂ hl₂ hv₂ => ?_
  have hdone := wp_release (T := T) (E := E) (s := { s with vmem := w₂ }) h htag halloc
    hwin₂ hj₂ hbefore hafter hl₂ hv₂ fun w lists' hinv htags hq htot hused =>
      hQ w lists' lo hi hinv hwin₂ (htags ▸ hj₂) hq htot hused
  simp only [wp_bind] at hdone
  exact hdone

end

variable {align segment size : ℕ} {v : Vmem}

theorem wp_reserveTag {Q : ℕ → Arena → Prop} {base : ℕ}
    (hQ : ∀ supply, Q base { s with supply := supply })
    (hE : ∀ supply, E .noMemory { s with supply := supply }) : wp T (reserveTag base) Q E s := by
  simp only [reserveTag, wp_bind, wp_get]
  split_ifs
  · exact hQ _
  · exact hE _

theorem wp_reserveTagIf {Q : Option ℕ → Arena → Prop} {needed : Prop} [Decidable needed] {base : ℕ}
    (hQ : ∀ node supply, (needed → node = some base) → Q node { s with supply := supply })
    (hE : ∀ supply, E .noMemory { s with supply := supply }) :
    wp T (reserveTagIf needed base) Q E s := by
  unfold reserveTagIf
  split_ifs with hn
  · rw [wp_map]
    exact wp_reserveTag (fun supply => hQ _ supply fun _ => rfl) hE
  · exact hQ none s.supply fun h => absurd h hn

theorem wp_liftResult {α : Type} {Q : α → Arena → Prop} {r : Except VmemError α}
    (hQ : ∀ a, r = .ok a → Q a s) (hE : ∀ e, r = .error e → E e s) : wp T (liftResult r) Q E s := by
  cases r with
  | ok a => exact hQ a rfl
  | error e => exact hE e rfl

theorem wp_prepareTake {Q : Reservation → Arena → Prop} {segment base size : ℕ} {t : Segment}
    (ht : s.vmem.segments.get segment = some t)
    (hQ : ∀ r supply, r.base = base → r.size = size → (base ≠ segment → r.start = some base) →
      (base + size ≠ t.endAddr → r.trailing = some (base + size)) →
      Q r { s with supply := supply })
    (hE : ∀ supply, E .noMemory { s with supply := supply }) :
    wp T (prepareTake segment base size) Q E s := by
  simp only [prepareTake, wp_bind, wp_tag ht]
  refine wp_reserveTagIf (fun start supply hs => ?_) hE
  refine wp_reserveTagIf (fun trailing supply' htr => ?_) hE
  exact hQ _ supply' rfl rfl hs htr

theorem wp_takeFound {Q : ℕ → Arena → Prop} {segment base size : ℕ} (h : s.vmem.Inv spans lists)
    (hfit : s.vmem.Fits segment base size) (hsize : 0 < size) (hqs : s.vmem.quantum ∣ size)
    (hQ : ∀ (w : Vmem) (lists' : ℕ → List ℕ) (supply : Supply), w.Inv spans lists' →
      Took s.vmem w base size → Q base { vmem := w, supply := supply })
    (hE : ∀ supply, E .noMemory { s with supply := supply }) :
    wp T (takeFound base size segment) Q E s := by
  obtain ⟨t, ht, hf, hle, hend, hqb⟩ := id hfit
  simp only [takeFound, wp_bind]
  refine wp_prepareTake ht (fun r supply hrb hrs hstart htrail => ?_) hE
  subst hrb hrs
  refine wp_take hle hsize hend h ht hf hqb hqs
    (fun hlt => hstart (by omega)) (fun hlt => htrail (by omega))
    fun w lists' hinv htags hq htot hused => ?_
  exact hQ w lists' supply hinv ⟨segment, t, ht, hfit, htags, hq, htot, hused⟩

/-- What every allocating call guarantees: on return the range is taken, on failure nothing
but the pools' answers changed. -/
def Allocates (spans : Index ℕ ℕ) (m : VmemM ℕ) (s : Arena) : Prop :=
  wp (fun _ => False) m
    (fun base s' => ∃ size lists', 0 < size ∧ s'.vmem.Inv spans lists' ∧
      Took s.vmem s'.vmem base size)
    (fun _ s' => s'.vmem = s.vmem) s

theorem wp_search {Q : Option (ℕ × ℕ) → Arena → Prop} {min max : ℕ} {best : Bool} {quick : Prop}
    [Decidable quick] (h : s.vmem.Inv spans lists) (ha : IsPowerOfTwo align)
    (hquick : quick → align = s.vmem.quantum ∧ min = 0 ∧ max = u64Max ∧ best = false)
    (hQ : (∀ k, s.vmem.Full size align min max k) → Q none s)
    (hQ' : ∀ k b, Picked s.vmem size align min max best (fun _ => True) k b → Q (some (k, b)) s) :
    wp T (if quick then instantFit size else scanFit size align min max best) Q E s := by
  split_ifs with hc
  · obtain ⟨rfl, rfl, rfl, rfl⟩ := hquick hc
    refine wp_instantFit h (fun k t ht hf hs => hQ' k k ?_) fun hnone => hQ fun k _ b hb => ?_
    · have hend : k + size ≤ t.endAddr := by
        rw [Segment.endAddr, h.keyed k t ht]
        omega
      have hlt := h.size_lt ht
      exact ⟨⟨t, ht, hf, le_rfl, hend, (h.quantum_dvd ht).1, Nat.zero_le _, by unfold u64Max; omega⟩,
        fun h => by cases h⟩
    · obtain ⟨t, ht, hf, -⟩ := id hb
      exact Nat.not_lt.mpr (h.size_le_of_admits ht hb) (hnone k t ht hf)
  · exact wp_scanFit h ha hQ hQ'

theorem dvd_max_quantum (hq : IsPowerOfTwo v.quantum) (ha : IsPowerOfTwo align) :
    IsPowerOfTwo (Nat.max align v.quantum) ∧
      v.quantum ∣ Nat.max align v.quantum :=
  ⟨ha.max hq, hq.dvd_of_le (ha.max hq) (Nat.le_max_right _ _)⟩

theorem xalloc_spec (h : s.vmem.Inv spans lists) (size align min max : ℕ) (fit : VmemFit) :
    wp (fun _ => False) (xalloc size align min max fit)
      (fun base s' => ∃ n segment lists', s.vmem.roundSize size = .ok n ∧ 0 < n ∧
        s'.vmem.Inv spans lists' ∧ Took s.vmem s'.vmem base n ∧
        Picked s.vmem n (Nat.max align s.vmem.quantum) min max (fit = .best) (fun _ => True)
          segment base)
      (fun e s' => s'.vmem = s.vmem ∧ (e = .noSpace → ∃ n, s.vmem.roundSize size = .ok n ∧
        ∀ k, s.vmem.Full n (Nat.max align s.vmem.quantum) min max k)) s := by
  simp only [xalloc, wp_bind]
  refine wp_liftResult (fun n hn => ?_) fun e he => ⟨rfl, ?_⟩
  · obtain ⟨hpos, hqn, -⟩ := roundSize_spec h.quantum hn
    by_cases hbad : align = 0 ∨ ¬ IsPowerOfTwo align ∨ max ≤ min
    · simp only [hbad, if_true, wp_bind, wp_fail]
      exact ⟨trivial, nofun⟩
    simp only [hbad, if_false]
    rw [not_or, not_or, not_not] at hbad
    obtain ⟨ha, hqa⟩ := dvd_max_quantum h.quantum hbad.2.1
    rw [wp_ite_bind]
    refine wp_search h ha (fun hc => ⟨hc.2.2.1, hc.1, hc.2.1, by simp [hc.2.2.2]⟩)
      (fun hfull => ⟨rfl, fun _ => ⟨n, hn, hfull⟩⟩) fun k b hk => ?_
    exact wp_takeFound h (hk.1.fits hqa) hpos hqn
      (fun w lists' supply hinv htook => ⟨n, k, lists', hn, hpos, hinv, htook, hk⟩)
      fun _ => ⟨rfl, nofun⟩
  · rw [roundSize_error he]
    nofun

theorem xalloc_allocates (h : s.vmem.Inv spans lists) (size align min max : ℕ) (fit : VmemFit) :
    Allocates spans (xalloc size align min max fit) s :=
  wp_imp (xalloc_spec h size align min max fit)
    (fun _ _ ⟨n, _, lists', _, hpos, hinv, htook, _⟩ => ⟨n, lists', hpos, hinv, htook⟩)
    fun _ _ he => he.1

theorem fits_random {start : ℕ} {t : Segment} (entropy : ℕ) (ht : v.segments.get segment = some t)
    (hfit : v.Fits segment start size) (hqa : v.quantum ∣ align) :
    v.Fits segment (start + entropy % ((t.endAddr - start - size) / align + 1) * align) size := by
  obtain ⟨u, hu, hf, hle, hend, hqs⟩ := hfit
  obtain rfl : u = t := Option.mem_unique hu ht
  have hmod : entropy % ((u.endAddr - start - size) / align + 1) ≤
      (u.endAddr - start - size) / align := Nat.lt_succ_iff.mp (Nat.mod_lt _ (Nat.succ_pos _))
  have hmul : entropy % ((u.endAddr - start - size) / align + 1) * align ≤
      u.endAddr - start - size :=
    (Nat.mul_le_mul_right _ hmod).trans (Nat.div_mul_le_self _ _)
  exact ⟨u, hu, hf, by omega, by omega, Nat.dvd_add hqs (hqa.mul_left _)⟩

theorem allocRandom_spec (h : s.vmem.Inv spans lists) (size align entropy : ℕ) :
    wp (fun _ => False) (allocRandom size align entropy)
      (fun base s' => ∃ n lists', s.vmem.roundSize size = .ok n ∧ 0 < n ∧
        s'.vmem.Inv spans lists' ∧ Took s.vmem s'.vmem base n)
      (fun _ s' => s'.vmem = s.vmem) s := by
  simp only [allocRandom, wp_bind]
  refine wp_liftResult (fun n hn => ?_) fun _ _ => rfl
  obtain ⟨hpos, hqn, -⟩ := roundSize_spec h.quantum hn
  by_cases hbad : align = 0 ∨ ¬ IsPowerOfTwo align
  · simp only [hbad, if_true, wp_bind, wp_fail]
  simp only [hbad, if_false]
  rw [not_or, not_not] at hbad
  obtain ⟨ha, hqa⟩ := dvd_max_quantum h.quantum hbad.2
  rw [wp_ite_bind]
  refine wp_search h ha (fun hc => ⟨hc, rfl, rfl, rfl⟩) (fun _ => rfl) fun k b hk => ?_
  have hfit := hk.1.fits hqa
  obtain ⟨t, ht, -⟩ := id hfit
  simp only [wp_bind, wp_tag ht]
  exact wp_takeFound h (fits_random entropy ht hfit hqa) hpos hqn
    (fun _ lists' _ hinv htook => ⟨n, lists', hn, hpos, hinv, htook⟩) fun _ => rfl

theorem allocRandom_allocates (h : s.vmem.Inv spans lists) (size align entropy : ℕ) :
    Allocates spans (allocRandom size align entropy) s :=
  wp_imp (allocRandom_spec h size align entropy)
    (fun _ _ ⟨n, lists', _, hout⟩ => ⟨n, lists', hout⟩) fun _ _ he => he

end VmemM
end Roanix.Mem
