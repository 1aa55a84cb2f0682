import Mathlib.Data.Fintype.Prod
import Roanix.Mem.Slab.View

/-! Every slot is in one place, and each pool has reserved its spare pages and keeps one empty slab of
a class. -/
namespace Roanix.Mem.Slab
open Lib Function View List

namespace View
variable {κ : Type}

def IsSlot (v : View κ) (slot : Slot) : Prop :=
  v.live slot.1 = true ∧ slot.2 < capacity (v.cls slot.1)

instance (v : View κ) (slot : Slot) : Decidable (v.IsSlot slot) := inferInstanceAs (Decidable (_ ∧ _))

def freeSlots (v : View κ) (p : ℕ) : List ℕ := if v.live p then v.free p else []

variable [Fintype κ]

def places (v : View κ) (slot : Slot) : ℕ :=
  v.held.count slot + (v.returning.map Prod.fst).count slot + spread v.magazine slot +
    (v.freeSlots slot.1).count slot.2

end View

variable {κ : Type} [Fintype κ] {v v' : View κ} {p i : ℕ} {c : SizeClass} {slot : Slot}

structure Slots (v : View κ) : Prop where
  once : ∀ slot, v.places slot = if v.IsSlot slot then 1 else 0
  cached : ∀ k, ∀ slot ∈ v.magazine k, v.cls slot.1 = k.2
  returning : ∀ r ∈ v.returning, v.cls r.1.1 = r.2
  count : ∀ p, v.live p = true → v.freeCount p = (v.free p).length

attribute [local simp] View.grow View.release View.take View.setHeld View.give View.IsSlot
  View.places View.freeSlots

section Slots

theorem Slots.isSlot (h : Slots v) (hpos : 0 < v.places slot) : v.IsSlot slot := by
  by_contra hn
  rw [h.once, if_neg hn] at hpos
  exact absurd hpos (lt_irrefl 0)

theorem Slots.le_one (h : Slots v) (slot : Slot) : v.places slot ≤ 1 := by
  rw [h.once]
  split_ifs <;> omega

theorem Slots.isSlot_of_returning (h : Slots v) {r : Slot × SizeClass} (hr : r ∈ v.returning) :
    v.IsSlot r.1 := by
  refine h.isSlot ?_
  have := count_pos_iff.mpr (mem_map_of_mem (f := Prod.fst) hr)
  unfold View.places
  omega

theorem Slots.isSlot_of_cached (h : Slots v) {k : κ × SizeClass} (hs : slot ∈ v.magazine k) :
    v.IsSlot slot := by
  refine h.isSlot ?_
  have hle : _ ≤ spread v.magazine slot := le_weight (·.count slot) v.magazine k
  have := hle.trans_lt' (count_pos_iff.mpr hs)
  unfold View.places
  omega

theorem places_of_live (hp : v.live p = true) (i : ℕ) :
    v.places (p, i) = v.held.count (p, i) + (v.returning.map Prod.fst).count (p, i) +
      spread v.magazine (p, i) + (v.free p).count i := by
  unfold View.places View.freeSlots
  rw [if_pos hp]

section
variable (h : Slots v)
include h

theorem Slots.notMem_free (hr : ((p, i), c) ∈ v.returning) : i ∉ v.free p := by
  intro hi
  have hlive : v.live p = true := (h.isSlot_of_returning hr).1
  have hplace : 0 < (v.returning.map Prod.fst).count (p, i) :=
    count_pos_iff.mpr (mem_map_of_mem hr)
  have hfree := count_pos_iff.mpr hi
  have hone := h.le_one (p, i)
  rw [places_of_live hlive] at hone
  omega

section
variable (hp : v.live p = true)
include hp

theorem Slots.free_nodup : (v.free p).Nodup := by
  refine nodup_iff_count_le_one.mpr fun i => ?_
  have := h.le_one (p, i)
  rw [places_of_live hp] at this
  omega

theorem Slots.free_subset :
    v.free p ⊆ List.range (capacity (v.cls p)) := by
  intro i hi
  have := count_pos_iff.mpr hi
  have hplaces : 0 < v.places (p, i) := by
    rw [places_of_live hp]
    omega
  exact mem_range.mpr (h.isSlot hplaces).2

theorem Slots.length_le :
    (v.free p).length ≤ capacity (v.cls p) := by
  have hlen := (h.free_nodup hp).length_le_of_subset (h.free_subset hp)
  rw [length_range] at hlen
  exact hlen

theorem Slots.length_lt (hi : i < capacity (v.cls p))
    (hfree : i ∉ v.free p) : (v.free p).length < capacity (v.cls p) := by
  have hnodup : (i :: v.free p).Nodup := nodup_cons.mpr ⟨hfree, h.free_nodup hp⟩
  have hlen := hnodup.length_le_of_subset
    (cons_subset.mpr ⟨mem_range.mpr hi, h.free_subset hp⟩)
  rw [length_range] at hlen
  exact hlen

theorem Slots.all_free
    (hlen : (v.free p).length = capacity (v.cls p)) (hi : i < capacity (v.cls p)) :
    i ∈ v.free p := by
  by_contra hfree
  exact absurd hlen (h.length_lt hp hi hfree).ne

end

end

end Slots

theorem Slots.move (h : Slots v) (hlive : v'.live = v.live) (hcls : v'.cls = v.cls)
    (hfree : v'.free = v.free) (hcount : v'.freeCount = v.freeCount)
    (hplaces : ∀ slot, v'.held.count slot + (v'.returning.map Prod.fst).count slot +
        spread v'.magazine slot =
      v.held.count slot + (v.returning.map Prod.fst).count slot + spread v.magazine slot)
    (hcached : ∀ k, ∀ slot ∈ v'.magazine k, v.cls slot.1 = k.2)
    (hreturning : ∀ r ∈ v'.returning, v.cls r.1.1 = r.2) : Slots v' where
  once slot := by
    have hslots : v'.freeSlots = v.freeSlots := by
      unfold View.freeSlots
      rw [hlive, hfree]
    have hslot : v'.IsSlot slot ↔ v.IsSlot slot := by
      unfold View.IsSlot
      rw [hlive, hcls]
    have := h.once slot
    unfold View.places at this ⊢
    rw [hplaces, hslots, this]
    exact if_congr hslot.symm rfl rfl
  cached := by
    rw [hcls]
    exact hcached
  returning := by
    rw [hcls]
    exact hreturning
  count := by
    rw [hlive, hfree, hcount]
    exact h.count

theorem Slots.take {free : List ℕ} (h : Slots v) (hp : v.live p = true)
    (hf : v.free p = i :: free) : Slots ((v.take p free).setHeld ((p, i) :: v.held)) where
  once := by
    rintro ⟨q, j⟩
    refine Eq.trans ?_ (h.once (q, j))
    unfold View.places View.freeSlots
    obtain rfl | hq := eq_or_ne q p
    · simp only [View.take, setHeld, Function.update_self, hp, if_true, hf, count_cons,
        beq_iff_eq, Prod.mk.injEq, true_and]
      omega
    · simp [hq, Ne.symm hq]
  cached := h.cached
  returning := h.returning
  count q hq := by
    obtain rfl | hne := eq_or_ne q p
    · simp [h.count q hp, hf]
    · simpa [hne] using h.count q hq

theorem Slots.give (h : Slots v) (hr : ((p, i), c) ∈ v.returning) :
    Slots { v.give p i with returning := v.returning.erase ((p, i), c) } where
  once := by
    have hp : v.live p = true := (h.isSlot_of_returning hr).1
    have hcount : ∀ slot, (v.returning.map Prod.fst).count slot =
        ((p, i) :: (v.returning.erase ((p, i), c)).map Prod.fst).count slot := fun slot =>
      ((perm_cons_erase hr).map Prod.fst).count_eq slot
    rintro ⟨q, j⟩
    refine Eq.trans ?_ (h.once (q, j))
    unfold View.places View.freeSlots
    rw [hcount]
    obtain rfl | hq := eq_or_ne q p
    · simp only [give, Function.update_self, hp, if_true, count_cons,
        beq_iff_eq, Prod.mk.injEq, true_and]
      omega
    · simp [hq, Ne.symm hq]
  cached := h.cached
  returning r hr' := h.returning r (mem_of_mem_erase hr')
  count q hq := by
    obtain rfl | hne := eq_or_ne q p
    · simp [h.count q hq]
    · simpa [hne] using h.count q hq

theorem Slots.release (h : Slots v) (hp : v.live p = true)
    (hlen : (v.free p).length = capacity (v.cls p)) : Slots (v.release p) where
  once := by
    rintro ⟨q, j⟩
    have honce := h.once (q, j)
    obtain rfl | hq := eq_or_ne q p
    · have hfree : j < capacity (v.cls q) → 0 < (v.free q).count j := fun hj =>
        count_pos_iff.mpr (h.all_free hp hlen hj)
      have hslot : ¬ (v.release q).IsSlot (q, j) := fun hs => by
        simp at hs
      rw [if_neg hslot]
      rw [places_of_live hp] at honce
      have : (v.release q).places (q, j) = v.held.count (q, j) +
          (v.returning.map Prod.fst).count (q, j) + spread v.magazine (q, j) := by
        simp
      split_ifs at honce with hs
      · have := hfree hs.2
        omega
      · omega
    · refine Eq.trans ?_ (honce.trans (if_congr ?_ rfl rfl))
      · simp [hq]
      · simp [hq]
  cached := h.cached
  returning := h.returning
  count q hq := by
    obtain rfl | hne := eq_or_ne q p
    · simp at hq
    · refine h.count q ?_
      simpa [hne] using hq

theorem Slots.grow [DecidableEq κ] {cpu : κ} (h : Slots v) (hp : v.live (v.nextPage cpu) = false) :
    Slots (v.grow cpu c) := by
  have hne : ∀ {slot}, v.IsSlot slot → slot.1 ≠ v.nextPage cpu := by
    intro slot hs he
    rw [View.IsSlot, he, hp] at hs
    exact Bool.false_ne_true hs.1
  refine ⟨?_, fun k slot hs => ?_, fun r hr => ?_, fun q hq => ?_⟩
  · rintro ⟨q, j⟩
    have honce := h.once (q, j)
    obtain rfl | hq := eq_or_ne q (v.nextPage cpu)
    · have hslot : ¬ v.IsSlot (v.nextPage cpu, j) := fun hs => hne hs rfl
      rw [if_neg hslot] at honce
      simp only [View.places] at honce
      simp only [View.places, View.freeSlots, View.grow, View.IsSlot, Function.update_self, if_true,
        count_range, true_and]
      omega
    · refine Eq.trans ?_ (honce.trans (if_congr ?_ rfl rfl))
      · simp [hq]
      · simp [hq]
  · simpa [hne (h.isSlot_of_cached hs)] using h.cached k slot hs
  · simpa [hne (h.isSlot_of_returning hr)] using h.returning r hr
  · obtain rfl | hq' := eq_or_ne q (v.nextPage cpu)
    · simp
    · have hlive : v.live q = true := by simpa [hq'] using hq
      simpa [hq'] using h.count q hlive

namespace View
variable {κ : Type}

def Spare (v : View κ) (cpu : κ) (p : ℕ) : Prop :=
  v.nextPage cpu ≤ p ∧ p < v.nextPage cpu + v.sparePages cpu

def Of (v : View κ) (k : κ × SizeClass) (p : ℕ) : Prop :=
  v.live p = true ∧ (v.owner p, v.cls p) = k

def Full (v : View κ) (p : ℕ) : Prop := v.freeCount p = capacity (v.cls p)

instance (v : View κ) (p : ℕ) : Decidable (v.Full p) := inferInstanceAs (Decidable (_ = _))

end View

variable {κ : Type} {v : View κ} {p q i : ℕ} {cpu : κ} {k : κ × SizeClass} {fresh : Option ℕ}
  {free : List ℕ}

structure Pages (v : View κ) : Prop where
  busy : ∀ p, v.live p = true → v.pages p = .busy
  spare : ∀ cpu p, v.Spare cpu p → v.pages p = .busy ∧ v.live p = false
  apart : ∀ cpu cpu' p, v.Spare cpu p → v.Spare cpu' p → cpu = cpu'

/-- The cache of a class has its empty slab, if it is not one that is only now made. -/
def Empties (fresh : Option ℕ) (v : View κ) : Prop :=
  ∀ k p, v.empty k = some p ↔ v.Of k p ∧ v.Full p ∧ fresh ≠ some p

attribute [local simp] View.setEmpty View.release View.give View.Spare View.grow

section Pages

theorem Pages.release (h : Pages v) (hp : v.live p = true) : Pages (v.release p) where
  busy q hq := by
    obtain rfl | hne := eq_or_ne q p
    · simp at hq
    · simp only [View.release, update_of_ne hne] at hq ⊢
      exact h.busy q hq
  spare cpu q hq := by
    have hne : q ≠ p := by
      rintro rfl
      exact absurd hp (by simp [(h.spare cpu q hq).2])
    simp only [View.release, update_of_ne hne]
    exact h.spare cpu q hq
  apart := h.apart

theorem Pages.setPage {kind : PageKind} (h : Pages v) (hp : v.pages p ≠ .busy) :
    Pages { v with pages := update v.pages p kind } where
  busy q hq := by
    have hne : q ≠ p := ne_of_apply_ne v.pages (by rw [h.busy q hq]; exact hp.symm)
    exact (update_of_ne hne _ _).trans (h.busy q hq)
  spare cpu q hq := by
    obtain ⟨hbusy, hlive⟩ := h.spare cpu q hq
    have hne : q ≠ p := ne_of_apply_ne v.pages (by rw [hbusy]; exact hp.symm)
    exact ⟨(update_of_ne hne _ _).trans hbusy, hlive⟩
  apart := h.apart

variable [DecidableEq κ]

theorem spare_grow {c : SizeClass} (hs : 0 < v.sparePages cpu) {cpu' : κ} :
    (v.grow cpu c).Spare cpu' p ↔ v.Spare cpu' p ∧ (cpu' = cpu → p ≠ v.nextPage cpu) := by
  obtain rfl | hne := eq_or_ne cpu' cpu
  · simp only [View.Spare, View.grow, update_self, true_implies]
    omega
  · simp [hne]

theorem Pages.grow {c : SizeClass} (h : Pages v) (hs : 0 < v.sparePages cpu) :
    Pages (v.grow cpu c) where
  busy q hq := by
    obtain rfl | hne := eq_or_ne q (v.nextPage cpu)
    · exact (h.spare cpu _ ⟨le_rfl, by omega⟩).1
    · refine h.busy q ?_
      simpa [hne] using hq
  spare cpu' q hq := by
    obtain ⟨hspare, hfirst⟩ := (spare_grow hs).mp hq
    -- the page now in use was reserved by this pool alone
    have hne : q ≠ v.nextPage cpu := by
      intro he
      refine hfirst (h.apart cpu' cpu q hspare ?_) he
      rw [he]
      exact ⟨le_rfl, by omega⟩
    simp only [View.grow, update_of_ne hne]
    exact h.spare cpu' q hspare
  apart cpu₁ cpu₂ q h₁ h₂ := h.apart cpu₁ cpu₂ q ((spare_grow hs).mp h₁).1 ((spare_grow hs).mp h₂).1

theorem spare_reserve {start count : ℕ} {cpu' : κ} :
    (v.reserve cpu start count).Spare cpu' p ↔
      if cpu' = cpu then start ≤ p ∧ p < start + count else v.Spare cpu' p := by
  obtain rfl | hne := eq_or_ne cpu' cpu
  · simp [reserve]
  · simp [reserve, hne]

theorem Pages.reserve {start count : ℕ} (h : Pages v)
    (hf : ∀ i, start ≤ i → i < start + count → v.pages i = .free) :
    Pages (v.reserve cpu start count) where
  busy q hq := by
    refine ite_eq_left_iff.mpr fun _ => h.busy q hq
  spare cpu' q hq := by
    rw [spare_reserve] at hq
    split_ifs at hq with hcpu
    · refine ⟨if_pos hq, Bool.eq_false_iff.mpr fun hlive => ?_⟩
      have := h.busy q hlive
      rw [hf q hq.1 hq.2] at this
      cases this
    · exact ⟨ite_eq_left_iff.mpr fun _ => (h.spare cpu' q hq).1, (h.spare cpu' q hq).2⟩
  apart cpu₁ cpu₂ q h₁ h₂ := by
    -- no pool had reserved a page that was free
    have hnot : ∀ cpu', start ≤ q ∧ q < start + count → ¬ v.Spare cpu' q := by
      intro cpu' hq hspare
      have := (h.spare cpu' q hspare).1
      rw [hf q hq.1 hq.2] at this
      cases this
    rw [spare_reserve] at h₁ h₂
    split_ifs at h₁ h₂ with e₁ e₂ e₂
    · rw [e₁, e₂]
    · exact absurd h₂ (hnot _ h₁)
    · exact absurd h₁ (hnot _ h₂)
    · exact h.apart cpu₁ cpu₂ q h₁ h₂

theorem spare_trimSpare {cpu' : κ} :
    (v.trimSpare cpu).Spare cpu' p ↔ cpu' ≠ cpu ∧ v.Spare cpu' p := by
  obtain rfl | hne := eq_or_ne cpu' cpu
  · simp only [View.Spare, trimSpare, update_self, ne_eq, not_true, false_and, iff_false]
    omega
  · simp [trimSpare, hne]

theorem Pages.trimSpare (h : Pages v) : Pages (v.trimSpare cpu) where
  busy q hq := by
    refine (if_neg fun hspare => ?_).trans (h.busy q hq)
    have hlive : v.live q = true := hq
    rw [(h.spare cpu q hspare).2] at hlive
    cases hlive
  spare cpu' q hq := by
    obtain ⟨hne, hspare⟩ := spare_trimSpare.mp hq
    exact ⟨(if_neg fun hcpu => hne (h.apart cpu' cpu q hspare hcpu)).trans (h.spare cpu' q hspare).1,
      (h.spare cpu' q hspare).2⟩
  apart cpu₁ cpu₂ q h₁ h₂ := h.apart cpu₁ cpu₂ q (spare_trimSpare.mp h₁).2 (spare_trimSpare.mp h₂).2

end Pages

section Empties

theorem Empties.frame {v' : View κ} {fresh' : Option ℕ} (h : Empties fresh v)
    (hother : ∀ q, q ≠ p → v'.live q = v.live q ∧ v'.owner q = v.owner q ∧ v'.cls q = v.cls q ∧
      v'.freeCount q = v.freeCount q ∧ (fresh' ≠ some q ↔ fresh ≠ some q))
    (hempty : ∀ k q, q ≠ p → (v'.empty k = some q ↔ v.empty k = some q))
    (hp : ∀ k, v'.empty k = some p ↔ v'.Of k p ∧ v'.Full p ∧ fresh' ≠ some p) :
    Empties fresh' v' := by
  intro k q
  obtain rfl | hq := eq_or_ne q p
  · exact hp k
  · obtain ⟨hlive, howner, hcls, hcount, hfresh⟩ := hother q hq
    unfold View.Of View.Full
    rw [hempty k q hq, hlive, howner, hcls, hcount, hfresh]
    exact h k q

theorem Empties.not_empty (h : Empties fresh v) (hp : ¬ v.Full p) : v.empty k ≠ some p :=
  fun he => hp ((h k p).mp he).2.1

theorem Empties.give (h : Empties none v) (hp : ¬ v.Full p) (hp' : ¬ (v.give p i).Full p) :
    Empties none (v.give p i) := by
  refine h.frame (p := p) (fun q hq => ?_) (fun _ _ _ => Iff.rfl) (fun k => ?_)
  · simp [hq]
  · exact iff_of_false (h.not_empty hp) fun hfull => hp' hfull.2.1

theorem Empties.release (h : Empties none v) (hp : ¬ v.Full p) :
    Empties none ((v.give p i).release p) := by
  refine h.frame (p := p) (fun q hq => ?_) (fun _ _ _ => Iff.rfl) (fun k => ?_)
  · simp [hq]
  · refine iff_of_false (h.not_empty hp) fun hof => ?_
    simp [View.Of] at hof

variable [DecidableEq κ]

theorem Empties.grow {c : SizeClass} (h : Empties none v) (hp : v.live (v.nextPage cpu) = false) :
    Empties (some (v.nextPage cpu)) (v.grow cpu c) := by
  refine h.frame (p := v.nextPage cpu) (fun q hq => ?_) (fun _ _ _ => Iff.rfl) (fun k => ?_)
  · simp [hq, Ne.symm hq]
  · refine iff_of_false (fun he => ?_) fun hfresh => hfresh.2.2 rfl
    have hlive := ((h k _).mp he).1.1
    rw [hp] at hlive
    cases hlive

theorem Empties.take (h : Empties fresh v) (hfresh : fresh = none ∨ fresh = some p)
    (hp : v.Of k p) (hp' : ¬ (v.take p free).Full p) :
    Empties none (if v.Full p ∧ v.empty k = some p then (v.take p free).setEmpty k none
      else v.take p free) := by
  have hother : ∀ q, q ≠ p → (v.take p free).freeCount q = v.freeCount q ∧
      ((none : Option ℕ) ≠ some q ↔ fresh ≠ some q) := by
    intro q hq
    refine ⟨update_of_ne hq _ _, iff_of_true (by simp) ?_⟩
    obtain rfl | rfl := hfresh
    · simp
    · simpa using hq.symm
  split_ifs with hfull
  · refine h.frame (fun q hq => ⟨rfl, rfl, rfl, hother q hq⟩) (fun k' q hq => ?_)
      (fun k' => iff_of_false ?_ fun hf => hp' hf.2.1)
    · obtain rfl | hk := eq_or_ne k' k
      · simp [hfull.2, Ne.symm hq]
      · simp [View.take, hk]
    · obtain rfl | hk := eq_or_ne k' k
      · simp
      · intro he
        have he' : v.empty k' = some p := by simpa [View.take, hk] using he
        exact hk (((h k' p).mp he').1.2.symm.trans hp.2)
  · refine h.frame (fun q hq => ⟨rfl, rfl, rfl, hother q hq⟩) (fun _ _ _ => Iff.rfl)
      (fun k' => iff_of_false (fun he => ?_) fun hf => hp' hf.2.1)
    obtain ⟨hof, hf, -⟩ := (h k' p).mp he
    obtain rfl : k' = k := hof.2.symm.trans hp.2
    exact hfull ⟨hf, he⟩

theorem Empties.keep (h : Empties none v) (hp : v.Of k p) (hfull : (v.give p i).Full p)
    (hk : v.empty k = none ∨ v.empty k = some p) :
    Empties none ((v.give p i).setEmpty k (some p)) := by
  refine h.frame (p := p) (fun q hq => ?_) (fun k' q hq => ?_) (fun k' => ?_)
  · simp [hq]
  · obtain rfl | hk' := eq_or_ne k' k
    · have hne : v.empty k' ≠ some q := by
        obtain hn | hs := hk
        · simp [hn]
        · simp [hs, Ne.symm hq]
      simpa [Ne.symm hq] using hne
    · simp [hk']
  · obtain rfl | hk' := eq_or_ne k' k
    · exact iff_of_true (update_self ..) ⟨hp, hfull, by simp⟩
    · have hne : v.empty k' ≠ some p := fun he => hk' (((h k' p).mp he).1.2.symm.trans hp.2)
      refine iff_of_false ?_ fun hof => hk' (hof.1.2.symm.trans hp.2)
      simpa [hk'] using hne

theorem Empties.trimEmpty (h : Empties none v) (hp : v.empty k = some p) :
    Empties none ((v.setEmpty k none).release p) := by
  have hof := ((h k p).mp hp).1
  refine h.frame (p := p) (fun q hq => ?_) (fun k' q hq => ?_) (fun k' => ?_)
  · simp [hq]
  · obtain rfl | hk := eq_or_ne k' k
    · simp [hp, Ne.symm hq]
    · simp [hk]
  · refine iff_of_false (fun he => ?_) fun hof => ?_
    · obtain rfl | hk := eq_or_ne k' k
      · simp at he
      · have he' : v.empty k' = some p := by simpa [hk] using he
        exact hk (((h k' p).mp he').1.2.symm.trans hof.2)
    · simp [View.Of] at hof

end Empties
end Roanix.Mem.Slab
