import Roanix.Mem.Amap.Adjust

/-! The references alive on an anonymous map, and the map's account of how many there are and how many
cover each slot. -/
namespace Roanix.Mem
open Lib Act List

def MapRef.Covers (r : MapRef) (i : ℕ) : Prop := r.offset ≤ i ∧ i < r.offset + r.length

instance (r : MapRef) (i : ℕ) : Decidable (r.Covers i) := inferInstanceAs (Decidable (_ ∧ _))

theorem MapRef.not_covers {r : MapRef} {i : ℕ} (h : i < r.offset ∨ r.offset + r.length ≤ i) :
    ¬r.Covers i := by
  rintro ⟨h₁, h₂⟩
  omega

def coverage (live : List MapRef) (i : ℕ) : ℕ := live.countP (·.Covers i)

section Coverage
variable {live : List MapRef} {r : MapRef} {i : ℕ}

@[simp] theorem coverage_nil (i : ℕ) : coverage [] i = 0 := rfl

theorem coverage_cons (r : MapRef) (live : List MapRef) (i : ℕ) :
    coverage (r :: live) i = coverage live i + if r.Covers i then 1 else 0 := by
  simp [coverage, countP_cons]

theorem coverage_single (r : MapRef) (i : ℕ) :
    coverage [r] i = if r.Covers i then 1 else 0 := by
  simp [coverage_cons]

theorem coverage_le (live : List MapRef) (i : ℕ) : coverage live i ≤ live.length :=
  countP_le_length

theorem coverage_erase (h : r ∈ live) (i : ℕ) :
    coverage live i = coverage (live.erase r) i + if r.Covers i then 1 else 0 := by
  rw [← coverage_cons]
  exact (perm_cons_erase h).countP_eq _

theorem coverage_pos (h : r ∈ live) (hi : r.Covers i) : 0 < coverage live i :=
  countP_pos_iff.mpr ⟨r, h, by simpa using hi⟩

theorem exists_covers (h : 0 < coverage live i) : ∃ r ∈ live, r.Covers i := by
  obtain ⟨r, hr, hi⟩ := countP_pos_iff.mp h
  exact ⟨r, hr, by simpa using hi⟩

end Coverage

/-- The map accounts for the references alive on it. Counts are kept only after the first
sharing, and not at all when their storage could not be had. -/
structure Amap.Tracks {α : Type} (m : Amap α) (live : List MapRef) : Prop where
  indexed : m.Indexed
  fits : m.nslot ≤ m.capacity
  references : m.references = live.length
  inside : ∀ r ∈ live, r.offset + r.length ≤ m.nslot
  beyond : ∀ i, m.nslot ≤ i → m.slots i = none
  counted : ∀ cells, m.counts = .counts cells → live ≠ [] → Runs cells (coverage live) 0 m.nslot
  sole : m.counts = .unestablished → ∀ r ∈ live, live = [r] ∧ r.offset + r.length = m.nslot
  vacant : m.counts ≠ .disabled ∨ live = [] → ∀ i, coverage live i = 0 → m.slots i = none

namespace AmapM
variable {α : Type} {T : Panic → Prop} {E : Error → AmapCell α → Prop} {s : AmapCell α}
  {live : List MapRef} {r : MapRef}

theorem wp_requestCounts (length : ℕ) {Q : Bool → AmapCell α → Prop}
    (hQ : ∀ granted supply, Q granted { s with supply := supply }) :
    wp T (requestCounts length) Q E s := by
  exact hQ _ _

theorem wp_establish (h : s.amap.Tracks live) (hr : r ∈ live) {Q : Unit → AmapCell α → Prop}
    (hQ : ∀ counts supply, counts ≠ .unestablished →
      Amap.Tracks { s.amap with counts := counts } live →
      Q () { amap := { s.amap with counts := counts }, supply := supply }) :
    wp T (establish r.offset) Q E s := by
  simp only [establish, wp_bind, wp_amap]
  cases hc : s.amap.counts with
  | counts cells | disabled =>
    have := hQ s.amap.counts s.supply (by simp [hc])
    exact this h
  | unestablished =>
    obtain ⟨rfl, hend⟩ := h.sole hc r hr
    have hfits := h.fits
    have hone : s.amap.references = 1 := h.references
    simp only [wp_bind]
    refine wp_requestCounts _ fun granted supply => ?_
    have hvacant := h.vacant (.inl (by simp [hc]))
    cases granted with
    | false =>
      exact hQ .disabled supply (by simp) ⟨⟨h.indexed.dense, h.indexed.inside⟩, hfits,
        h.references, h.inside, h.beyond, (fun _ hcells => by cases hcells), (fun hun => by cases hun),
        fun _ => hvacant⟩
    | true =>
      simp only [if_true, wp_bind]
      rw [wp_writeRun _ (by simpa only using by omega)]
      rw [wp_checkedSub (by omega)]
      rw [wp_writeRun _ (by simpa only using by omega)]
      refine hQ (.counts _) supply (by simp) ⟨⟨h.indexed.dense, h.indexed.inside⟩, hfits,
        h.references, h.inside, h.beyond, fun cells hcells _ => ?_, (fun hun => by cases hun),
        fun _ => hvacant⟩
      obtain rfl := PartialReferences.counts.inj hcells
      have hlow : Runs (setRun (fun _ => 0) 0 (0 : ℕ) r.offset) (coverage [r]) 0 (0 + r.offset) :=
        Runs.snoc _ _ (.nil 0) fun i _ hi => by
          rw [coverage_single, if_neg (MapRef.not_covers (.inl (by omega)))]
      rw [Nat.zero_add] at hlow
      have hall := Runs.snoc 1 (s.amap.nslot - r.offset) hlow fun i hlo hhi => by
        rw [coverage_single, if_pos ⟨hlo, by omega⟩]
      rw [show r.offset + (s.amap.nslot - r.offset) = s.amap.nslot by omega] at hall
      rw [hone]
      exact hall

section
variable (h : s.amap.Tracks live) (hr : r ∈ live)
include h hr

theorem addReference_spec {offset length : ℕ} (hin : offset + length ≤ r.offset + r.length) :
    wp (fun p => p = .amapReferenceOverflow ∧ 2 ^ 31 - 2 ≤ live.length)
      (addReference r.offset offset length)
      (fun _ s' => s'.amap.Tracks (⟨offset, length⟩ :: live) ∧ s'.amap.slots = s.amap.slots)
      (fun _ _ => False) s := by
  have hfits := h.fits
  have hinside := h.inside r hr
  have hrefs := h.references
  have hpos : 0 < live.length := length_pos_of_mem hr
  simp only [addReference, wp_bind, wp_amap]
  rw [wp_check (by omega)]
  refine wp_establish h hr fun counts supply hest htracks => ?_
  by_cases hmax : s.amap.references + 1 < 2 ^ 31 - 1
  swap
  · simp only [check, if_neg hmax, wp_stop]
    exact ⟨trivial, by omega⟩
  rw [wp_check hmax]
  simp only [wp_modifyAmap]
  have hinside' : ∀ q ∈ (⟨offset, length⟩ : MapRef) :: live, q.offset + q.length ≤ s.amap.nslot :=
    forall_mem_cons.mpr ⟨hin.trans hinside, h.inside⟩
  cases counts with
  | unestablished => exact absurd rfl hest
  | disabled =>
    refine ⟨⟨⟨h.indexed.dense, h.indexed.inside⟩, hfits, ?_, hinside', h.beyond, ?_, ?_, ?_⟩, rfl⟩
    · simp [hrefs]
    · exact fun _ hc => by cases hc
    · exact fun hc => by cases hc
    · rintro (hc | hc)
      · exact absurd rfl hc
      · cases hc
  | counts cells =>
    have hcells := htracks.counted cells rfl (ne_nil_of_mem hr)
    have hcons := coverage_cons ⟨offset, length⟩ live
    refine wp_adjust (g := coverage (⟨offset, length⟩ :: live)) (s := ⟨{ s.amap with
        counts := .counts cells, references := s.amap.references + 1 }, supply⟩)
      ⟨h.indexed.dense, h.indexed.inside⟩ hfits rfl (hin.trans hinside) hcells (fun i h₁ h₂ => ?_)
      (fun i hi => ?_) fun cells' used back hind hruns => ?_
    · have hle := coverage_le live i
      rw [hcons, if_pos ⟨h₁, h₂⟩]
      exact ⟨by push_cast; rfl, by simpa only [hrefs] using by omega⟩
    · rw [hcons, if_neg (MapRef.not_covers hi), Nat.add_zero]
    · -- every slot of the range is covered now, so nothing was emptied
      have hkept : released s.amap.slots (coverage (⟨offset, length⟩ :: live)) offset
          (offset + length) = s.amap.slots := by
        funext i
        refine if_neg fun hc => ?_
        rw [hcons, if_pos ⟨hc.1, hc.2.1⟩] at hc
        omega
      simp only [hkept] at hind ⊢
      refine ⟨⟨hind, hfits, by simp [hrefs], hinside', h.beyond, ?_, ?_, ?_⟩, trivial⟩
      · intro c hc _
        obtain rfl := PartialReferences.counts.inj hc
        exact hruns
      · exact fun hc => by cases hc
      · intro _ i hi
        refine htracks.vacant (.inl (by simp)) i ?_
        rw [hcons] at hi
        omega

theorem clipped_spec (offset count : ℕ) :
    wp (fun p => p = .amapReferenceOverflow ∧ 2 ^ 31 - 2 ≤ live.length ∨
        p = .clipOutsideReference ∧
          ¬(r.offset ≤ offset ∧ offset + count ≤ r.offset + r.length))
      (clipped r offset count)
      (fun r' s' => r' = ⟨offset, count⟩ ∧ s'.amap.Tracks (r' :: live) ∧
        s'.amap.slots = s.amap.slots)
      (fun _ _ => False) s := by
  simp only [clipped, wp_bind, wp_pure]
  by_cases hin : r.offset ≤ offset ∧ offset + count ≤ r.offset + r.length
  · rw [wp_check hin]
    exact wp_mono (addReference_spec h hr hin.2) (fun _ hp => .inl hp) (fun _ _ hp => ⟨trivial, hp⟩)
      fun _ _ he => he
  · simp only [check, if_neg hin, wp_stop]
    exact .inr ⟨trivial, hin⟩

theorem drop_spec :
    wp (fun _ => False) (drop r)
      (fun _ s' => s'.amap.Tracks (live.erase r) ∧
        ∀ i, 0 < coverage (live.erase r) i → s'.amap.slots i = s.amap.slots i)
      (fun _ _ => False) s := by
  have hfits := h.fits
  have hrefs := h.references
  have hpos : 0 < live.length := length_pos_of_mem hr
  have hlen := length_erase_of_mem hr
  simp only [drop, wp_bind, wp_amap]
  rw [wp_check (by omega)]
  split_ifs with hone
  · -- the last reference
    have hnil : live.erase r = [] := eq_nil_of_length_eq_zero (by omega)
    simp only [hnil]
    refine wp_wipe (s := ⟨{ s.amap with references := 0 }, s.supply⟩)
      ⟨h.indexed.dense, h.indexed.inside⟩ (by simp) fun used back hind => ?_
    simp only [Nat.zero_add] at hind ⊢
    have hempty : ∀ i, Amap.cleared s.amap.slots 0 s.amap.capacity i = none := by
      intro i
      simp only [Amap.cleared]
      split_ifs with hi
      · rfl
      · by_contra hne
        exact hi ⟨Nat.zero_le i, h.indexed.inside i hne⟩
    refine ⟨⟨hind, hfits, rfl, ?_, fun i _ => hempty i, ?_, ?_, fun _ i _ => hempty i⟩,
      fun i hi => by simp at hi⟩
    · exact fun q hq => by cases hq
    · exact fun _ _ hn => absurd rfl hn
    · exact fun _ q hq => by cases hq
  · have hne : live.erase r ≠ [] := fun hnil => by simp [hnil] at hlen; omega
    have hinside : ∀ q ∈ live.erase r, q.offset + q.length ≤ s.amap.nslot :=
      fun q hq => h.inside q (mem_of_mem_erase hq)
    simp only [wp_bind]
    refine wp_establish h hr fun counts supply hest htracks => ?_
    simp only [wp_modifyAmap]
    cases counts with
    | unestablished => exact absurd rfl hest
    | disabled =>
      refine ⟨⟨⟨h.indexed.dense, h.indexed.inside⟩, hfits, ?_, hinside, h.beyond, ?_, ?_, ?_⟩,
        fun _ _ => rfl⟩
      · simp [hrefs, hlen]
      · exact fun _ hc => by cases hc
      · exact fun hc => by cases hc
      · rintro (hc | hc)
        · exact absurd rfl hc
        · exact absurd hc hne
    | counts cells =>
      have hcells := htracks.counted cells rfl (ne_nil_of_mem hr)
      have herase := coverage_erase hr
      refine wp_adjust (g := coverage (live.erase r)) (s := ⟨{ s.amap with
          counts := .counts cells
          shared := if s.amap.references = 2 then false else s.amap.shared
          references := s.amap.references - 1 }, supply⟩)
        ⟨h.indexed.dense, h.indexed.inside⟩ hfits rfl (h.inside r hr) hcells (fun i h₁ h₂ => ?_)
        (fun i hi => ?_) fun cells' used back hind hruns => ?_
      · have hle := coverage_le (live.erase r) i
        rw [herase i, if_pos ⟨h₁, h₂⟩]
        exact ⟨by push_cast; omega, by simpa only [hrefs] using by omega⟩
      · rw [herase i, if_neg (MapRef.not_covers hi), Nat.add_zero]
      · refine ⟨⟨hind, hfits, by simp [hrefs, hlen], hinside, fun i hi => ?_, ?_, ?_, ?_⟩, ?_⟩
        · exact (if_neg (by have := h.inside r hr; simp only at hi; omega)).trans (h.beyond i hi)
        · intro c hc _
          obtain rfl := PartialReferences.counts.inj hc
          exact hruns
        · exact fun hc => by cases hc
        · intro _ i hi
          simp only [released]
          split_ifs with hrel
          · rfl
          · refine htracks.vacant (.inl (by simp)) i ?_
            rw [herase i, hi, if_neg fun hc => hrel ⟨hc.1, hc.2, hi⟩]
        · intro i hi
          exact if_neg fun hrel => by omega

theorem commit_spec [DecidableEq α] {index : ℕ}
    (hi : r.Covers index) (expected replacement : Option α) (install : Except Error Unit) :
    wp (fun _ => False) (commit index expected replacement install)
      (fun done s' => s'.amap.Tracks live ∧
        s'.amap.slots = match done, replacement with
          | true, some slot => Function.update s.amap.slots index (some slot)
          | _, _ => s.amap.slots)
      (fun _ s' => s' = s) s := by
  have hinside := h.inside r hr
  have hindex : index < s.amap.capacity := by
    have := h.fits
    have := hi.2
    omega
  simp only [commit, wp_bind, wp_amap, wp_ite, wp_pure]
  split_ifs
  · exact ⟨h, trivial⟩
  · exact ⟨h, trivial⟩
  · cases install with
    | error e => rfl
    | ok _ =>
      cases replacement with
      | none => exact ⟨h, rfl⟩
      | some slot =>
        simp only [wp_bind]
        refine wp_insert h.indexed hindex slot fun m hind hm => ?_
        obtain ⟨used, back, rfl⟩ := hm
        refine ⟨⟨hind, h.fits, h.references, h.inside, fun i hn => ?_, h.counted, h.sole,
          fun hc i hz => ?_⟩, rfl⟩
        · have hne : i ≠ index := by
            rintro rfl
            exact absurd hi.2 (not_lt.mpr (hinside.trans hn))
          simp only [Function.update_of_ne hne]
          exact h.beyond i hn
        have hne : i ≠ index := by
          rintro rfl
          exact absurd hz (coverage_pos hr hi).ne'
        simp only [Function.update_of_ne hne]
        exact h.vacant hc i hz

end

end AmapM
end Roanix.Mem
