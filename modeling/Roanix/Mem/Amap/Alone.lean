import Roanix.Mem.Amap.Live

/-! The only reference of an anonymous map: how its range grows into slots that are counted already,
and how the map moves to the end of its arrays to make room below. -/
namespace Roanix.Mem
open Lib Act Function

def shiftUp {α : Type} (slots : ℕ → Option α) (shift : ℕ) : ℕ → Option α :=
  fun i => if shift ≤ i then slots (i - shift) else none

theorem shiftUp_zero {α : Type} (slots : ℕ → Option α) : shiftUp slots 0 = slots := by
  funext i
  simp [shiftUp]

/-- Only one reference is alive, and nothing is kept outside its range. -/
structure Amap.Alone {α : Type} (m : Amap α) (r : MapRef) : Prop extends m.Tracks [r] where
  outside : ∀ i, ¬r.Covers i → m.slots i = none

structure Grew {α : Type} (m : Amap α) (r : MapRef) (added : ℕ) (backwards : Bool) (r' : MapRef)
    (m' : Amap α) : Prop where
  alone : m'.Alone r'
  length : r'.length = r.length + added
  moved : ∃ shift, m'.slots = shiftUp m.slots shift ∧
    r'.offset + (if backwards then added else 0) = r.offset + shift

/-- What an extended reference sees: its old slots, after the slots added in front, and nothing
in the added ones. -/
structure Extended {α : Type} (slots : ℕ → Option α) (r : MapRef) (added : ℕ) (backwards : Bool)
    (r' : MapRef) (slots' : ℕ → Option α) : Prop where
  length : r'.length = r.length + added
  kept : ∀ i < r.length,
    slots' (r'.offset + (if backwards then added else 0) + i) = slots (r.offset + i)
  added : ∀ i < added,
    slots' (r'.offset + (if backwards then 0 else r.length) + i) = none

namespace Amap
variable {α : Type} {m m' : Amap α} {r r' : MapRef}

theorem Alone.of_counts (hind : m.Indexed) (hfits : m.nslot ≤ m.capacity) (hrefs : m.references = 1)
    (hend : r.offset + r.length ≤ m.nslot)
    (hcounted : ∀ cells, m.counts = .counts cells → Runs cells (coverage [r]) 0 m.nslot)
    (hsole : m.counts = .unestablished → r.offset + r.length = m.nslot)
    (hout : ∀ i, ¬r.Covers i → m.slots i = none) : m.Alone r where
  indexed := hind
  fits := hfits
  references := hrefs
  inside := by simpa using hend
  beyond i hi := hout i (MapRef.not_covers (.inr (hend.trans hi)))
  counted cells hc _ := hcounted cells hc
  sole hc := by simpa using hsole hc
  vacant _ i hi := hout i fun hcov => absurd hi (coverage_pos (by simp) hcov).ne'
  outside := hout

theorem Alone.end_le (h : m.Alone r) : r.offset + r.length ≤ m.nslot := h.inside r (by simp)

theorem Alone.ends (h : m.Alone r) (hc : m.counts = .unestablished) :
    r.offset + r.length = m.nslot := (h.sole hc r (by simp)).2

theorem Alone.outside_shiftUp (h : m.Alone r) {added shift : ℕ} {backwards : Bool}
    (hlen : r'.length = r.length + added)
    (hoff : r'.offset + (if backwards then added else 0) = r.offset + shift) (i : ℕ)
    (hi : ¬r'.Covers i) : shiftUp m.slots shift i = none := by
  unfold shiftUp
  split_ifs with hle
  · refine h.outside _ fun ⟨h₁, h₂⟩ => hi ⟨?_, ?_⟩ <;> split_ifs at hoff <;> omega
  · rfl

end Amap

theorem Grew.extended {α : Type} {m m' : Amap α} {r r' : MapRef} {added : ℕ} {backwards : Bool}
    (hm : m.Alone r) (h : Grew m r added backwards r' m') :
    Extended m.slots r added backwards r' m'.slots := by
  obtain ⟨-, hlen, shift, hslots, hoff⟩ := h
  rw [hslots]
  refine ⟨hlen, fun i hi => ?_, fun i hi => ?_⟩
  · unfold shiftUp
    rw [if_pos (by omega)]
    congr 1
    omega
  · unfold shiftUp
    split_ifs at hoff ⊢ with hb hle hle
    · exact hm.outside _ (MapRef.not_covers (.inl (by omega)))
    · rfl
    · exact hm.outside _ (MapRef.not_covers (.inr (by omega)))
    · rfl

namespace AmapM
variable {α : Type} {T : Panic → Prop} {E : Error → AmapCell α → Prop} {s : AmapCell α}
  {r : MapRef}

section
variable {Q : Unit → AmapCell α → Prop}

theorem wp_resetSingleCoverage (hcap : s.amap.nslot ≤ s.amap.capacity)
    (hend : r.offset + r.length ≤ s.amap.nslot)
    (hQ : ∀ counts, (∀ cells, counts = .counts cells → Runs cells (coverage [r]) 0 s.amap.nslot) →
      Q () { s with amap := { s.amap with counts := counts } }) :
    wp T (resetSingleCoverage r.offset r.length) Q E s := by
  simp only [resetSingleCoverage, wp_bind, wp_amap]
  cases hc : s.amap.counts with
  | unestablished | disabled => exact hQ s.amap.counts (by simp [hc])
  | counts cells =>
    simp only [wp_bind]
    rw [wp_writeRun _ (by omega), wp_writeRun _ (by omega), wp_checkedSub₂ hend,
      wp_writeRun _ (by omega)]
    refine hQ _ fun cells' hcells => ?_
    obtain rfl := PartialReferences.counts.inj hcells
    have h₁ : Runs (setRun cells 0 (0 : ℕ) r.offset) (coverage [r]) 0 (0 + r.offset) :=
      Runs.snoc _ _ (.nil 0) fun i _ hi => by
        rw [coverage_single, if_neg (MapRef.not_covers (.inl (by omega)))]
    rw [Nat.zero_add] at h₁
    have h₂ := Runs.snoc 1 r.length h₁ fun i hlo hhi => by
      rw [coverage_single, if_pos ⟨hlo, hhi⟩]
    have h₃ := Runs.snoc 0 (s.amap.nslot - r.offset - r.length) h₂
      fun i hlo _ => by rw [coverage_single, if_neg (MapRef.not_covers (.inr hlo))]
    rw [show r.offset + r.length + (s.amap.nslot - r.offset - r.length) = s.amap.nslot by omega]
      at h₃
    exact h₃

theorem wp_wipeUncovered (h : s.amap.Tracks [r])
    (hQ : ∀ m : Amap α, m.Alone r → m.nslot = s.amap.nslot → m.capacity = s.amap.capacity →
      (∀ i, r.Covers i → m.slots i = s.amap.slots i) → Q () { s with amap := m }) :
    wp T (wipeUncovered r) Q E s := by
  have hend := h.inside r (by simp)
  have hfits := h.fits
  have hkeep : s.amap.counts ≠ .disabled → Q () s := by
    intro hc
    refine hQ s.amap ⟨h, fun i hi => h.vacant (.inl hc) i ?_⟩ rfl rfl fun _ _ => rfl
    rw [coverage_single, if_neg hi]
  simp only [wipeUncovered, wp_bind, wp_amap]
  cases hc : s.amap.counts with
  | unestablished | counts cells => exact hkeep (by simp [hc])
  | disabled =>
    simp only [wp_bind]
    refine wp_wipe h.indexed (by omega) fun used back hind => ?_
    simp only [wp_amap]
    rw [wp_checkedSub hend]
    refine wp_wipe
      hind (by simpa only using by omega) fun used' back' hind' => ?_
    refine hQ _ (.of_counts hind' hfits h.references hend ?_ ?_ fun i hi => ?_) rfl rfl
      fun i hi => ?_
    · exact fun cells hcells => by simp [hc] at hcells
    · exact fun hun => by simp [hc] at hun
    · simp only [Amap.cleared]
      split_ifs with h₁ h₂
      · rfl
      · rfl
      · exact h.beyond i (by
          by_contra hlt
          exact hi ⟨by omega, by omega⟩)
    · simp only [Amap.cleared]
      obtain ⟨h₁, h₂⟩ := hi
      rw [if_neg (by omega), if_neg (by omega)]

theorem wp_adjust_grow (h : s.amap.Alone r) (r' : MapRef) {start length : ℕ}
    (hle : start + length ≤ s.amap.nslot) (hend : r'.offset + r'.length ≤ s.amap.nslot)
    (hsole : s.amap.counts = .unestablished → r'.offset + r'.length = s.amap.nslot)
    (hnew : ∀ i, r'.Covers i ↔ r.Covers i ∨ start ≤ i ∧ i < start + length)
    (hdisj : ∀ i, start ≤ i → i < start + length → ¬r.Covers i)
    (hQ : ∀ counts used back,
      Amap.Alone { s.amap with counts := counts, used := used, back := back } r' →
      Q () { s with amap := { s.amap with counts := counts, used := used, back := back } }) :
    wp T (adjust start length 1) Q E s := by
  have hout : ∀ i, ¬r'.Covers i → s.amap.slots i = none := fun i hi =>
    h.outside i fun hcov => hi ((hnew i).mpr (.inl hcov))
  by_cases hc : ∃ cells, s.amap.counts = .counts cells
  · obtain ⟨cells, hc⟩ := hc
    refine wp_adjust (g := coverage [r']) h.indexed h.fits hc hle (h.counted cells hc (by simp))
      (fun i h₁ h₂ => ?_) (fun i hi => ?_) fun cells' used back hind hruns => ?_
    · have hone := h.references
      simp only [coverage_single, if_pos ((hnew i).mpr (.inr ⟨h₁, h₂⟩)), if_neg (hdisj i h₁ h₂)]
      exact ⟨rfl, hone.ge⟩
    · have hiff : r'.Covers i ↔ r.Covers i := by
        rw [hnew i]
        exact ⟨fun hor => hor.resolve_right (by omega), .inl⟩
      simp only [coverage_single, hiff]
    · have hkept : released s.amap.slots (coverage [r']) start (start + length) = s.amap.slots := by
        funext i
        refine if_neg fun ⟨h₁, h₂, h₃⟩ => ?_
        rw [coverage_single, if_pos ((hnew i).mpr (.inr ⟨h₁, h₂⟩))] at h₃
        cases h₃
      rw [hkept] at hind ⊢
      refine hQ (.counts cells') used back (.of_counts hind h.fits h.references hend ?_ ?_ hout)
      · intro c hc'
        obtain rfl := PartialReferences.counts.inj hc'
        exact hruns
      · exact fun hun => by cases hun
  · have hnone : ∀ cells, s.amap.counts ≠ .counts cells := fun cells hcells => hc ⟨cells, hcells⟩
    simp only [adjust, wp_bind, wp_amap, wp_pure]
    exact hQ s.amap.counts s.amap.used s.amap.back (.of_counts h.indexed h.fits h.references hend
      (fun cells hcells => absurd ⟨cells, hcells⟩ hc) hsole hout)

end

def movedSlots (slots : ℕ → Option α) (offset area n : ℕ) : ℕ → Option α := fun i =>
  if area ≤ i ∧ i < area + n then slots (i - area + offset)
  else if offset ≤ i ∧ i < offset + n then none
  else slots i

theorem movedSlots_succ (slots : ℕ → Option α) {offset area : ℕ} (h : offset ≤ area) (n : ℕ) :
    movedSlots (update (update slots (offset + n) none) (area + n)
      (slots (offset + n))) offset area n = movedSlots slots offset area (n + 1) := by
  funext i
  unfold movedSlots
  by_cases htop : i = area + n
  · rw [if_neg (by omega), if_neg (by omega), if_pos (by omega), htop, update_self]
    congr 1
    omega
  by_cases hin : area ≤ i ∧ i < area + n
  · rw [if_pos hin, if_pos (by omega), update_of_ne (by omega),
      update_of_ne (by omega)]
  rw [if_neg hin, if_neg (by omega : ¬(area ≤ i ∧ i < area + (n + 1)))]
  by_cases hlast : i = offset + n
  · rw [if_neg (by omega), if_pos (by omega), hlast,
      update_of_ne (by rwa [hlast] at htop), update_self]
  · rw [update_of_ne htop, update_of_ne hlast]
    congr 1
    exact propext (by omega)

theorem wp_moveSlots {offset area : ℕ} (harea : offset ≤ area) (n : ℕ) : ∀ {s : AmapCell α},
    area + n ≤ s.amap.capacity → ∀ {Q : Unit → AmapCell α → Prop},
    Q () { s with amap := { s.amap with slots := movedSlots s.amap.slots offset area n } } →
    wp T (moveSlots offset area n) Q E s := by
  induction n with
  | zero =>
    intro s _ Q hQ
    have hsame : movedSlots s.amap.slots offset area 0 = s.amap.slots := by
      funext i
      unfold movedSlots
      rw [if_neg (by omega), if_neg (by omega)]
    rw [hsame] at hQ
    exact hQ
  | succ n ih =>
    intro s hle Q hQ
    simp only [moveSlots, wp_bind]
    rw [wp_bound (by omega), wp_bound (by omega)]
    refine ih (by simpa only using by omega) ?_
    simp only [movedSlots_succ _ harea]
    exact hQ

theorem movedSlots_eq_shiftUp (h : s.amap.Alone r) {area : ℕ} (harea : r.offset ≤ area) :
    movedSlots s.amap.slots r.offset area r.length =
      shiftUp s.amap.slots (area - r.offset) := by
  funext i
  unfold movedSlots shiftUp
  by_cases hin : area ≤ i ∧ i < area + r.length
  · rw [if_pos hin, if_pos (by omega)]
    congr 1
    omega
  · have hleft : (if r.offset ≤ i ∧ i < r.offset + r.length then none else s.amap.slots i) =
        none := by
      split_ifs with hcov
      · rfl
      · exact h.outside i hcov
    rw [hleft]
    split_ifs with hle
    · refine (h.outside _ fun ⟨h₁, h₂⟩ => hin ⟨?_, ?_⟩).symm <;> omega
    · rfl

theorem indexed_shiftUp (h : s.amap.Alone r) {m : Amap α} {area : ℕ} (harea : r.offset ≤ area)
    (hcap : area + r.length ≤ m.capacity)
    (hslots : m.slots = shiftUp s.amap.slots (area - r.offset))
    (hused : m.used = s.amap.used.map (· + (area - r.offset)))
    (hback : ∀ i, area ≤ i → i < area + r.length → m.back i = s.amap.back (i - area + r.offset)) :
    m.Indexed := by
  have hcov : ∀ i, s.amap.slots i ≠ none → r.Covers i := fun i hi => by
    by_contra hn
    exact hi (h.outside i hn)
  have hiff : ∀ i, m.slots i ≠ none ↔ ∃ j, s.amap.slots j ≠ none ∧ j + (area - r.offset) = i := by
    intro i
    rw [hslots]
    unfold shiftUp
    constructor
    · intro hi
      split_ifs at hi with hle
      · exact ⟨_, hi, by omega⟩
      · exact absurd rfl hi
    · rintro ⟨j, hj, rfl⟩
      rwa [if_pos (by omega), Nat.add_sub_cancel]
  constructor
  · rw [hused]
    refine (h.indexed.dense.map (· + (area - r.offset)) fun i hi => ?_).congr hiff
    obtain ⟨h₁, h₂⟩ := hcov i hi
    rw [hback _ (by omega) (by omega)]
    congr 1
    omega
  · intro i hi
    obtain ⟨j, hj, rfl⟩ := (hiff i).mp hi
    have := (hcov j hj).2
    omega

theorem extendBelow_spec (h : s.amap.Alone r) {added : ℕ}
    (hneed : r.length + added ≤ s.amap.capacity) :
    wp (fun _ => False) (extendBelow r added)
      (fun r' s' => Grew s.amap r added true r' s'.amap) (fun _ _ => False) s := by
  have hend := h.end_le
  have hfits := h.fits
  obtain ⟨area, harea⟩ : ∃ area, area = s.amap.capacity - r.length := ⟨_, rfl⟩
  simp only [extendBelow, wp_bind, wp_amap]
  rw [wp_checkedSub (by omega), ← harea]
  refine wp_moveSlots (by omega) r.length (by omega) ?_
  rw [wp_check (by omega), wp_checkedSub (by omega)]
  simp only [wp_modifyAmap]
  rw [wp_checkedSub (by omega), movedSlots_eq_shiftUp h (by omega)]
  have hoff : (⟨area - added, r.length + added⟩ : MapRef).offset + (if true then added else 0) =
      r.offset + (area - r.offset) := by
    simp only [if_true]
    omega
  refine wp_resetSingleCoverage (r := ⟨area - added, r.length + added⟩) le_rfl
    (by simpa only using by omega) fun counts hcounted => ?_
  refine ⟨.of_counts (indexed_shiftUp h (by omega) (by simpa only using by omega) rfl rfl
    fun i h₁ h₂ => if_pos ⟨h₁, h₂⟩) le_rfl h.references (by simpa only using by omega) hcounted
    (fun _ => by simpa only using by omega) (h.outside_shiftUp rfl hoff), rfl, _, rfl, hoff⟩

theorem extendAbove_spec (h : s.amap.Alone r) {added need : ℕ}
    (hneed : need = r.offset + r.length + added) (hcap : need ≤ s.amap.capacity)
    (hlt : s.amap.nslot < need) :
    wp (fun _ => False) (extendAbove r added need)
      (fun r' s' => Grew s.amap r added false r' s'.amap) (fun _ _ => False) s := by
  have hend := h.end_le
  -- first the slots in use up to the end, then the ones beyond it
  have hrest : ∀ (counts : PartialReferences) (used : List ℕ) (back : ℕ → ℕ),
      Amap.Alone { s.amap with counts := counts, used := used, back := back }
        ⟨r.offset, s.amap.nslot - r.offset⟩ →
      ∀ counts', (∀ cells, counts' = .counts cells →
        ∃ old, counts = .counts old ∧ cells = setRun old s.amap.nslot 1 (need - s.amap.nslot)) →
      Grew s.amap r added false ⟨r.offset, r.length + added⟩
        { s.amap with counts := counts', used := used, back := back, nslot := need } := by
    intro counts used back hal counts' hcounts
    refine ⟨.of_counts ⟨hal.indexed.dense, hal.indexed.inside⟩ hcap h.references
      (by simpa only using by omega) (fun cells hc => ?_) (fun _ => by simpa only using by omega)
      fun i hi => ?_, rfl, 0, (shiftUp_zero _).symm, rfl⟩
    · obtain ⟨old, rfl, rfl⟩ := hcounts cells hc
      have hold : Runs old (coverage [⟨r.offset, s.amap.nslot - r.offset⟩]) 0 s.amap.nslot :=
        hal.counted old rfl (by simp)
      have hnew := Runs.snoc 1 (need - s.amap.nslot) (g := coverage [⟨r.offset, r.length + added⟩])
        (hold.congr (fun _ _ _ => rfl) fun i _ hi => ?_) fun i h₁ h₂ => ?_
      · rwa [show s.amap.nslot + (need - s.amap.nslot) = need by omega] at hnew
      · simp only [coverage_single, MapRef.Covers]
        congr 1
        exact propext (by omega)
      · rw [coverage_single, if_pos ⟨by simpa only using by omega, by simpa only using by omega⟩]
    · exact h.outside i fun ⟨h₁, h₂⟩ => hi ⟨h₁, by simpa only using by omega⟩
  have hbeyond : ∀ (counts : PartialReferences) (used : List ℕ) (back : ℕ → ℕ),
      Amap.Alone { s.amap with counts := counts, used := used, back := back }
        ⟨r.offset, s.amap.nslot - r.offset⟩ →
      wp (fun _ => False) (coverBeyond s.amap.nslot need)
        (fun _ s' => Grew s.amap r added false ⟨r.offset, r.length + added⟩
          { s'.amap with nslot := need })
        (fun _ _ => False)
        { s with amap := { s.amap with counts := counts, used := used, back := back } } := by
    intro counts used back hal
    simp only [coverBeyond, wp_bind, wp_amap]
    cases counts with
    | unestablished | disabled => exact hrest _ used back hal _ fun cells hc => by cases hc
    | counts cells =>
      simp only [wp_bind]
      rw [wp_checkedSub hlt.le, wp_writeRun _ (by simpa only using by omega)]
      refine hrest _ used back hal _ fun cells' hc => ⟨cells, rfl, ?_⟩
      exact (PartialReferences.counts.inj hc).symm
  simp only [extendAbove, wp_bind, wp_amap, wp_ite, wp_pure]
  split_ifs with hgap
  · refine wp_adjust_grow h ⟨r.offset, s.amap.nslot - r.offset⟩ (by omega)
      (by simpa only using by omega) (fun hc => by have := h.ends hc; omega) (fun i => ?_)
      (fun i h₁ _ => MapRef.not_covers (.inr h₁)) hbeyond
    simp only [MapRef.Covers]
    omega
  · have hr : r = ⟨r.offset, s.amap.nslot - r.offset⟩ := by
      cases r
      simp only [MapRef.mk.injEq, true_and] at hgap hend ⊢
      omega
    exact hbeyond s.amap.counts s.amap.used s.amap.back (hr ▸ h)

theorem allocate_blank {length : ℕ} {supply : Supply} {m : Amap α}
    (h : (Amap.allocate length supply).1 = .ok m) :
    ∃ capacity, length ≤ capacity ∧ m = Amap.blank length capacity := by
  unfold Amap.allocate at h
  cases hclass : sizeClass (length * 4) with
  | none => simp [hclass] at h
  | some bytes =>
    have hbytes : length * 4 ≤ bytes := by simpa using List.find?_some hclass
    simp only [hclass] at h
    refine ⟨bytes / 4, by omega, ?_⟩
    split_ifs at h
    exact (Except.ok.inj h).symm

/-- The slots after `moveUsed`. -/
def arrived (slots base : ℕ → Option α) (shift : ℕ) (list : List ℕ) : ℕ → Option α := fun i =>
  if shift ≤ i ∧ i - shift ∈ list then slots (i - shift) else base i

theorem arrived_cons (slots base : ℕ → Option α) (shift : ℕ) {index : ℕ} {rest : List ℕ}
    (h : index ∉ rest) :
    arrived (update slots index none) (update base (index + shift) (slots index))
      shift rest = arrived slots base shift (index :: rest) := by
  funext i
  unfold arrived
  by_cases hi : i = index + shift
  · simp [hi, h]
  · rw [update_of_ne hi]
    by_cases hle : shift ≤ i
    · have hne : i - shift ≠ index := by omega
      simp [hne]
    · simp [hle]

theorem wp_moveUsed {capacity shift : ℕ} (list : List ℕ) : ∀ {s : AmapCell α}
    {slots : ℕ → Option α}, s.amap.Indexed → list.Nodup →
    (∀ j ∈ list, slots j ≠ none ∧ j < capacity ∧ j + shift < s.amap.capacity) →
    ∀ {Q : Unit → AmapCell α → Prop}, (∀ used back, Amap.Indexed { s.amap with
        slots := arrived slots s.amap.slots shift list, used := used, back := back } →
      Q () { s with amap := { s.amap with
        slots := arrived slots s.amap.slots shift list, used := used, back := back } }) →
    wp T (moveUsed capacity shift slots list) Q E s := by
  induction list with
  | nil =>
    intro s slots h _ _ Q hQ
    have hsame : arrived slots s.amap.slots shift [] = s.amap.slots := by
      funext i
      simp [arrived]
    have := hQ s.amap.used s.amap.back
    rw [hsame] at this
    exact this h
  | cons index rest ih =>
    intro s slots h hnodup hall Q hQ
    obtain ⟨hocc, hlt, hshift⟩ := hall index (by simp)
    obtain ⟨hnot, hnodup⟩ := List.nodup_cons.mp hnodup
    obtain ⟨slot, hslot⟩ := Option.ne_none_iff_exists'.mp hocc
    simp only [moveUsed, wp_bind]
    rw [wp_check hlt]
    simp only [hslot, wp_bind]
    refine wp_insert h hshift slot fun m hind hm => ?_
    obtain ⟨used, back, rfl⟩ := hm
    refine ih hind hnodup (fun j hj => ?_) fun used' back' hind' => ?_
    · have hne : j ≠ index := fun he => hnot (he ▸ hj)
      rw [update_of_ne hne]
      exact hall j (by simp [hj])
    · simp only [← hslot, arrived_cons slots s.amap.slots shift hnot] at hind' ⊢
      exact hQ used' back' hind'

theorem wp_fromEnd {backwards : Bool} {capacity length k : ℕ}
    (h : backwards = true → length + k ≤ capacity) (other : ℕ) (Q : ℕ → AmapCell α → Prop) :
    wp T (fromEnd backwards capacity length k other) Q E s =
      Q (if backwards then capacity - length - k else other) s := by
  cases backwards with
  | false => rfl
  | true => simp only [fromEnd, if_true, wp_checkedSub₂ (h rfl)]

theorem wp_replaceCounts (capacity : ℕ) (old : PartialReferences)
    {Q : PartialReferences → AmapCell α → Prop}
    (hQ : ∀ counts supply, Q counts { s with supply := supply }) :
    wp T (replaceCounts capacity old) Q E s := by
  cases old with
  | unestablished | disabled => exact hQ _ s.supply
  | counts cells =>
    simp only [replaceCounts, wp_bind]
    refine wp_requestCounts _ fun granted supply => ?_
    cases granted <;> exact hQ _ supply

theorem extendReplace_spec (h : s.amap.Alone r) {added need : ℕ} {backwards : Bool}
    (hneed : need = (if backwards then r.length else r.offset + r.length) + added)
    (hfront : backwards = true → r.offset < added) :
    wp (fun _ => False) (extendReplace r added need backwards)
      (fun r' s' => Grew s.amap r added backwards r' s'.amap)
      (fun _ s' => s'.amap = s.amap) s := by
  have hone : s.amap.references = 1 := h.references
  simp only [extendReplace, wp_ite]
  by_cases hlarge : largePages ≤ need
  · rw [if_pos hlarge]
    trivial
  rw [if_neg hlarge]
  simp only [allocateState, wp_bind, wp_get]
  cases hres : (Amap.allocate need s.supply).1 with
  | error e => rfl
  | ok m =>
    obtain ⟨capacity, hcap, rfl⟩ := allocate_blank hres
    refine wp_replaceCounts _ _ fun counts supply => ?_
    have hroom : backwards = true → r.offset < added ∧ r.length + added ≤ capacity := by
      intro hb
      simp only [hb, if_true] at hneed
      exact ⟨hfront hb, by omega⟩
    rw [wp_check hone, wp_fromEnd fun hb => by have := hroom hb; simpa only [Amap.blank] using by omega]
    obtain ⟨shift, hshift⟩ : ∃ shift,
      shift = if backwards then capacity - r.length - r.offset else 0 := ⟨_, rfl⟩
    obtain ⟨offset, hoffset⟩ : ∃ offset,
      offset = if backwards then capacity - r.length - added else r.offset := ⟨_, rfl⟩
    obtain ⟨hoff, htop, hnslot, hle⟩ :
        offset + (if backwards then added else 0) = r.offset + shift ∧
        r.offset + shift + r.length ≤ capacity ∧
        (if backwards then capacity else need) = offset + (r.length + added) ∧
        (if backwards then capacity else need) ≤ capacity := by
      cases backwards with
      | false =>
        simp only [Bool.false_eq_true, if_false] at hneed hshift hoffset ⊢
        omega
      | true =>
        have := hroom rfl
        simp only [if_true] at hshift hoffset ⊢
        omega
    simp only [Amap.blank, ← hshift]
    refine wp_moveUsed _
      ⟨(Amap.Indexed.blank need capacity).dense, (Amap.Indexed.blank need capacity).inside⟩
      (List.nodup_reverse.mpr h.indexed.dense.nodup) (fun j hj => ?_) fun used back hind => ?_
    · have hocc := h.indexed.dense.mem_iff.mp (List.mem_reverse.mp hj)
      refine ⟨hocc, h.indexed.inside j hocc, ?_⟩
      by_contra hlt
      exact hocc (h.outside j fun hin => hlt (by have := hin.2; simpa only using by omega))
    have harrived : arrived s.amap.slots (fun _ => none) shift s.amap.used.reverse =
        shiftUp s.amap.slots shift := by
      funext i
      unfold arrived shiftUp
      simp only [List.mem_reverse, h.indexed.dense.mem_iff]
      by_cases hle : shift ≤ i
      · by_cases hocc : s.amap.slots (i - shift) = none <;> simp [hocc]
      · simp [hle]
    simp only [harrived] at hind ⊢
    rw [wp_fromEnd fun hb => (hroom hb).2, ← hoffset]
    refine wp_resetSingleCoverage (r := ⟨offset, r.length + added⟩) hle hnslot.ge
      fun counts' hcounted => ?_
    exact ⟨.of_counts ⟨hind.dense, hind.inside⟩ hle rfl hnslot.ge hcounted
      (fun _ => hnslot.symm) (h.outside_shiftUp rfl hoff), rfl, shift, rfl, hoff⟩

/-- Extending succeeds only for the last reference; a failure changes no covered slot. -/
theorem extend_spec {live : List MapRef} (h : s.amap.Tracks live) (hr : r ∈ live) (added : ℕ)
    (backwards : Bool) :
    wp (fun _ => False) (extend r added backwards)
      (fun r' s' => live = [r] ∧ s'.amap.Tracks [r'] ∧
        Extended s.amap.slots r added backwards r' s'.amap.slots)
      (fun _ s' => s'.amap.Tracks live ∧
        ∀ i, 0 < coverage live i → s'.amap.slots i = s.amap.slots i) s := by
  by_cases hone : s.amap.references = 1
  swap
  · simp only [extend, wp_bind, wp_amap, wp_fail, if_pos hone]
    exact ⟨h, fun _ _ => trivial⟩
  obtain rfl : live = [r] := by
    obtain ⟨q, rfl⟩ := List.length_eq_one_iff.mp (h.references.symm.trans hone)
    rw [List.mem_singleton.mp hr]
  simp only [extend, wp_bind, wp_amap, ne_eq, hone, not_true_eq_false, if_false]
  refine wp_wipeUncovered h fun m hm hnslot hcap hsame => ?_
  have hend := hm.end_le
  refine wp_imp (Q := fun r' s' => Grew m r added backwards r' s'.amap)
    (E := fun _ s' => s'.amap = m) ?_ (fun r' s' hg => ?_) fun e s' he => ?_
  rotate_left
  · obtain ⟨hlen, hkept, hadded⟩ := hg.extended hm
    refine ⟨trivial, hg.alone.toTracks, hlen, fun i hi => ?_, hadded⟩
    rw [hkept i hi, hsame _ ⟨by omega, by omega⟩]
  · rw [he]
    refine ⟨hm.toTracks, fun i hi => ?_⟩
    obtain ⟨q, hq, hcov⟩ := exists_covers hi
    exact hsame i (List.mem_singleton.mp hq ▸ hcov)
  cases hadd : checkedAdd (if backwards then r.length else r.offset + r.length) added with
  | none => rfl
  | some need =>
    obtain ⟨hneed, -⟩ := checkedAdd_eq_some.mp hadd
    simp only [wp_bind, wp_amap]
    by_cases hA : backwards = false ∧ need ≤ m.nslot
    · -- forwards into slots that are counted already
      rw [if_pos hA]
      obtain ⟨rfl, hle⟩ := hA
      simp only [Bool.false_eq_true, if_false] at hneed
      simp only [wp_bind]
      refine wp_adjust_grow hm ⟨r.offset, r.length + added⟩
        (by simpa only using by omega) (by simpa only using by omega)
        (fun hc => by have := hm.ends hc; simpa only using by omega) (fun i => ?_)
        (fun i h₁ _ => MapRef.not_covers (.inr h₁)) fun counts used back hal =>
          ⟨hal, rfl, 0, (shiftUp_zero _).symm, rfl⟩
      simp only [MapRef.Covers]
      omega
    rw [if_neg hA]
    by_cases hB : backwards = true ∧ added ≤ r.offset
    · -- backwards into slots that are counted already
      rw [if_pos hB]
      obtain ⟨rfl, hle⟩ := hB
      simp only [wp_bind]
      refine wp_adjust_grow hm ⟨r.offset - added, r.length + added⟩
        (by simpa only using by omega) (by simpa only using by omega)
        (fun hc => by have := hm.ends hc; simpa only using by omega) (fun i => ?_)
        (fun i _ h₂ => MapRef.not_covers (.inl (by omega))) fun counts used back hal =>
          ⟨hal, rfl, 0, (shiftUp_zero _).symm, by simpa only [if_true] using by omega⟩
      simp only [MapRef.Covers]
      omega
    rw [if_neg hB]
    by_cases hC : need ≤ m.capacity
    · rw [if_pos hC]
      cases backwards with
      | true =>
        exact wp_imp (extendBelow_spec hm (by simpa using hneed ▸ hC)) (fun _ _ hg => hg)
          fun _ _ he => he.elim
      | false =>
        refine wp_imp (extendAbove_spec hm hneed hC ?_) (fun _ _ hg => hg) fun _ _ he => he.elim
        by_contra hle
        exact hA ⟨rfl, not_lt.mp hle⟩
    · rw [if_neg hC]
      exact extendReplace_spec hm hneed fun hb => by
        by_contra hle
        exact hB ⟨hb, not_lt.mp hle⟩

end AmapM
end Roanix.Mem
