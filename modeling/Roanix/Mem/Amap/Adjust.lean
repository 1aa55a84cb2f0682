import Roanix.Mem.Amap.Basic

/-! The used list holds exactly the occupied slots, and `wipe` empties a range by either of its two
traversals. `adjust` changes the count of every slot of a range by one amount and empties the slots
whose count it takes to zero. -/
namespace Roanix.Mem
open Lib Act Function

namespace Amap
variable {α : Type}

structure Indexed (m : Amap α) : Prop where
  dense : Dense (fun i => m.slots i ≠ none) m.used m.back
  inside : ∀ i, m.slots i ≠ none → i < m.capacity

def cleared (slots : ℕ → Option α) (start limit : ℕ) : ℕ → Option α :=
  fun i => if start ≤ i ∧ i < limit then none else slots i

theorem update_none_cleared (slots : ℕ → Option α) {start limit index : ℕ} (h₁ : start ≤ index)
    (h₂ : index < limit) :
    cleared (update slots index none) start limit = cleared slots start limit := by
  funext i
  unfold cleared
  by_cases hi : i = index
  · subst hi
    rw [if_pos ⟨h₁, h₂⟩, if_pos ⟨h₁, h₂⟩]
  · rw [update_of_ne hi]

theorem cleared_of_empty {slots : ℕ → Option α} {start limit : ℕ}
    (h : ∀ i, start ≤ i → i < limit → slots i = none) : cleared slots start limit = slots := by
  funext i
  unfold cleared
  split_ifs with hi
  · exact (h i hi.1 hi.2).symm
  · rfl

theorem Indexed.blank (length capacity : ℕ) : (blank (α := α) length capacity).Indexed :=
  ⟨(Dense.empty _).congr fun i => by simp [Amap.blank], fun i hi => absurd rfl hi⟩

end Amap

namespace AmapM
variable {α : Type} {T : Panic → Prop} {E : Error → AmapCell α → Prop} {s : AmapCell α}

/-- `Q` holds once the range is empty, however the used list is then ordered. -/
def OnceCleared (Q : Unit → AmapCell α → Prop) (s : AmapCell α) (start limit : ℕ) : Prop :=
  ∀ used back, Amap.Indexed { s.amap with
      slots := Amap.cleared s.amap.slots start limit, used := used, back := back } →
    Q () { s with amap := { s.amap with
      slots := Amap.cleared s.amap.slots start limit, used := used, back := back } }

@[simp] theorem wp_amap (Q : Amap α → AmapCell α → Prop) : wp T amap Q E s = Q s.amap s := rfl

@[simp] theorem wp_modifyAmap (f : Amap α → Amap α) (Q : Unit → AmapCell α → Prop) :
    wp T (modifyAmap f) Q E s = Q () { s with amap := f s.amap } := rfl

theorem wp_bound {index : ℕ} (h : index < s.amap.capacity) (Q : Unit → AmapCell α → Prop) :
    wp T (bound index) Q E s = Q () s := by
  exact wp_check h _ _

section
variable (h : s.amap.Indexed) {index : ℕ} (hi : index < s.amap.capacity)
  {Q : Unit → AmapCell α → Prop}
include h hi

theorem wp_insert (slot : α)
    (hQ : ∀ m : Amap α, m.Indexed → (∃ used back, m = { s.amap with
      slots := update s.amap.slots index (some slot), used := used, back := back }) →
      Q () { s with amap := m }) : wp T (insert index slot) Q E s := by
  simp only [insert, wp_bind, wp_bound hi, wp_modifyAmap]
  have hinside : ∀ i, update s.amap.slots index (some slot) i ≠ none →
      i < s.amap.capacity := by
    intro i hne
    by_cases he : i = index
    · exact he ▸ hi
    · rw [update_of_ne he] at hne
      exact h.inside i hne
  by_cases hfree : s.amap.slots index = none
  · simp only [if_pos hfree]
    refine hQ _ ⟨?_, hinside⟩ ⟨_, _, rfl⟩
    refine (h.dense.push (by simp [hfree])).congr fun i => ?_
    by_cases he : i = index
    · subst he
      simp
    · simp [he]
  · simp only [if_neg hfree]
    refine hQ _ ⟨h.dense.congr fun i => ?_, hinside⟩ ⟨_, _, rfl⟩
    by_cases he : i = index
    · subst he
      simpa using hfree
    · simp [he]

theorem wp_remove
    (hQ : ∀ used back, Amap.Indexed { s.amap with
        slots := update s.amap.slots index none, used := used, back := back } →
      (s.amap.slots index ≠ none → used.length + 1 = s.amap.used.length ∧
        ∀ j < s.amap.back index, used[j]? = s.amap.used[j]?) →
      Q () { s with amap := { s.amap with
        slots := update s.amap.slots index none, used := used, back := back } }) :
    wp T (remove index) Q E s := by
  simp only [remove, wp_bind, wp_bound hi, wp_amap]
  by_cases hfree : s.amap.slots index = none
  · have hsame : update s.amap.slots index none = s.amap.slots := by
      rw [← hfree, update_eq_self]
    rw [if_pos hfree]
    have := hQ s.amap.used s.amap.back
    simp only [hsame] at this
    exact this h fun hne => absurd hfree hne
  · have hlt := h.dense.back_lt hfree
    rw [if_neg hfree]
    simp only [wp_bind, wp_check hlt]
    have hdense := h.dense.remove hfree
    have hlen := length_swapRemove s.amap.used (s.amap.back index)
    have hindexed : Amap.Indexed { s.amap with
        slots := update s.amap.slots index none
        used := swapRemove s.amap.used (s.amap.back index)
        back := Dense.moved s.amap.used s.amap.back (s.amap.back index) } := by
      refine ⟨hdense.congr fun i => ?_, fun i hne => ?_⟩
      · by_cases he : i = index <;> simp [he]
      · by_cases he : i = index
        · exact he ▸ hi
        · exact h.inside i (by simpa [update_of_ne he] using hne)
    have hdone := hQ _ _ hindexed fun _ => ⟨by omega, fun j hj => by
      rw [getElem?_swapRemove, if_pos (by omega), if_neg (by omega)]⟩
    unfold Dense.moved at hdone
    cases hm : (swapRemove s.amap.used (s.amap.back index))[s.amap.back index]? with
    | none =>
      simp only [hm] at hdone
      exact hdone
    | some k =>
      have hk : k < s.amap.capacity := h.inside k (hdense.mem_iff.mp (List.mem_of_getElem? hm)).2
      simp only [hm] at hdone
      simp only [wp_bind, wp_bound (s := { s with amap := { s.amap with
        used := swapRemove s.amap.used (s.amap.back index) } }) hk, wp_modifyAmap]
      exact hdone

end

theorem wp_removeRange (n : ℕ) : ∀ {s : AmapCell α} (start : ℕ), s.amap.Indexed →
    start + n ≤ s.amap.capacity → ∀ {Q : Unit → AmapCell α → Prop},
    OnceCleared Q s start (start + n) → wp T (removeRange start n) Q E s := by
  induction n with
  | zero =>
    intro s start h _ Q hQ
    have := hQ s.amap.used s.amap.back
    rw [Amap.cleared_of_empty fun i _ _ => by omega] at this
    exact this h
  | succ n ih =>
    intro s start h hle Q hQ
    simp only [removeRange, wp_bind]
    refine wp_remove h (by omega) fun used back hind _ => ?_
    have hslots : Amap.cleared (update s.amap.slots start none) (start + 1)
        (start + 1 + n) = Amap.cleared s.amap.slots start (start + (n + 1)) := by
      funext i
      unfold Amap.cleared
      by_cases hi : i = start
      · subst hi
        rw [if_neg (by omega), if_pos (by omega), update_self]
      · rw [update_of_ne hi]
        congr 1
        exact propext (by omega)
    refine ih (start + 1) hind (by simpa only using by omega) fun used' back' hind' => ?_
    simp only [hslots] at hind' ⊢
    exact hQ used' back' hind'

theorem cleared_of_listed (h : s.amap.Indexed) {start limit position : ℕ}
    (hall : s.amap.used.length ≤ position)
    (hbefore : ∀ j < position, ∀ i, s.amap.used[j]? = some i → ¬(start ≤ i ∧ i < limit)) :
    Amap.cleared s.amap.slots start limit = s.amap.slots := by
  refine Amap.cleared_of_empty fun i h₁ h₂ => ?_
  by_contra hne
  have hlt := h.dense.back_lt hne
  exact hbefore _ (by omega) i (h.dense.placed hne) ⟨h₁, h₂⟩

/-- The entries before the position are outside the range, and each step has one entry less
to look at. -/
theorem wp_removeUsed (start limit : ℕ) (fuel : ℕ) : ∀ {s : AmapCell α} (position : ℕ),
    s.amap.Indexed → s.amap.used.length ≤ fuel + position →
    (∀ j < position, ∀ i, s.amap.used[j]? = some i → ¬(start ≤ i ∧ i < limit)) →
    ∀ {Q : Unit → AmapCell α → Prop}, OnceCleared Q s start limit →
    wp T (removeUsed start limit fuel position) Q E s := by
  induction fuel with
  | zero =>
    intro s position h hfuel hbefore Q hQ
    have hall : s.amap.used.length ≤ position := by omega
    have hdone := hQ s.amap.used s.amap.back
    simp only [cleared_of_listed h hall hbefore] at hdone
    simp only [removeUsed, wp_bind, wp_amap, wp_check hall]
    exact hdone h
  | succ fuel ih =>
    intro s position h hfuel hbefore Q hQ
    simp only [removeUsed, wp_bind, wp_amap]
    cases hp : s.amap.used[position]? with
    | none =>
      have hdone := hQ s.amap.used s.amap.back
      simp only [cleared_of_listed h (List.getElem?_eq_none_iff.mp hp) hbefore] at hdone
      exact hdone h
    | some index =>
      obtain ⟨hocc, hback⟩ := h.dense.listed hp
      by_cases hin : start ≤ index ∧ index < limit
      · simp only [if_pos hin, wp_bind]
        refine wp_remove h (h.inside _ hocc) fun used back hind hrest => ?_
        obtain ⟨hlen, hsame⟩ := hrest hocc
        refine ih position hind (by simpa only using by omega) (fun j hj i hji => ?_) ?_
        · simp only [hsame j (by omega)] at hji
          exact hbefore j hj i hji
        · intro used' back' hind'
          simp only [Amap.update_none_cleared _ hin.1 hin.2] at hind' ⊢
          exact hQ used' back' hind'
      · simp only [if_neg hin]
        refine ih (position + 1) h (by omega) (fun j hj i hji => ?_) hQ
        by_cases hjp : j = position
        · subst hjp
          rw [hp] at hji
          exact Option.some.inj hji ▸ hin
        · exact hbefore j (by omega) i hji

theorem wp_wipe (h : s.amap.Indexed) {start length : ℕ} (hle : start + length ≤ s.amap.capacity)
    {Q : Unit → AmapCell α → Prop} (hQ : OnceCleared Q s start (start + length)) :
    wp T (wipe start length) Q E s := by
  simp only [wipe, wp_bind, wp_amap]
  split_ifs
  · exact wp_removeRange length start h hle hQ
  · exact wp_removeUsed start (start + length) _ 0 h (by omega) (fun j hj => by omega) hQ

variable {cells : ℕ → ℤ} {f g : ℕ → ℕ}
variable {a b current hi limit n nslot p previous previousLen refs start : ℕ} {previousRefs : ℤ}

theorem wp_checkedSub (h : b ≤ a) (Q : ℕ → AmapCell α → Prop) :
    wp T (checkedSub a b) Q E s = Q (a - b) s := by
  simp only [checkedSub, wp_bind, wp_check h, wp_pure]

theorem wp_checkedSub₂ {c : ℕ} (h : b + c ≤ a) (Q : ℕ → AmapCell α → Prop) :
    wp T (checkedSub₂ a b c) Q E s = Q (a - b - c) s := by
  simp only [checkedSub₂, wp_bind, wp_checkedSub (show b ≤ a by omega),
    wp_checkedSub (show c ≤ a - b by omega)]

theorem wp_readRun (h : IsRun cells p refs n) (hle : p + n ≤ s.amap.capacity)
    (Q : ℤ × ℕ → AmapCell α → Prop) : wp T (readRun cells p) Q E s = Q (refs, n) s := by
  have hpos := h.pos
  simp only [readRun, wp_bind, wp_bound (show p < s.amap.capacity by omega), wp_ite, wp_pure,
    h.getRun_eq]
  split_ifs with hcell
  · rfl
  · -- a longer run has its length in the next cell
    have hlong : 2 ≤ n := by
      rcases h with ⟨-, hc⟩ | ⟨hn, -⟩
      · omega
      · exact hn
    rw [wp_bound (by omega)]

theorem wp_writeRun (refs : ℤ) (hle : p + n ≤ s.amap.capacity) (Q : (ℕ → ℤ) → AmapCell α → Prop) :
    wp T (writeRun cells p refs n) Q E s = Q (setRun cells p refs n) s := by
  simp only [writeRun]
  by_cases hn : n = 0
  · simp [setRun, hn]
  · rw [if_neg hn]
    have hb : p + (if n = 1 then 0 else 1) < s.amap.capacity := by split_ifs <;> omega
    simp only [wp_bind, wp_bound hb, wp_pure]

theorem wp_seekRun (hhi : hi ≤ s.amap.capacity) (hle : start ≤ hi) (fuel : ℕ) :
    ∀ {cells : ℕ → ℤ} {current previous : ℕ}, start ≤ fuel + current → current ≤ start →
    Runs cells f current hi →
    (current = 0 ∨ ∃ refs n, LastRun cells f previous refs n current) →
    ∀ {Q : (ℕ → ℤ) × ℕ × ℕ → AmapCell α → Prop},
    (∀ cells' previous', Runs cells' f start hi →
      (start = 0 ∨ ∃ refs n, LastRun cells' f previous' refs n start) →
      Q (cells', start, previous') s) →
    wp T (seekRun start fuel cells current previous) Q E s := by
  induction fuel with
  | zero =>
    intro cells current previous hfuel hcur hruns hlast Q hQ
    obtain rfl : current = start := by omega
    simp only [seekRun, wp_bind, wp_check le_rfl]
    exact hQ _ _ hruns hlast
  | succ fuel ih =>
    intro cells current previous hfuel hcur hruns hlast Q hQ
    simp only [seekRun, wp_ite]
    split_ifs with hstop
    · obtain rfl : current = start := by omega
      exact hQ _ _ hruns hlast
    obtain ⟨refs, n, hrun, hn, hcount, hrest⟩ := hruns.first (by omega)
    have hbelow : Runs cells f 0 current := by
      rcases hlast with rfl | ⟨_, _, hl⟩
      · exact .nil 0
      · exact hl.runs
    simp only [wp_bind, wp_readRun hrun (show current + n ≤ s.amap.capacity by omega), wp_ite]
    split_ifs with hcut
    · -- the run that contains `start` is cut there
      simp only [wp_writeRun (refs : ℤ) (show current + (start - current) ≤ s.amap.capacity by omega),
        wp_writeRun (refs : ℤ)
          (show start + (n - (start - current)) ≤ s.amap.capacity by omega)]
      have hsplit := Runs.split (a := cells) (k := start - current) (by omega) (by omega) hcount
      rw [show current + (start - current) = start by omega] at hsplit
      obtain ⟨hfirst, hsecond⟩ := hsplit
      have hsame : ∀ i, i < current ∨ current + n ≤ i →
          setRun (setRun cells current refs (start - current)) start refs
            (n - (start - current)) i = cells i := by
        intro i hi
        rw [setRun_of_outside _ _ _ _ (by omega), setRun_of_outside _ _ _ _ (by omega)]
      refine ih (by omega) le_rfl (hsecond.append (hrest.congr (fun i h₁ _ =>
        hsame i (.inr h₁)) fun _ _ _ => rfl)) (.inr ⟨refs, start - current, ?_⟩) hQ
      exact ⟨hbelow.congr (fun i _ h₂ => hsame i (.inl h₂)) fun _ _ _ => rfl, hfirst, by omega,
        fun i h₁ h₂ => hcount i h₁ (by omega)⟩
    · have hpos := hrun.pos
      exact ih (by omega) (by omega) hrest (.inr ⟨refs, n, hbelow, hrun, rfl, hcount⟩) hQ

theorem wp_cutRun (hhi : hi ≤ s.amap.capacity) (hlt : current < limit) (hle : limit ≤ hi)
    (hruns : Runs cells f current hi) {Q : (ℕ → ℤ) × ℤ × ℕ → AmapCell α → Prop}
    (hQ : ∀ (cells' : ℕ → ℤ) (refs n : ℕ), 0 < n → current + n ≤ limit →
      (∀ i, current ≤ i → i < current + n → f i = refs) → Runs cells' f (current + n) hi →
      (∀ i < current, cells' i = cells i) → Q (cells', (refs : ℤ), n) s) :
    wp T (cutRun limit cells current) Q E s := by
  obtain ⟨refs, n, hrun, hn, hcount, hrest⟩ := hruns.first (by omega)
  simp only [cutRun, wp_bind, wp_readRun hrun (show current + n ≤ s.amap.capacity by omega), wp_ite]
  split_ifs with hcut
  · simp only [wp_writeRun (refs : ℤ) (show current + (limit - current) ≤ s.amap.capacity by omega),
      wp_writeRun (refs : ℤ) (show limit + (n - (limit - current)) ≤ s.amap.capacity by omega)]
    obtain ⟨-, hsecond⟩ := Runs.split (k := limit - current) (by omega) (by omega)
      hcount
    have hlim : current + (limit - current) = limit := by omega
    refine hQ _ refs _ (by omega) (by omega) (fun i h₁ h₂ => hcount i h₁ (by omega)) ?_ ?_
    · rw [hlim] at hsecond ⊢
      refine hsecond.append (hrest.congr (fun i h₁ _ => ?_) fun _ _ _ => rfl)
      rw [setRun_of_outside _ _ _ _ (by omega), setRun_of_outside _ _ _ _ (by omega)]
    · intro i hi
      rw [setRun_of_outside _ _ _ _ (by omega), setRun_of_outside _ _ _ _ (by omega)]
  · exact hQ _ refs n hrun.pos (by omega) hcount hrest fun _ _ => rfl

def released (slots : ℕ → Option α) (g : ℕ → ℕ) (start limit : ℕ) : ℕ → Option α :=
  fun i => if start ≤ i ∧ i < limit ∧ g i = 0 then none else slots i

theorem released_self (slots : ℕ → Option α) (n : ℕ) : released slots g n n = slots :=
  funext fun _ => if_neg (by omega)

theorem released_step (slots : ℕ → Option α) (hn : start + n ≤ limit)
    (hg : ∀ i, start ≤ i → i < start + n → g i = refs) :
    released (if refs = 0 then Amap.cleared slots start (start + n) else slots) g (start + n)
      limit = released slots g start limit := by
  funext i
  unfold released
  by_cases hin : start ≤ i ∧ i < start + n
  · rw [if_neg (by omega)]
    split_ifs with h0 h1 h1
    · exact if_pos hin
    · exact absurd ⟨hin.1, by omega, (hg i hin.1 hin.2).trans h0⟩ h1
    · exact absurd ((hg i hin.1 hin.2).symm.trans h1.2.2) h0
    · rfl
  · have hslot : (if refs = 0 then Amap.cleared slots start (start + n) else slots) i = slots i := by
      split_ifs
      · exact if_neg hin
      · rfl
    congr 1
    exact propext ⟨fun h => ⟨by omega, h.2⟩, fun h => ⟨by omega, h.2⟩⟩

theorem wp_writeAdjusted (hcap : nslot ≤ s.amap.capacity) (hn : 0 < n) (hle : current + n ≤ nslot)
    (hbelow : Runs cells g 0 current) (habove : Runs cells f (current + n) nslot)
    (hg : ∀ i, current ≤ i → i < current + n → g i = refs)
    (hprev : current = previous + previousLen → ∀ r : ℕ, previousRefs = r →
      LastRun cells g previous r previousLen current) {Q : (ℕ → ℤ) → AmapCell α → Prop}
    (hQ : ∀ cells', Runs cells' g 0 (current + n) → Runs cells' f (current + n) nslot → Q cells' s) :
    wp T (writeAdjusted cells previous previousRefs previousLen current refs n) Q E s := by
  rw [writeAdjusted]
  split_ifs with hjoin
  · obtain ⟨hmeet, hrefs⟩ := hjoin
    have hlast := hprev hmeet refs hrefs.symm
    have hend : previous + (previousLen + n) = current + n := by omega
    rw [wp_writeRun _ (by omega)]
    have hcount : ∀ i, previous ≤ i → i < previous + (previousLen + n) → g i = refs := by
      intro i h₁ h₂
      by_cases hi : i < current
      · exact hlast.count i h₁ hi
      · exact hg i (by omega) (by omega)
    have hwrite := Runs.write (by omega) hlast.below (by rwa [hend]) hcount
    rw [hend] at hwrite
    exact hQ _ hwrite.1 hwrite.2
  · rw [wp_writeRun _ (by omega)]
    obtain ⟨h₁, h₂⟩ := Runs.write hn hbelow habove hg
    exact hQ _ h₁ h₂

/-- Up to `current` the runs hold the new counts, from there on the old ones. -/
theorem wp_adjustRuns {delta : ℤ} (hle : limit ≤ nslot) (fuel : ℕ) :
    ∀ {s : AmapCell α} {cells : ℕ → ℤ} {current : ℕ}, s.amap.Indexed →
    nslot ≤ s.amap.capacity → s.amap.counts = .counts cells → limit ≤ fuel + current →
    current ≤ limit → Runs cells g 0 current →
    Runs cells f current nslot →
    (∀ i, current ≤ i → i < limit → (g i : ℤ) = f i + delta ∧ g i ≤ s.amap.references) →
    (∀ r : ℕ, previousRefs = r → previous + previousLen ≤ current ∧
      (current = previous + previousLen → LastRun cells g previous r previousLen current)) →
    ∀ {Q : Unit → AmapCell α → Prop}, (∀ cells' used back, Amap.Indexed { s.amap with
        slots := released s.amap.slots g current limit, used := used, back := back
        counts := .counts cells' } →
      Runs cells' g 0 limit → Runs cells' f limit nslot →
      Q () { s with amap := { s.amap with
        slots := released s.amap.slots g current limit, used := used, back := back
        counts := .counts cells' } }) →
    wp T (adjustRuns limit delta previous previousRefs previousLen fuel current) Q E s := by
  induction fuel with
  | zero =>
    intro s cells current h hcap hc hfuel hcur hbelow habove hg hprev Q hQ
    obtain rfl : current = limit := by omega
    simp only [adjustRuns, wp_check le_rfl]
    specialize hQ cells s.amap.used s.amap.back
    rw [released_self, ← hc] at hQ
    exact hQ h hbelow habove
  | succ fuel ih =>
    intro s cells current h hcap hc hfuel hcur hbelow habove hg hprev Q hQ
    simp only [adjustRuns, wp_ite]
    split_ifs with hstop
    · obtain rfl : current = limit := by omega
      specialize hQ cells s.amap.used s.amap.back
      rw [released_self, ← hc] at hQ
      exact hQ h hbelow habove
    simp only [wp_bind, wp_amap, hc]
    refine wp_cutRun hcap (by omega) hle habove fun cells₁ refs n hn hnl hcount habove₁ hsame => ?_
    have hnew : ∀ i, current ≤ i → i < current + n → (g i : ℤ) = refs + delta := by
      intro i h₁ h₂
      rw [(hg i h₁ (by omega)).1, hcount i h₁ h₂]
    obtain ⟨new, hrefs⟩ : ∃ new : ℕ, (refs : ℤ) + delta = new :=
      ⟨g current, (hnew current le_rfl (by omega)).symm⟩
    have hgnew : ∀ i, current ≤ i → i < current + n → g i = new := by
      intro i h₁ h₂
      have := hnew i h₁ h₂
      omega
    have hbound : new ≤ s.amap.references := by
      rw [← hgnew current le_rfl (by omega)]
      exact (hg current le_rfl (by omega)).2
    rw [hrefs]
    simp only [wp_check (show (0 : ℤ) ≤ new ∧ (new : ℤ) ≤ s.amap.references by omega)]
    refine wp_writeAdjusted hcap hn (by omega)
      (hbelow.congr (fun i _ hi => hsame i hi) fun _ _ _ => rfl) habove₁ hgnew
      (fun hmeet r hr => ((hprev r hr).2 hmeet).congr hsame fun _ _ => rfl)
      fun cells₂ hbelow₂ habove₂ => ?_
    -- the rest of the loop, after the run has been wiped or kept
    have hnext : ∀ slots, slots = (if new = 0 then
          Amap.cleared s.amap.slots current (current + n) else s.amap.slots) → ∀ used back,
        Amap.Indexed { s.amap with
          slots := slots, used := used, back := back, counts := .counts cells₂ } →
        wp T (adjustRuns limit delta previous previousRefs previousLen fuel (current + n)) Q E
          { s with amap := { s.amap with
            slots := slots, used := used, back := back, counts := .counts cells₂ } } := by
      rintro _ rfl used back hind
      refine ih (s := { s with amap := _ }) hind hcap rfl (by omega) hnl
        hbelow₂ habove₂ (fun i h₁ h₂ => hg i (by omega) h₂) (fun r hr => ?_) ?_
      · have := (hprev r hr).1
        exact ⟨by omega, fun hmeet => by omega⟩
      intro cells' used' back'
      simp only [released_step s.amap.slots hnl hgnew]
      exact hQ cells' used' back'
    by_cases h0 : new = 0
    · have hwipe : current + n ≤ s.amap.capacity := by omega
      simp only [h0]
      exact wp_wipe (s := { s with amap := { s.amap with counts := .counts cells₂ } })
        ⟨h.dense, h.inside⟩ hwipe (hnext _ (if_pos h0).symm)
    · simp only [wipeUnreferenced, h0, Nat.cast_eq_zero, if_false]
      exact hnext _ (if_neg h0).symm s.amap.used s.amap.back ⟨h.dense, h.inside⟩

theorem wp_adjust (h : s.amap.Indexed) (hcap : s.amap.nslot ≤ s.amap.capacity)
    (hc : s.amap.counts = .counts cells) {start length : ℕ} {delta : ℤ}
    (hle : start + length ≤ s.amap.nslot) (hruns : Runs cells f 0 s.amap.nslot)
    (hin : ∀ i, start ≤ i → i < start + length →
      (g i : ℤ) = f i + delta ∧ g i ≤ s.amap.references)
    (hout : ∀ i, i < start ∨ start + length ≤ i → g i = f i)
    {Q : Unit → AmapCell α → Prop} (hQ : ∀ cells' used back, Amap.Indexed { s.amap with
        slots := released s.amap.slots g start (start + length), used := used, back := back
        counts := .counts cells' } →
      Runs cells' g 0 s.amap.nslot →
      Q () { s with amap := { s.amap with
        slots := released s.amap.slots g start (start + length), used := used, back := back
        counts := .counts cells' } }) :
    wp T (adjust start length delta) Q E s := by
  simp only [adjust, wp_bind, wp_amap, hc]
  refine wp_seekRun hcap (by omega) start (by omega) (Nat.zero_le _) hruns
    (.inl rfl) fun cells₁ previous habove hlast => ?_
  simp only [wp_modifyAmap]
  have hfinish : ∀ (previousRefs : ℤ) (previousLen : ℕ), Runs cells₁ g 0 start →
      (∀ r : ℕ, previousRefs = r → previous + previousLen ≤ start ∧
        (start = previous + previousLen → LastRun cells₁ g previous r previousLen start)) →
      wp T (adjustRuns (start + length) delta previous previousRefs previousLen length start) Q E
        { s with amap := { s.amap with counts := .counts cells₁ } } := by
    intro previousRefs previousLen hbelow hprev
    refine wp_adjustRuns (s := { s with amap := { s.amap with counts := .counts cells₁ } })
      hle length ⟨h.dense, h.inside⟩ hcap rfl (by omega) (by omega) hbelow habove hin hprev
      fun cells' used back hind hbelow' habove' => ?_
    exact hQ cells' used back hind (hbelow'.append
      (habove'.congr (fun _ _ _ => rfl) fun i h₁ _ => hout i (.inr h₁)))
  simp only [previousRun, wp_ite]
  split_ifs with h0
  · exact hfinish (-1) 0 (by rw [h0]; exact .nil 0) fun r hr => by omega
  · obtain ⟨refs, n, hl⟩ := hlast.resolve_left h0
    have hmeets := hl.meets
    have hlast' : LastRun cells₁ g previous refs n start :=
      hl.congr (fun _ _ => rfl) fun i hi => hout i (.inl hi)
    rw [wp_readRun hl.run (by simpa only using by omega)]
    refine hfinish refs n hlast'.runs fun r hr => ⟨hmeets.le, fun _ => ?_⟩
    obtain rfl : refs = r := by omega
    exact hlast'

end AmapM
end Roanix.Mem
