import Roanix.Mem.Phys.Ops

/-! Returning frames, one or a run, and zeroing free frames in advance. A full cache spills eight
frames to the shared list before it takes one more. -/
namespace Roanix.Mem
open Lib Function List

namespace Phys
variable {m m' : Phys} {held : List (ℕ × Bool)} {pfn : ℕ} {zero : Bool} {frame : Frame}

/-- The frames `[base, base + count)` were in use and are now free; nothing else changed. -/
structure Returned (m m' : Phys) (base count : ℕ) : Prop where
  segments : m'.segments = m.segments
  given : ∀ pfn, base ≤ pfn → pfn < base + count → isFree (m'.frames pfn).state
  others : ∀ pfn, ¬ (base ≤ pfn ∧ pfn < base + count) → m'.frames pfn = m.frames pfn
  memory : m'.memory = m.memory

theorem Inv.counted_free (h : Inv m held) (hu : pfn ∈ m.usable)
    (ha : (m.frames pfn).state = .allocated) (hf : frame.state = freeState zero) :
    Counted ((m.setFrame pfn frame).recordFreed zero) := by
  have change := census_setFrame h.placed.usable_nodup hu frame
  rw [ha, hf] at change
  obtain ⟨h1, h2, h3⟩ : (m.setFrame pfn frame).census isFree = m.census isFree + 1 ∧
      (m.setFrame pfn frame).census isZero = m.census isZero + zero.toNat ∧
      (m.setFrame pfn frame).census isAllocated + 1 = m.census isAllocated := by
    cases zero <;> exact ⟨change isFree, change isZero, change isAllocated⟩
  have hle := fun p => ((m.setFrame pfn frame).census_le p).trans_lt h.placed.few
  refine ⟨?_, ?_, ?_⟩
  · change wrappingAdd m.freePages 1 = (m.setFrame pfn frame).census isFree
    rw [h1, h.counted.free, wrappingAdd_eq (h1 ▸ hle isFree)]
  · change wrappingAdd m.zeroPages zero.toNat = (m.setFrame pfn frame).census isZero
    rw [h2, h.counted.zero, wrappingAdd_eq (h2 ▸ hle isZero)]
  · change wrappingSub m.usedPages 1 = (m.setFrame pfn frame).census isAllocated
    rw [h.counted.used, ← h3, wrappingSub_eq (Nat.le_add_left _ _), Nat.add_sub_cancel]

end Phys

namespace PhysM
open Act Phys
variable {T : Panic → Prop} {E : Error → Phys → Prop} {m : Phys} {held : List (ℕ × Bool)}
  {id : Fin maxPageCpus} {zero : Bool} {pfn : ℕ}

theorem popMany_spec {pop : PhysM (Option ℕ)} (size : Phys → ℕ)
    (hpop : ∀ (m : Phys) (held : List (ℕ × Bool)), Inv m held →
      wp T pop (fun r m' => Moved m m' ∧ Inv m' (r.toList.map (·, zero) ++ held) ∧
        size m' + r.toList.length = size m ∧ (r = none → size m = 0)) E m)
    (n : ℕ) (h : Inv m held) :
    wp T (popMany pop n) (fun l m' => Moved m m' ∧ Inv m' (l.map (·, zero) ++ held) ∧
      size m' + l.length = size m ∧ (l.length = n ∨ size m' = 0)) E m := by
  induction n generalizing m held with
  | zero => exact ⟨Moved.refl m, h, rfl, .inl rfl⟩
  | succ n ih =>
    unfold popMany
    rw [wp_bind]
    apply wp_post (hpop m held h)
    rintro r m₁ ⟨hmoved₁, hinv₁, hsize₁, hnone⟩
    cases r with
    | none =>
      refine ⟨hmoved₁, hinv₁, hsize₁, .inr ?_⟩
      have := hnone rfl
      omega
    | some pfn =>
      rw [wp_bind]
      apply wp_post (ih hinv₁)
      rintro l m₂ ⟨hmoved₂, hinv₂, hsize₂, hdone⟩
      simp only [Option.toList_some, length_cons, length_nil] at hsize₁
      have hlen : (pfn :: l).length = l.length + 1 := rfl
      exact ⟨hmoved₁.trans hmoved₂, { hinv₂ with placed := hinv₂.placed.perm perm_middle },
        by omega, by omega⟩

theorem cachePop_size (h : Inv m held) :
    wp T (cachePop id zero) (fun r m' => Moved m m' ∧ Inv m' (r.toList.map (·, zero) ++ held) ∧
      ((m'.caches id).slots zero).length + r.toList.length = ((m.caches id).slots zero).length ∧
      (r = none → ((m.caches id).slots zero).length = 0)) E m := by
  apply wp_cachePop
  · intro hc
    refine ⟨Moved.refl m, h, rfl, ?_⟩
    intro _
    rw [hc, length_nil]
  · intro pfn rest hc
    refine ⟨Moved.setCache _ _ _ _, h.popCache hc, ?_, ?_⟩
    · rw [slots_setCache, hc]
      rfl
    · intro hr
      cases hr

theorem popFree_size (h : Inv m held) :
    wp T popFree (fun r m' => Moved m m' ∧ Inv m' (r.toList.map (·, false) ++ held) ∧
      m'.free.length + r.toList.length = m.free.length ∧ (r = none → m.free.length = 0)) E m := by
  unfold popFree
  rw [wp_bind]
  apply wp_popFront
  · intro hq
    have hfree : m.free = [] := hq
    refine ⟨Moved.refl m, h, rfl, ?_⟩
    intro _
    rw [hfree, length_nil]
  · intro pfn rest hq
    have hfree : m.free = pfn :: rest := hq
    have hone : 1 ≤ (m.setQueue false rest).nfree := h.one_le_nfree hq
    simp only [subFree, wp_bind, wp_get, wp_check hone]
    refine ⟨⟨rfl, rfl, rfl, rfl⟩, h.popQueue hq, ?_, ?_⟩
    · rw [hfree]
      rfl
    · intro hr
      cases hr

theorem appendAll_spec (l : List ℕ) (h : Inv m (l.map (·, zero) ++ held)) :
    wp T (appendAll zero l) (fun _ m' => Moved m m' ∧ Inv m' held) E m := by
  induction l generalizing m with
  | nil => exact ⟨Moved.refl m, h⟩
  | cons pfn rest ih =>
    have hfirst : Inv m ((pfn, zero) :: (rest.map (·, zero) ++ held)) := h
    have hpage : ({ m with nfree := m.nfree + 1 } : Phys).pageByIndex pfn = some pfn :=
      hfirst.placed.pageByIndex_eq hfirst.placed.of_held.1
    unfold appendAll
    have hback := (wp_pushQueue (T := T) (E := E) (Q := fun _ m' =>
      wp T (appendAll zero rest) (fun _ m' => Moved m m' ∧ Inv m' held) E m') hfirst ?_).1
    · simpa only [addFree, wp_bind, wp_modify, wp_get, hpage] using hback
    · intro l _ hinv
      apply wp_post (ih hinv)
      rintro _ m' ⟨hmoved, hinv'⟩
      exact ⟨{ hmoved with }, hinv'⟩

theorem wp_prepareFree {Q : Unit → Phys → Prop} (h : Placed m held)
    (ha : (m.frames pfn).state = .allocated) (hT : T .pageStillOwned) (hT' : T .pageStillReferenced)
    (hQ : ∀ frame : Frame, frame.state = freeState zero → Q () (m.setFrame pfn frame)) :
    wp T (prepareFree pfn zero) Q E m := by
  have hcheck : ∀ (p : Prop) [Decidable p] (r : Panic) (R : Unit → Phys → Prop), T r → R () m →
      wp T (check p r : PhysM Unit) R E m := by
    intro p _ r R hr hR
    unfold check
    split
    · exact hR
    · exact hr
  unfold prepareFree
  rw [wp_bind, wp_get, wp_bind, wp_check ha, wp_bind]
  apply hcheck _ _ _ hT
  rw [wp_bind]
  apply hcheck _ _ _ hT'
  rw [wp_bind]
  apply hcheck _ _ _ hT'
  rw [wp_bind]
  apply hcheck _ _ _ hT'
  rw [wp_bind, wp_check (h.not_linked_of_allocated ha)]
  exact hQ _ rfl

structure FreeStops (T : Panic → Prop) : Prop where
  cpu : T .cpuBeyondPageCaches
  owned : T .pageStillOwned
  referenced : T .pageStillReferenced

theorem cacheFreed_spec (h : Inv m ((pfn, zero) :: held)) :
    wp T (cacheFreed id pfn zero) (fun _ m' => Moved m m' ∧ Inv m' held) E m := by
  unfold cacheFreed
  rw [wp_bind]
  apply wp_cachePush h
  · intro hfull
    rw [if_neg (by decide), wp_bind]
    apply wp_post (popMany_spec (fun m => ((m.caches id).slots zero).length)
      (fun _ _ => cachePop_size) pageCacheRefill h)
    rintro spill m₁ ⟨hmoved₁, hinv₁, hsize, hdone⟩
    have hroom : ((m₁.caches id).slots zero).length ≠ pageCacheCapacity := by
      unfold pageCacheCapacity pageCacheRefill at *
      omega
    have hmine : Inv m₁ ((pfn, zero) :: (spill.map (·, zero) ++ held)) :=
      { hinv₁ with placed := hinv₁.placed.perm perm_middle }
    rw [wp_bind]
    apply wp_cachePush hmine
    · intro hfull'
      exact absurd hfull' hroom
    · intro hinv₂
      apply wp_post (appendAll_spec spill hinv₂)
      rintro _ m₃ ⟨hmoved₃, hinv₃⟩
      exact ⟨(hmoved₁.trans (Moved.setCache _ _ _ _)).trans hmoved₃, hinv₃⟩
  · intro hinv
    exact ⟨Moved.setCache _ _ _ _, hinv⟩

theorem freePageInner_spec (caller : Caller) (hT : FreeStops T) (h : Inv m [])
    (hu : pfn ∈ m.usable) (ha : (m.frames pfn).state = .allocated)
    (hz : zero = true → m.memory pfn = default) :
    wp T (freePageInner caller pfn zero) (fun _ m' => Inv m' [] ∧ Returned m m' pfn 1) E m := by
  unfold freePageInner
  rw [wp_bind]
  apply wp_prepareFree h.placed ha hT.owned hT.referenced
  intro frame hf
  have hheld : Inv ((m.setFrame pfn frame).recordFreed zero) ((pfn, zero) :: []) :=
    ⟨(h.placed.free hu ha hf hz).congr rfl rfl rfl rfl rfl rfl, h.nfree, h.counted_free hu ha hf⟩
  simp only [wp_bind]
  apply wp_cacheId hT.cpu
  intro id
  apply wp_post (cacheFreed_spec hheld)
  rintro _ m' ⟨hmoved, hinv⟩
  have hframes : m'.frames = update m.frames pfn frame := hmoved.frames
  refine ⟨hinv, hmoved.segments, ?_, ?_, hmoved.memory⟩
  · intro other hle hlt
    obtain rfl : other = pfn := by omega
    rw [hframes, update_self, hf]
    exact isFree_freeState zero
  · intro other ho
    rw [hframes, update_of_ne (by omega)]

theorem freeContiguous_spec (caller : Caller) (hT : FreeStops T) (base count : ℕ) (h : Inv m [])
    (hrun : ∀ p, base ≤ p → p < base + count →
      p ∈ m.usable ∧ (m.frames p).state = .allocated) :
    wp T (freeContiguous caller base count) (fun _ m' => Inv m' [] ∧ Returned m m' base count) E m := by
  induction count generalizing m base with
  | zero =>
    refine ⟨h, rfl, ?_, fun _ _ => rfl, rfl⟩
    intro p hle hlt
    omega
  | succ n ih =>
    obtain ⟨hu, ha⟩ := hrun base le_rfl (by omega)
    unfold freeContiguous freePage
    simp only [wp_bind, wp_get, h.placed.pageByIndex_eq hu]
    apply wp_post (freePageInner_spec caller hT h hu ha (fun hz => by cases hz))
    rintro _ m₁ ⟨hinv₁, hback⟩
    have hrest : ∀ p, base + 1 ≤ p → p < base + 1 + n →
        p ∈ m₁.usable ∧ (m₁.frames p).state = .allocated := by
      intro p hle hlt
      rw [usable, hback.segments, hback.others p (by omega)]
      exact hrun p (by omega) (by omega)
    apply wp_post (ih (base + 1) hinv₁ hrest)
    rintro _ m₂ ⟨hinv₂, hback₂⟩
    refine ⟨hinv₂, hback₂.segments.trans hback.segments, ?_, ?_, hback₂.memory.trans hback.memory⟩
    · intro p hle hlt
      by_cases hp : p = base
      · rw [hback₂.others p (by omega)]
        exact hback.given p (by omega) (by omega)
      · exact hback₂.given p (by omega) (by omega)
    · intro p hp
      rw [hback₂.others p (by omega), hback.others p (by omega)]

structure Zeroed (m m' : Phys) (l : List ℕ) : Prop where
  segments : m'.segments = m.segments
  free : m'.free = m.free
  zero : m'.zero = m.zero
  nfree : m'.nfree = m.nfree
  freePages : m'.freePages = m.freePages
  zeroPages : m'.zeroPages = m.zeroPages
  usedPages : m'.usedPages = m.usedPages
  kept : ∀ pfn, (m.frames pfn).state = .allocated →
    m'.frames pfn = m.frames pfn ∧ m'.memory pfn = m.memory pfn
  censusFree : m'.census isFree = m.census isFree
  censusZero : m'.census isZero = m.census isZero + l.length
  censusUsed : m'.census isAllocated = m.census isAllocated

theorem zeroAll_spec (l : List ℕ) (h : Placed m (l.map (·, false) ++ held)) :
    wp T (zeroAll l) (fun _ m' => Placed m' (l.map (·, true) ++ held) ∧ Zeroed m m' l) E m := by
  induction l generalizing m held with
  | nil => exact ⟨h, ⟨rfl, rfl, rfl, rfl, rfl, rfl, rfl, fun _ _ => ⟨rfl, rfl⟩, rfl, rfl, rfl⟩⟩
  | cons pfn rest ih =>
    have hfirst : Placed m ((pfn, false) :: (rest.map (·, false) ++ held)) := h
    obtain ⟨hu, hstate⟩ := hfirst.of_held
    set frame : Frame := { m.frames pfn with state := .zero } with hframe
    have change := census_setFrame hfirst.usable_nodup hu frame
    rw [hstate] at change
    have h1 : (m.setFrame pfn frame).census isFree + 1 = m.census isFree + 1 := change isFree
    have h2 : (m.setFrame pfn frame).census isZero = m.census isZero + 1 := change isZero
    have h3 : (m.setFrame pfn frame).census isAllocated = m.census isAllocated := change isAllocated
    have hzeroed : frame.state = .zero := rfl
    have hnext := (hfirst.rezero hzeroed).perm perm_middle.symm
    unfold zeroAll
    apply wp_post (ih hnext)
    rintro _ m' ⟨hplaced, hz⟩
    refine ⟨hplaced.perm perm_middle, hz.segments, hz.free, hz.zero, hz.nfree, hz.freePages,
      hz.zeroPages, hz.usedPages, ?_, ?_, ?_, ?_⟩
    · intro other ho
      have hne : other ≠ pfn := by
        intro hp
        subst other
        exact absurd (ho.symm.trans hstate) (by decide)
      have hkept := hz.kept other
      simp only [Phys.setFrame, update_of_ne hne] at hkept
      exact hkept ho
    · exact hz.censusFree.trans (Nat.add_right_cancel h1)
    · have hcensus := hz.censusZero
      change m'.census isZero = (m.setFrame pfn frame).census isZero + rest.length at hcensus
      rw [length_cons]
      omega
    · exact hz.censusUsed.trans h3

theorem returnZeroed_spec (l : List ℕ) (h : Placed m (l.map (·, true) ++ held))
    (hn : m.nfree = m.free.length + m.zero.length) :
    wp T (returnZeroed l)
      (fun _ m' => Placed m' held ∧ m'.nfree = m'.free.length + m'.zero.length ∧ Moved m m' ∧
        m'.freePages = m.freePages ∧ m'.zeroPages = m.zeroPages ∧ m'.usedPages = m.usedPages) E m := by
  induction l generalizing m with
  | nil => exact ⟨h, hn, Moved.refl m, rfl, rfl, rfl⟩
  | cons pfn rest ih =>
    have hfirst : Placed { m with nfree := m.nfree + 1 }
        ((pfn, true) :: (rest.map (·, true) ++ held)) := h.congr rfl rfl rfl rfl rfl rfl
    have hnext := hfirst.pushQueue (perm_append_singleton _ _)
    have hcount : m.nfree + 1 = m.free.length + (m.zero ++ [pfn]).length := by
      rw [length_append, length_singleton]
      omega
    unfold returnZeroed
    simp only [addFree, pushBack, wp_bind, wp_modify, wp_get, wp_check hfirst.not_linked_of_held]
    apply wp_post (ih hnext hcount)
    rintro _ m' ⟨hplaced, hn', hmoved, hf, hz, hu⟩
    exact ⟨hplaced, hn', { hmoved with }, hf, hz, hu⟩

/-- Zeroing in advance touches no frame that is in use. -/
structure Cleared (m m' : Phys) : Prop where
  segments : m'.segments = m.segments
  kept : ∀ pfn, (m.frames pfn).state = .allocated →
    m'.frames pfn = m.frames pfn ∧ m'.memory pfn = m.memory pfn

theorem zeroFreePages_spec (maximum : ℕ) (h : Inv m []) :
    wp T (zeroFreePages maximum) (fun _ m' => Inv m' [] ∧ Cleared m m') E m := by
  unfold zeroFreePages
  simp only [wp_bind]
  apply wp_post (popMany_spec (fun m => m.free.length) (fun _ _ => popFree_size) _ h)
  rintro l m₁ ⟨hmoved₁, hinv₁, _, _⟩
  apply wp_post (zeroAll_spec l hinv₁.placed)
  rintro _ m₂ ⟨hplaced₂, hz⟩
  have hn : m₂.nfree = m₂.free.length + m₂.zero.length := by
    rw [hz.nfree, hz.free, hz.zero]
    exact hinv₁.nfree
  apply wp_post (returnZeroed_spec l hplaced₂ hn)
  rintro _ m₃ ⟨hplaced₃, hn₃, hmoved₃, hf₃, hz₃, hu₃⟩
  have hcensus : ∀ p, m₃.census p = m₂.census p := census_congr hmoved₃.segments hmoved₃.frames
  have hsegments : m₃.segments = m₁.segments := hmoved₃.segments.trans hz.segments
  have hlen : m₃.usable.length = m₁.usable.length := by rw [usable, hsegments, usable]
  have hbound := m₃.census_le isZero
  have hfew := hinv₁.placed.few
  have hcount := hinv₁.counted
  refine ⟨⟨hplaced₃.congr rfl rfl rfl rfl rfl rfl, hn₃, ?_⟩, hsegments.trans hmoved₁.segments, ?_⟩
  · constructor
    · change m₃.freePages = m₃.census isFree
      rw [hf₃, hz.freePages, hcount.free, hcensus, hz.censusFree]
    · change wrappingAdd m₃.zeroPages l.length = m₃.census isZero
      have hzero : m₃.zeroPages + l.length = m₃.census isZero := by
        rw [hz₃, hz.zeroPages, hcount.zero, hcensus, hz.censusZero]
      rw [wrappingAdd_eq (by omega), hzero]
    · change m₃.usedPages = m₃.census isAllocated
      rw [hu₃, hz.usedPages, hcount.used, hcensus, hz.censusUsed]
  · intro pfn ha
    rw [← hmoved₁.frames, ← hmoved₁.memory] at *
    rw [hmoved₃.frames, hmoved₃.memory]
    exact hz.kept pfn ha

end PhysM
end Roanix.Mem
