import Roanix.Mem.Phys.Invariant

/-! Taking frames: popping lists and caches, refilling and stealing. -/
namespace Roanix.Mem
open Lib Function

namespace Phys

/-- Frames may have changed places, but not their states nor their contents. -/
structure Moved (m m' : Phys) : Prop where
  segments : m'.segments = m.segments
  maxPfn : m'.maxPfn = m.maxPfn
  frames : m'.frames = m.frames
  memory : m'.memory = m.memory

theorem Moved.refl (m : Phys) : Moved m m := ⟨rfl, rfl, rfl, rfl⟩

theorem Moved.trans {m m' m'' : Phys} (h : Moved m m') (h' : Moved m' m'') : Moved m m'' :=
  ⟨h'.segments.trans h.segments, h'.maxPfn.trans h.maxPfn, h'.frames.trans h.frames,
    h'.memory.trans h.memory⟩

theorem Moved.setCache (m : Phys) (id : Fin maxPageCpus) (zero : Bool) (l : List ℕ) :
    Moved m (m.setCache id zero l) := ⟨rfl, rfl, rfl, rfl⟩

/-- The frames `[base, base + count)` were free and are now in use; no other frame changed. -/
structure Allotted (m m' : Phys) (base count : ℕ) : Prop where
  segments : m'.segments = m.segments
  given : ∀ pfn, base ≤ pfn → pfn < base + count →
    pfn ∈ m.usable ∧ isFree (m.frames pfn).state ∧ (m'.frames pfn).state = .allocated
  others : ∀ pfn, ¬ (base ≤ pfn ∧ pfn < base + count) →
    m'.frames pfn = m.frames pfn ∧ m'.memory pfn = m.memory pfn

theorem Moved.allotted {m m₁ m' : Phys} {base count : ℕ} (h : Moved m m₁)
    (ha : Allotted m₁ m' base count) : Allotted m m' base count := by
  refine ⟨ha.segments.trans h.segments, ?_, ?_⟩
  · intro pfn hle hlt
    have hgiven := ha.given pfn hle hlt
    rwa [usable, h.segments, h.frames] at hgiven
  · intro pfn hp
    have hother := ha.others pfn hp
    rwa [h.frames, h.memory] at hother

namespace Inv
variable {m : Phys} {held : List (ℕ × Bool)} {zero : Bool} {id : Fin maxPageCpus} {pfn : ℕ}
  {rest : List ℕ} {frame : Frame}

theorem popCache (h : Inv m held) (hc : (m.caches id).slots zero = pfn :: rest) :
    Inv (m.setCache id zero rest) ((pfn, zero) :: held) :=
  ⟨h.placed.popCache hc, h.nfree, { h.counted with }⟩

theorem one_le_nfree (h : Inv m held) (hq : m.queue zero = pfn :: rest) : 1 ≤ m.nfree := by
  have := m.setQueue_length_add zero rest
  rw [hq, List.length_cons] at this
  have := h.nfree
  omega

theorem popQueue (h : Inv m held) (hq : m.queue zero = pfn :: rest) :
    Inv { m.setQueue zero rest with nfree := m.nfree - 1 } ((pfn, zero) :: held) where
  placed := (h.placed.popQueue (hq ▸ List.Perm.refl _)).congr rfl rfl rfl rfl rfl rfl
  nfree := by
    have := m.setQueue_length_add zero rest
    have := h.nfree
    rw [hq, List.length_cons] at *
    simp only
    omega
  counted := { h.counted with }

theorem pushQueue (h : Inv m ((pfn, zero) :: held)) {l : List ℕ}
    (hperm : l.Perm (pfn :: m.queue zero)) :
    Inv ({ m with nfree := m.nfree + 1 }.setQueue zero l) held where
  placed := (h.placed.pushQueue hperm).congr rfl rfl rfl rfl rfl rfl
  nfree := by
    have hlen := hperm.length_eq
    have := h.nfree
    cases zero <;> simp [setQueue, queue] at * <;> omega
  counted := { h.counted with }

end Inv

theorem Counted.spend {m m' : Phys} {count zeroed : ℕ} (h : Counted m)
    (hsegments : m'.segments = m.segments) (few : m.usable.length < 2 ^ 64)
    (hfree : m'.census isFree + count = m.census isFree)
    (hzero : m'.census isZero + zeroed = m.census isZero)
    (hused : m'.census isAllocated = m.census isAllocated + count)
    (hf : m'.freePages = wrappingSub m.freePages count)
    (hz : m'.zeroPages = wrappingSub m.zeroPages zeroed)
    (hu : m'.usedPages = wrappingAdd m.usedPages count) : Counted m' := by
  have hlen : m'.usable.length = m.usable.length := by rw [usable, hsegments, usable]
  have h3 := m'.census_le isAllocated
  refine ⟨?_, ?_, ?_⟩
  · rw [hf, h.free, wrappingSub_eq (by omega)]
    omega
  · rw [hz, h.zero, wrappingSub_eq (by omega)]
    omega
  · rw [hu, h.used, wrappingAdd_eq (by omega), hused]

theorem census_allocate {m : Phys} {held : List (ℕ × Bool)} {pfn : ℕ} {zero : Bool} {frame : Frame}
    (h : Placed m ((pfn, zero) :: held)) (hf : frame.state = .allocated) :
    (m.setFrame pfn frame).census isFree + 1 = m.census isFree ∧
      (m.setFrame pfn frame).census isZero + zero.toNat = m.census isZero ∧
      (m.setFrame pfn frame).census isAllocated = m.census isAllocated + 1 := by
  obtain ⟨hu, hstate⟩ := h.of_held
  have change := census_setFrame h.usable_nodup hu frame
  have h1 := change isFree
  have h2 := change isZero
  have h3 := change isAllocated
  rw [hstate, hf] at h1 h2 h3
  cases zero
  · exact ⟨h1, h2, h3⟩
  · exact ⟨h1, h2, h3⟩

theorem Allotted.single {m m' : Phys} {pfn : ℕ} {frame : Frame} (hsegments : m'.segments = m.segments)
    (hu : pfn ∈ m.usable) (hfree : isFree (m.frames pfn).state)
    (hframes : m'.frames = update m.frames pfn frame) (hf : frame.state = .allocated)
    (hmemory : ∀ other, other ≠ pfn → m'.memory other = m.memory other) :
    Allotted m m' pfn 1 where
  segments := hsegments
  given := by
    intro other hle hlt
    obtain rfl : other = pfn := by omega
    rw [hframes, update_self]
    exact ⟨hu, hfree, hf⟩
  others := by
    intro other ho
    have hne : other ≠ pfn := by omega
    rw [hframes, update_of_ne hne]
    exact ⟨rfl, hmemory other hne⟩

end Phys

namespace PhysM
open Act Phys
variable {T : Panic → Prop} {E : Error → Phys → Prop} {m : Phys} {held : List (ℕ × Bool)}
  {id : Fin maxPageCpus} {zero : Bool} {pfn : ℕ}

section Pop
variable {Q : Option ℕ → Phys → Prop}

theorem wp_cachePop (hnone : (m.caches id).slots zero = [] → Q none m)
    (hsome : ∀ pfn rest, (m.caches id).slots zero = pfn :: rest →
      Q (some pfn) (m.setCache id zero rest)) :
    wp T (cachePop id zero) Q E m := by
  unfold cachePop
  rw [wp_bind, wp_get]
  cases hc : (m.caches id).slots zero with
  | nil => exact hnone hc
  | cons pfn rest => exact hsome pfn rest hc

theorem wp_popFront (hnone : m.queue zero = [] → Q none m)
    (hsome : ∀ pfn rest, m.queue zero = pfn :: rest → Q (some pfn) (m.setQueue zero rest)) :
    wp T (popFront zero) Q E m := by
  unfold popFront
  rw [wp_bind, wp_get]
  cases hc : m.queue zero with
  | nil => exact hnone hc
  | cons pfn rest => exact hsome pfn rest hc

end Pop

theorem wp_popEither {Q : Option (ℕ × Bool) → Phys → Prop} {pop : Bool → PhysM (Option ℕ)}
    (lists : Bool → List ℕ) (take : Bool → List ℕ → Phys)
    (hpop : ∀ zero (R : Option ℕ → Phys → Prop), (lists zero = [] → R none m) →
      (∀ pfn rest, lists zero = pfn :: rest → R (some pfn) (take zero rest)) →
      wp T (pop zero) R E m)
    (hnone : (∀ zero, lists zero = []) → Q none m)
    (hsome : ∀ pfn zero rest, lists zero = pfn :: rest → Q (some (pfn, zero)) (take zero rest)) :
    wp T (popEither pop zero) Q E m := by
  unfold popEither
  rw [wp_bind]
  apply hpop
  · intro hempty
    rw [wp_bind]
    apply hpop
    · intro hother
      apply hnone
      intro y
      by_cases hy : y = zero
      · rwa [hy]
      · rwa [Bool.eq_not_of_ne hy]
    · intro pfn rest hlist
      exact hsome pfn _ rest hlist
  · intro pfn rest hlist
    exact hsome pfn _ rest hlist

theorem wp_popEither_cache {Q : Option (ℕ × Bool) → Phys → Prop}
    (hnone : (∀ zero, (m.caches id).slots zero = []) → Q none m)
    (hsome : ∀ pfn zero rest, (m.caches id).slots zero = pfn :: rest →
      Q (some (pfn, zero)) (m.setCache id zero rest)) :
    wp T (popEither (cachePop id) zero) Q E m :=
  wp_popEither (m.caches id).slots (m.setCache id) (fun _ _ => wp_cachePop) hnone hsome

theorem wp_cachePush {Q : Bool → Phys → Prop} (h : Inv m ((pfn, zero) :: held))
    (hfull : ((m.caches id).slots zero).length = pageCacheCapacity → Q false m)
    (hroom : Inv (m.setCache id zero (pfn :: (m.caches id).slots zero)) held →
      Q true (m.setCache id zero (pfn :: (m.caches id).slots zero))) :
    wp T (cachePush id pfn zero) Q E m := by
  unfold cachePush
  rw [wp_bind, wp_get]
  by_cases hc : ((m.caches id).slots zero).length = pageCacheCapacity
  · rw [if_pos hc]
    exact hfull hc
  · rw [if_neg hc]
    have hlt := lt_of_le_of_ne (h.placed.room id zero) hc
    exact hroom ⟨h.placed.pushCache hlt, h.nfree, { h.counted with }⟩

theorem wp_pushQueue {Q : Unit → Phys → Prop} (h : Inv m ((pfn, zero) :: held))
    (hback : ∀ l, l.Perm (pfn :: m.queue zero) →
      Inv ({ m with nfree := m.nfree + 1 }.setQueue zero l) held →
      Q () ({ m with nfree := m.nfree + 1 }.setQueue zero l)) :
    wp T (do addFree 1; pushBack zero pfn) Q E m ∧ wp T (do addFree 1; pushFront zero pfn) Q E m := by
  have hlink : ¬ ({ m with nfree := m.nfree + 1 } : Phys).Linked pfn := h.placed.not_linked_of_held
  constructor
  · simp only [addFree, pushBack, wp_bind, wp_modify, wp_get, wp_check hlink]
    have hperm : (m.queue zero ++ [pfn]).Perm (pfn :: m.queue zero) :=
      List.perm_append_singleton _ _
    exact hback _ hperm (h.pushQueue hperm)
  · simp only [addFree, pushFront, wp_bind, wp_modify, wp_get, wp_check hlink]
    exact hback _ (List.Perm.refl _) (h.pushQueue (List.Perm.refl _))

theorem wp_named {Q : Option (ℕ × Bool) → Phys → Prop} (entry : Option (ℕ × Bool))
    (h : Inv m (entry.toList ++ held)) (hQ : Q entry m) : wp T (named entry) Q E m := by
  cases entry with
  | none => exact hQ
  | some entry =>
    obtain ⟨pfn, zero⟩ := entry
    have hu : pfn ∈ m.usable := (h.placed.of_held).1
    unfold named
    rw [wp_bind, wp_get, h.placed.pageByIndex_eq hu]
    exact hQ

theorem popCache_spec (h : Inv m held) :
    wp T (popCache id zero) (fun entry m' => Moved m m' ∧ Inv m' (entry.toList ++ held)) E m := by
  unfold popCache
  rw [wp_bind]
  apply wp_popEither_cache
  · intro _
    exact wp_named none h ⟨Moved.refl m, h⟩
  · intro pfn zero rest hc
    have hpop := h.popCache hc
    exact wp_named (some (pfn, zero)) hpop ⟨Moved.setCache _ _ _ _, hpop⟩

/-- What a refill leaves of the shared free frames: the reserve of the kernel to a caller without
access to it, that of the page daemon to any other thread, and all but one where few are left. -/
structure Reserved (caller : Caller) (useReserve : Bool) (before after : ℕ) : Prop where
  kernel : useReserve = false → kernelPagesPerCpu * caller.cpus ≤ before →
    kernelPagesPerCpu * caller.cpus ≤ after
  daemon : caller.daemon = false → daemonPages ≤ before → daemonPages ≤ after
  single : before ≤ kernelPagesPerCpu * max caller.cpus 1 → before ≤ after + 1

theorem Reserved.refl (caller : Caller) (useReserve : Bool) (n : ℕ) :
    Reserved caller useReserve n n := ⟨fun _ h => h, fun _ h => h, fun _ => Nat.le_succ n⟩

theorem Reserved.round {caller : Caller} {useReserve : Bool} {n after : ℕ}
    (hd : access n caller.cpus useReserve caller.daemon ≠ .denied)
    (hs : access n caller.cpus useReserve caller.daemon = .single → after = n - 1)
    (hf : access n caller.cpus useReserve caller.daemon ≠ .single →
      Reserved caller useReserve (n - 1) after) : Reserved caller useReserve n after := by
  have hfew : kernelPagesPerCpu * caller.cpus ≤ kernelPagesPerCpu * max caller.cpus 1 :=
    Nat.mul_le_mul_left _ (le_max_left _ _)
  have hone : daemonPages ≤ kernelPagesPerCpu * max caller.cpus 1 :=
    Nat.mul_pos (by decide) (by omega)
  unfold access at hd hs hf
  split_ifs at hd hs hf with hzero hlow hdenied
  · simp at hd
  · simp at hd
  · have hafter := hs rfl
    simp only [Bool.or_eq_true, Bool.not_eq_true', Bool.and_eq_true, decide_eq_true_eq, not_or,
      not_and, Bool.not_eq_false] at hdenied
    refine ⟨fun hu => absurd hdenied.1 (by simp [hu]), fun hdaemon _ => ?_, fun _ => by omega⟩
    by_contra hlt
    have := hdenied.2 (by omega)
    rw [hdaemon] at this
    cases this
  · have hrest := hf (by simp)
    exact ⟨fun hu _ => hrest.kernel hu (by omega), fun hdaemon _ => hrest.daemon hdaemon (by omega),
      fun hle => absurd hle hlow⟩

theorem refillRounds_spec (caller : Caller) (useReserve : Bool) (n : ℕ) (h : Inv m held) :
    wp T (refillRounds caller id zero useReserve n)
      (fun _ m' => Moved m m' ∧ Inv m' held ∧ Reserved caller useReserve m.nfree m'.nfree) E m := by
  induction n generalizing m with
  | zero => exact ⟨Moved.refl m, h, .refl _ _ _⟩
  | succ n ih =>
    unfold refillRounds
    rw [wp_bind, wp_get]
    by_cases hd : access m.nfree caller.cpus useReserve caller.daemon = .denied
    · rw [if_pos hd]
      exact ⟨Moved.refl m, h, .refl _ _ _⟩
    · rw [if_neg hd, wp_bind]
      apply wp_popEither m.queue m.setQueue (fun _ _ => wp_popFront)
        fun _ => ⟨Moved.refl m, h, .refl _ _ _⟩
      intro pfn zero rest hq
      have hone : 1 ≤ (m.setQueue zero rest).nfree := h.one_le_nfree hq
      have hheld := h.popQueue hq
      have hmoved : Moved m { m.setQueue zero rest with nfree := m.nfree - 1 } := ⟨rfl, rfl, rfl, rfl⟩
      simp only [subFree, wp_bind, wp_get, wp_check hone]
      apply wp_cachePush hheld
      · intro _
        apply (wp_pushQueue hheld _).2
        intro l _ hinv
        refine ⟨hmoved.trans ⟨rfl, rfl, rfl, rfl⟩, hinv, ?_⟩
        rw [show (({ m.setQueue zero rest with nfree := m.nfree - 1 + 1 } : Phys).setQueue zero l).nfree =
          m.nfree from Nat.sub_add_cancel hone]
        exact .refl _ _ _
      · intro hinv
        rw [if_pos rfl]
        split_ifs with hs
        · exact ⟨hmoved.trans (Moved.setCache _ _ _ _), hinv, .round hd (fun _ => rfl) fun hf =>
            absurd hs hf⟩
        · apply wp_post (ih hinv)
          rintro _ m' ⟨hmoved', hinv', hkept⟩
          exact ⟨(hmoved.trans (Moved.setCache _ _ _ _)).trans hmoved', hinv',
            .round hd (fun h => absurd h hs) fun _ => hkept⟩

theorem stealFrom_spec (localId : Fin maxPageCpus) (ids : List (Fin maxPageCpus)) (h : Inv m held) :
    wp T (stealFrom localId zero ids)
      (fun entry m' => Moved m m' ∧ Inv m' (entry.toList ++ held)) E m := by
  induction ids with
  | nil => exact ⟨Moved.refl m, h⟩
  | cons id rest ih =>
    unfold stealFrom
    by_cases hid : id = localId
    · rw [if_pos hid]
      exact ih
    · rw [if_neg hid, wp_bind]
      apply wp_popEither_cache
      · intro _
        exact ih
      · intro pfn zero slots hc
        have hpop := h.popCache hc
        exact wp_named (some (pfn, zero)) hpop ⟨Moved.setCache _ _ _ _, hpop⟩

theorem wp_cacheId {Q : Fin maxPageCpus → Phys → Prop} {cpu : ℕ} (hT : T .cpuBeyondPageCaches)
    (hQ : ∀ id, Q id m) : wp T (cacheId cpu) Q E m := by
  unfold cacheId
  split
  · exact hQ _
  · exact hT

theorem takePage_spec (caller : Caller) (useReserve : Bool) (hT : T .cpuBeyondPageCaches)
    (h : Inv m held) :
    wp T (takePage caller zero useReserve)
      (fun entry m' => Moved m m' ∧ Inv m' (entry.toList ++ held)) E m := by
  unfold takePage
  simp only [wp_bind]
  apply wp_cacheId hT
  intro id
  apply wp_post (popCache_spec h)
  rintro entry m₁ ⟨hmoved₁, hinv₁⟩
  cases entry with
  | some entry => exact ⟨hmoved₁, hinv₁⟩
  | none =>
    unfold refillCache
    rw [wp_bind]
    apply wp_post (refillRounds_spec caller useReserve _ hinv₁)
    rintro _ m₂ ⟨hmoved₂, hinv₂, _⟩
    rw [wp_bind]
    apply wp_post (popCache_spec hinv₂)
    rintro entry m₃ ⟨hmoved₃, hinv₃⟩
    have hmoved := (hmoved₁.trans hmoved₂).trans hmoved₃
    cases entry with
    | some entry => exact ⟨hmoved, hinv₃⟩
    | none =>
      apply wp_post (stealFrom_spec id _ hinv₃)
      rintro entry m₄ ⟨hmoved₄, hinv₄⟩
      exact ⟨hmoved.trans hmoved₄, hinv₄⟩

theorem wp_prepareAllocation {Q : Unit → Phys → Prop} {usage : PageUse}
    (h : Placed m ((pfn, zero) :: held))
    (hQ : ∀ frame : Frame, frame.state = .allocated → Q () (m.setFrame pfn frame)) :
    wp T (prepareAllocation usage pfn) Q E m := by
  have hstate : (m.frames pfn).state = .free ∨ (m.frames pfn).state = .zero := by
    rw [h.of_held.2]
    cases zero <;> decide
  unfold prepareAllocation
  rw [wp_bind, wp_get, wp_bind, wp_check hstate, wp_bind, wp_check h.not_linked_of_held]
  exact hQ _ rfl

theorem isFree_freeState (zero : Bool) : isFree (freeState zero) := by
  cases zero <;> rfl

def AllocResult (m : Phys) (flags : PageAllocFlags) (result : Option ℕ) (m' : Phys) : Prop :=
  match result with
  | none => Moved m m'
  | some pfn => Allotted m m' pfn 1 ∧ (flags.zero → m'.memory pfn = default)

theorem allocPage_spec (caller : Caller) (usage : PageUse) (flags : PageAllocFlags)
    (hT : T .cpuBeyondPageCaches) (hT' : T .invalidPageUse) (h : Inv m []) :
    wp T (allocPage caller usage flags)
      (fun result m' => Inv m' [] ∧ AllocResult m flags result m') E m := by
  unfold allocPage
  rw [wp_bind]
  by_cases hd : usage.Dynamic
  swap
  · rw [check, if_neg hd]
    exact hT'
  rw [wp_check hd, wp_bind]
  apply wp_post (takePage_spec caller _ hT h)
  rintro entry m₁ ⟨hmoved, hinv⟩
  cases entry with
  | none => exact ⟨hinv, hmoved⟩
  | some entry =>
    obtain ⟨pfn, zero⟩ := entry
    have hplaced : Placed m₁ ((pfn, zero) :: []) := hinv.placed
    obtain ⟨hu, hstate⟩ := hplaced.of_held
    have hclean : zero = true → m₁.memory pfn = default := by
      intro hz
      apply hplaced.clean pfn hu
      rw [hstate, hz]
      rfl
    have hufree : pfn ∈ m.usable ∧ isFree (m.frames pfn).state := by
      rw [← hmoved.frames, hstate, usable, ← hmoved.segments]
      exact ⟨hu, isFree_freeState zero⟩
    simp only [wp_bind]
    have hplaced' : Placed (m₁.recordAllocated 1 zero.toNat) ((pfn, zero) :: []) :=
      hplaced.congr rfl rfl rfl rfl rfl rfl
    apply wp_prepareAllocation hplaced'
    intro frame hf
    obtain ⟨hcfree, hczero, hcused⟩ := census_allocate hplaced hf
    have hfinal : Inv ((m₁.recordAllocated 1 zero.toNat).setFrame pfn frame) [] :=
      ⟨hplaced'.allocate hf, hinv.nfree,
        hinv.counted.spend rfl hplaced.few hcfree hczero hcused rfl rfl rfl⟩
    have hframes : ((m₁.recordAllocated 1 zero.toNat).setFrame pfn frame).frames =
        update m.frames pfn frame := by
      rw [← hmoved.frames]
      rfl
    unfold zeroPageIf
    split_ifs with hneed
    · -- a dirty frame is cleared after it has been claimed
      refine ⟨⟨hfinal.placed.write ?_ default, hfinal.nfree,
        { hfinal.counted with }⟩, ?_, ?_⟩
      · simp [Phys.setFrame, hf]
      · refine Allotted.single hmoved.segments hufree.1 hufree.2 hframes hf ?_
        intro other ho
        rw [← hmoved.memory]
        exact update_of_ne ho _ _
      · intro _
        exact update_self _ _ _
    · refine ⟨hfinal, ?_, ?_⟩
      · refine Allotted.single hmoved.segments hufree.1 hufree.2 hframes hf ?_
        intro other ho
        rw [← hmoved.memory]
        rfl
      · intro hzero
        apply hclean
        simpa [hzero] using hneed

end PhysM
end Roanix.Mem
