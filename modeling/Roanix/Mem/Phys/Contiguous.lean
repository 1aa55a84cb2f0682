import Roanix.Mem.Phys.Ops

/-! Contiguous allocation: the caches are drained, a run of free frames is found on the shared
lists, taken off them frame by frame, and then handed out. -/
namespace Roanix.Mem
open Lib List

namespace Phys
variable {m m' : Phys} {held : List (ℕ × Bool)} {pfn n : ℕ}

/-- The frames of a run as the ledger records them once they are off the lists. -/
def runHeld (m : Phys) : ℕ → ℕ → List (ℕ × Bool)
  | _, 0 => []
  | pfn, n + 1 => (pfn, isZero (m.frames pfn).state) :: m.runHeld (pfn + 1) n

def zeroesIn (m : Phys) : ℕ → ℕ → ℕ
  | _, 0 => 0
  | pfn, n + 1 => (isZero (m.frames pfn).state).toNat + m.zeroesIn (pfn + 1) n

theorem runHeld_congr (h : ∀ p, pfn ≤ p → m'.frames p = m.frames p) :
    m'.runHeld pfn n = m.runHeld pfn n ∧ m'.zeroesIn pfn n = m.zeroesIn pfn n := by
  induction n generalizing pfn with
  | zero => exact ⟨rfl, rfl⟩
  | succ n ih =>
    obtain ⟨hheld, hzeroes⟩ := @ih (pfn + 1) fun p hp => h p (by omega)
    unfold runHeld zeroesIn
    rw [h pfn le_rfl, hheld, hzeroes]
    exact ⟨rfl, rfl⟩

/-- A whole run of free frames on the lists of their kinds. -/
def OnLists (m : Phys) (pfn n : ℕ) : Prop :=
  ∀ p, pfn ≤ p → p < pfn + n → p ∈ m.queue (isZero (m.frames p).state)

theorem runFrom_eq (h : m.runFrom pfn n = n) : ∀ p, pfn ≤ p → p < pfn + n →
    (m.pageByIndex p).isSome ∧ m.IsLinkedFree p := by
  induction n generalizing pfn with
  | zero =>
    intro p hle hlt
    omega
  | succ n ih =>
    unfold runFrom at h
    split_ifs at h with hfirst
    intro p hle hlt
    by_cases hp : p = pfn
    · exact hp ▸ hfirst
    · exact @ih (pfn + 1) (by omega) p (by omega) (by omega)

theorem runFrom_ne (h : m.runFrom pfn n ≠ n) : m.runFrom pfn n < n ∧
    ¬((m.pageByIndex (pfn + m.runFrom pfn n)).isSome ∧ m.IsLinkedFree (pfn + m.runFrom pfn n)) := by
  induction n generalizing pfn with
  | zero => exact absurd rfl h
  | succ n ih =>
    unfold runFrom at h ⊢
    split_ifs at h ⊢ with hfirst
    · have hrest := @ih (pfn + 1) (by omega)
      rw [← Nat.add_assoc, Nat.add_right_comm]
      exact ⟨by omega, hrest.2⟩
    · exact ⟨Nat.succ_pos n, hfirst⟩

/-- The frames that `alloc_contiguous` may hand out: an aligned run below the limit, present and
linked free. -/
def FreeRun (m : Phys) (count align entries base : ℕ) : Prop :=
  align ∣ base ∧ base + count ≤ entries ∧
    ∀ p, base ≤ p → p < base + count → (m.pageByIndex p).isSome ∧ m.IsLinkedFree p

def Lowest (m : Phys) (count align entries : ℕ) : Option ℕ → Prop
  | none => ∀ s, ¬ m.FreeRun count align entries s
  | some base => IsLeast { s | m.FreeRun count align entries s } base

theorem Placed.onLists (hplaced : Placed m held) (h : ∀ p, pfn ≤ p → p < pfn + n →
    (m.pageByIndex p).isSome ∧ m.IsLinkedFree p) : m.OnLists pfn n := by
  intro p hle hlt
  rcases (h p hle hlt).2.2 with hlink | hlink
  · rw [(hplaced.of_bag none false hlink).2]
    exact hlink
  · rw [(hplaced.of_bag none true hlink).2]
    exact hlink

end Phys

namespace PhysM
open Act Phys
variable {T : Panic → Prop} {E : Error → Phys → Prop} {m : Phys} {held : List (ℕ × Bool)}
  {id : Fin maxPageCpus}

theorem drainCache_spec (fuel : ℕ) (h : Inv m held)
    (hfuel : (m.caches id).dirty.length + (m.caches id).zero.length ≤ fuel) :
    wp T (drainCache id fuel) (fun _ m' => Moved m m' ∧ Inv m' held ∧ m.nfree ≤ m'.nfree) E m := by
  induction fuel generalizing m with
  | zero =>
    have hempty : (m.caches id).dirty = [] ∧ (m.caches id).zero = [] := by
      constructor <;> apply eq_nil_of_length_eq_zero <;> omega
    unfold drainCache
    rw [wp_bind, wp_get, wp_check hempty]
    exact ⟨Moved.refl m, h, le_rfl⟩
  | succ fuel ih =>
    unfold drainCache
    rw [wp_bind]
    apply wp_popEither_cache
    · intro _
      exact ⟨Moved.refl m, h, le_rfl⟩
    · intro pfn zeroed rest hc
      have hpop := h.popCache hc
      have hless : ((m.setCache id zeroed rest).caches id).dirty.length +
          ((m.setCache id zeroed rest).caches id).zero.length ≤ fuel := by
        cases zeroed <;>
          simp [PageCache.slots, setCache, PageCache.setSlots] at hc ⊢ <;>
          rw [hc, length_cons] at hfuel <;> omega
      simp only [wp_bind, wp_get, hpop.placed.pageByIndex_eq hpop.placed.of_held.1]
      have hback := (wp_pushQueue (T := T) (E := E) (Q := fun _ m' =>
        wp T (drainCache id fuel) (fun _ m' => Moved m m' ∧ Inv m' held ∧ m.nfree ≤ m'.nfree) E m')
        hpop ?_).1
      · simpa only [wp_bind] using hback
      · intro l _ hinv
        apply wp_post (ih hinv hless)
        rintro _ m' ⟨hmoved, hinv', hle⟩
        exact ⟨{ hmoved with }, hinv',
          (Nat.le_succ _).trans hle⟩

theorem drainCaches_spec (ids : List (Fin maxPageCpus)) (h : Inv m held) :
    wp T (drainCaches ids) (fun _ m' => Moved m m' ∧ Inv m' held ∧ m.nfree ≤ m'.nfree) E m := by
  induction ids generalizing m with
  | nil => exact ⟨Moved.refl m, h, le_rfl⟩
  | cons id rest ih =>
    unfold drainCaches
    rw [wp_bind, wp_get, wp_bind]
    apply wp_post (drainCache_spec _ h le_rfl)
    rintro _ m₁ ⟨hmoved₁, hinv₁, hle₁⟩
    apply wp_post (ih hinv₁)
    rintro _ m₂ ⟨hmoved₂, hinv₂, hle₂⟩
    exact ⟨hmoved₁.trans hmoved₂, hinv₂, hle₁.trans hle₂⟩

theorem le_alignIndex (index : ℕ) {align : ℕ} (h : 0 < align) : index ≤ alignIndex index align := by
  unfold alignIndex
  have hdiv := Nat.div_add_mod (index + (align - 1)) align
  have hmod := Nat.mod_lt (index + (align - 1)) h
  rw [Nat.mul_comm] at hdiv
  omega

theorem alignIndex_le {index align base : ℕ} (halign : 0 < align) (hle : index ≤ base)
    (hbase : align ∣ base) : alignIndex index align ≤ base := by
  obtain ⟨k, rfl⟩ := hbase
  unfold alignIndex
  rw [Nat.mul_comm align k]
  refine Nat.mul_le_mul_right align (Nat.lt_succ_iff.mp ?_)
  rw [Nat.div_lt_iff_lt_mul halign, Nat.succ_mul, Nat.mul_comm k]
  omega

/-- The search ends, changes nothing, and finds the lowest run: none begins before the frame it has
come to. -/
theorem findRun_spec {count align entries : ℕ} (h : Placed m held) (hpos : 0 < count)
    (halign : 0 < align) (fuel start : ℕ) (hfuel : entries < start + fuel)
    (hlow : ∀ s, m.FreeRun count align entries s → start ≤ s) :
    wp T (findRun count align entries fuel start)
      (fun result m' => m' = m ∧ m.Lowest count align entries result) E m := by
  have hpast : ∀ start, (∀ s, m.FreeRun count align entries s → start ≤ s) →
      entries < start + count → m.Lowest count align entries none := by
    intro start hlow hlt s hs
    have := hlow s hs
    have := hs.2.1
    omega
  induction fuel generalizing start with
  | zero =>
    unfold findRun
    rw [wp_bind, wp_check (by omega)]
    exact ⟨rfl, hpast start hlow (by omega)⟩
  | succ fuel ih =>
    unfold findRun
    rw [wp_bind, wp_get]
    by_cases hend : entries < start + count
    · rw [if_pos hend]
      exact ⟨rfl, hpast start hlow hend⟩
    rw [if_neg hend]
    have hnext : ∀ s, m.FreeRun count align entries s →
        ∃ found, PhysSegment.next m.segments start = some found ∧ found ≤ s := by
      intro s hs
      have hsome := (hs.2.2 s le_rfl (by omega)).1
      rw [pageByIndex, Option.isSome_map, h.laid.isSome_lookup] at hsome
      exact h.laid.next_le (hlow s hs) hsome
    cases hfound : PhysSegment.next m.segments start with
    | none =>
      refine ⟨rfl, fun s hs => ?_⟩
      obtain ⟨found, hsome, -⟩ := hnext s hs
      rw [hfound] at hsome
      cases hsome
    | some found =>
      have hlow' : ∀ s, m.FreeRun count align entries s → alignIndex found align ≤ s := by
        intro s hs
        obtain ⟨found', hsome, hle⟩ := hnext s hs
        rw [hfound] at hsome
        cases hsome
        exact alignIndex_le halign hle hs.1
      have hle : start ≤ found := by
        obtain ⟨s, -, rfl⟩ := Option.map_eq_some_iff.mp hfound
        exact le_max_left _ _
      have hge := le_alignIndex found halign
      simp only
      generalize hbase : alignIndex found align = base at hlow' hge
      by_cases hend' : entries < base + count
      · rw [if_pos hend']
        exact ⟨rfl, hpast base hlow' hend'⟩
      rw [if_neg hend']
      by_cases hrun : m.runFrom base count = count
      · rw [if_pos hrun]
        refine ⟨rfl, ⟨?_, by omega, runFrom_eq hrun⟩, hlow'⟩
        rw [← hbase]
        exact Nat.dvd_mul_left _ _
      · rw [if_neg hrun]
        obtain ⟨hshort, hbreak⟩ := runFrom_ne hrun
        apply ih
        · have := le_alignIndex (max (base + m.runFrom base count) base + 1) halign
          omega
        · -- a run that begins up to the frame that broke this one would contain that frame
          intro s hs
          refine alignIndex_le halign ?_ hs.1
          by_contra hlt
          have := hlow' s hs
          exact hbreak (hs.2.2 _ (by omega) (by omega))

theorem removeRun_spec (pfn n : ℕ) (h : Placed m held) (hrun : m.OnLists pfn n) :
    wp T (removeRun pfn n)
      (fun result m' => result = some (m.zeroesIn pfn n) ∧ Moved m m' ∧
        Placed m' (m.runHeld pfn n ++ held) ∧
        m'.free.length + m'.zero.length + n = m.free.length + m.zero.length ∧
        m'.nfree = m.nfree ∧ m'.freePages = m.freePages ∧ m'.zeroPages = m.zeroPages ∧
        m'.usedPages = m.usedPages) E m := by
  induction n generalizing m held pfn with
  | zero => exact ⟨rfl, Moved.refl m, h, rfl, rfl, rfl, rfl, rfl⟩
  | succ n ih =>
    have hmem := hrun pfn le_rfl (by omega)
    set zero := isZero (m.frames pfn).state with hzero
    have hu := (h.of_bag none zero hmem).1
    have hpop := h.popQueue (perm_cons_erase hmem)
    have hlen := m.setQueue_length_add zero ((m.queue zero).erase pfn)
    have herase := length_erase_of_mem hmem
    have hpos := length_pos_of_mem hmem
    have hrest : (m.setQueue zero ((m.queue zero).erase pfn)).OnLists (pfn + 1) n := by
      intro p hle hlt
      have hp := hrun p (by omega) (by omega)
      change p ∈ (m.setQueue zero _).queue (isZero (m.frames p).state)
      by_cases hz : isZero (m.frames p).state = zero
      · rw [hz] at hp ⊢
        rw [queue_setQueue]
        exact (mem_erase_of_ne (by omega)).mpr hp
      · rw [show (m.setQueue zero _).queue (isZero (m.frames p).state) =
          m.queue (isZero (m.frames p).state) from m.bag_setQueue zero _ (j := none) (by simp [hz])]
        exact hp
    have hlisted : pfn ∈ m.queue (decide ((m.frames pfn).state = .zero)) := hmem
    unfold removeRun
    simp only [wp_bind, wp_get, h.pageByIndex_eq hu, unlink, wp_check hlisted]
    apply wp_post (ih (pfn + 1) hpop hrest)
    rintro result m' ⟨hresult, hmoved, hplaced, hlens, hnfree, hf, hz, hused⟩
    obtain ⟨hheld, hzeroes⟩ : (m.setQueue zero ((m.queue zero).erase pfn)).runHeld (pfn + 1) n =
        m.runHeld (pfn + 1) n ∧ (m.setQueue zero ((m.queue zero).erase pfn)).zeroesIn (pfn + 1) n =
        m.zeroesIn (pfn + 1) n := runHeld_congr fun _ _ => rfl
    rw [hzeroes] at hresult
    rw [hheld] at hplaced
    subst hresult
    refine ⟨rfl, { hmoved with }, ?_, ?_, hnfree, hf,
      hz, hused⟩
    · apply hplaced.perm
      exact perm_middle
    · omega

structure Prepared (m m' : Phys) (pfn n : ℕ) : Prop where
  allotted : Allotted m m' pfn n
  free : m'.free = m.free
  zero : m'.zero = m.zero
  nfree : m'.nfree = m.nfree
  freePages : m'.freePages = m.freePages
  zeroPages : m'.zeroPages = m.zeroPages
  usedPages : m'.usedPages = m.usedPages
  censusFree : m'.census isFree + n = m.census isFree
  censusZero : m'.census isZero + m.zeroesIn pfn n = m.census isZero
  censusUsed : m'.census isAllocated = m.census isAllocated + n

theorem Prepared.nil (m : Phys) (pfn : ℕ) : Prepared m m pfn 0 :=
  ⟨⟨rfl, fun p hle hlt => by omega, fun p _ => ⟨rfl, rfl⟩⟩, rfl, rfl, rfl, rfl, rfl, rfl, rfl, rfl,
    rfl⟩

theorem Prepared.cons {m' : Phys} {pfn n : ℕ} {frame : Frame}
    (h : Placed m ((pfn, isZero (m.frames pfn).state) :: held)) (hf : frame.state = .allocated)
    (hrest : Prepared (m.setFrame pfn frame) m' (pfn + 1) n) : Prepared m m' pfn (n + 1) := by
  obtain ⟨hcfree, hczero, hcused⟩ := census_allocate h hf
  obtain ⟨hu, hstate⟩ := h.of_held
  have hfree : isFree (m.frames pfn).state := by
    rw [hstate]
    exact isFree_freeState _
  have hother : ∀ p, p ≠ pfn → (m.setFrame pfn frame).frames p = m.frames p :=
    fun p hp => Function.update_of_ne hp _ _
  have hself : (m.setFrame pfn frame).frames pfn = frame := Function.update_self _ _ _
  have hsame : (m.setFrame pfn frame).zeroesIn (pfn + 1) n = m.zeroesIn (pfn + 1) n :=
    (runHeld_congr fun p hp => hother p (by omega)).2
  have hcensus := hrest.censusZero
  have hsum : m.zeroesIn pfn (n + 1) =
    (isZero (m.frames pfn).state).toNat + m.zeroesIn (pfn + 1) n := rfl
  have hfirst := (hrest.allotted.others pfn (by omega)).1
  refine ⟨⟨hrest.allotted.segments, ?_, ?_⟩, hrest.free, hrest.zero, hrest.nfree, hrest.freePages,
    hrest.zeroPages, hrest.usedPages, ?_, ?_, ?_⟩
  · intro p hle hlt
    by_cases hp : p = pfn
    · subst p
      refine ⟨hu, hfree, ?_⟩
      rw [hfirst, hself, hf]
    · have hgiven := hrest.allotted.given p (by omega) (by omega)
      rw [hother p hp] at hgiven
      exact hgiven
  · intro p hp
    have hrestp := hrest.allotted.others p (by omega)
    rw [hother p (by omega)] at hrestp
    exact hrestp
  · have := hrest.censusFree
    omega
  · omega
  · have := hrest.censusUsed
    omega

theorem prepareRun_spec (usage : PageUse) (pfn n : ℕ) (h : Placed m (m.runHeld pfn n ++ held)) :
    wp T (prepareRun usage pfn n)
      (fun result m' => result = true ∧ Placed m' held ∧ Prepared m m' pfn n) E m := by
  induction n generalizing m pfn with
  | zero => exact ⟨rfl, h, Prepared.nil m pfn⟩
  | succ n ih =>
    have hfirst : Placed m ((pfn, isZero (m.frames pfn).state) :: (m.runHeld (pfn + 1) n ++ held)) := h
    unfold prepareRun
    simp only [wp_bind, wp_get, hfirst.pageByIndex_eq hfirst.of_held.1]
    apply wp_prepareAllocation hfirst
    intro frame hf
    have hrest := hfirst.allocate hf
    have hsame : (m.setFrame pfn frame).runHeld (pfn + 1) n = m.runHeld (pfn + 1) n :=
      (runHeld_congr fun p hp => Function.update_of_ne (by omega) _ _).1
    rw [← hsame] at hrest
    apply wp_post (ih (pfn + 1) hrest)
    rintro result m' ⟨hresult, hplaced, hprepared⟩
    exact ⟨hresult, hplaced, Prepared.cons hfirst hf hprepared⟩

structure Taken (m m' : Phys) (base count : ℕ) : Prop extends Allotted m m' base count where
  nfree : m'.nfree + count = m.nfree
  freePages : m'.freePages + count = m.freePages
  zeroPages : m'.zeroPages + m.zeroesIn base count = m.zeroPages

theorem claimRun_spec (usage : PageUse) {count base : ℕ} (h : Inv m []) (hpos : 0 < count)
    (hrun : m.OnLists base count) :
    wp T (claimRun usage count base)
      (fun result m' => Inv m' [] ∧ result = some base ∧ Taken m m' base count) E m := by
  unfold claimRun
  rw [wp_bind]
  apply wp_post (removeRun_spec base count h.placed hrun)
  rintro result m₁ ⟨hresult, hmoved, hplaced, hlens, hnfree, hf, hz, hu⟩
  subst hresult
  have hinvn := h.nfree
  have hle : count ≤ m₁.nfree := by omega
  simp only [subFree, wp_bind, wp_get, wp_check hle]
  have hsame : ({ m₁ with nfree := m₁.nfree - count } : Phys).runHeld base count =
      m.runHeld base count ∧ ({ m₁ with nfree := m₁.nfree - count } : Phys).zeroesIn base count =
      m.zeroesIn base count := runHeld_congr fun p _ => congrFun hmoved.frames p
  have hplaced' : Placed { m₁ with nfree := m₁.nfree - count }
      (({ m₁ with nfree := m₁.nfree - count } : Phys).runHeld base count ++ []) := by
    rw [hsame.1]
    exact hplaced.congr rfl rfl rfl rfl rfl rfl
  apply wp_post (prepareRun_spec usage base count hplaced')
  rintro result m₂ ⟨hresult, hplaced₂, hprep⟩
  subst hresult
  have hcensus : ∀ p, ({ m₁ with nfree := m₁.nfree - count } : Phys).census p = m.census p :=
    census_congr hmoved.segments hmoved.frames
  have hsegments : m₂.segments = m.segments := hprep.allotted.segments.trans hmoved.segments
  have hmoved' : Moved m { m₁ with nfree := m₁.nfree - count } :=
    { hmoved with }
  have hallotted := hmoved'.allotted hprep.allotted
  have hbase : base ∈ m₂.usable := by
    rw [usable, hsegments]
    exact (hallotted.given base le_rfl (by omega)).1
  have hrecord : (m₂.recordAllocated count (m.zeroesIn base count)).pageByIndex base = some base :=
    hplaced₂.pageByIndex_eq hbase
  simp only [if_true, countAllocated, wp_bind, wp_modify, wp_get, wp_pure, hrecord]
  have hfree := hprep.censusFree
  have hzero := hprep.censusZero
  have hused := hprep.censusUsed
  rw [hcensus] at hfree hzero hused
  rw [hsame.2] at hzero
  have hinv : Inv (m₂.recordAllocated count (m.zeroesIn base count)) [] := by
    refine ⟨hplaced₂.congr rfl rfl rfl rfl rfl rfl, ?_, ?_⟩
    · have h1 := congrArg length hprep.free
      have h2 := congrArg length hprep.zero
      have h3 := hprep.nfree
      simp only [recordAllocated] at *
      omega
    · refine h.counted.spend hsegments h.placed.few hfree hzero hused ?_ ?_ ?_
      · simp only [recordAllocated, hprep.freePages, hf]
      · simp only [recordAllocated, hprep.zeroPages, hz]
      · simp only [recordAllocated, hprep.usedPages, hu]
  refine ⟨hinv, trivial, { hallotted with }, ?_, ?_, ?_⟩
  · have := hprep.nfree
    simp only [recordAllocated] at this ⊢
    omega
  · rw [hinv.counted.free, h.counted.free]
    exact hfree
  · rw [hinv.counted.zero, h.counted.zero]
    exact hzero

/-- What the caller of `alloc_contiguous` sees. -/
def ContiguousResult (m : Phys) (count : ℕ) (result : Option ℕ) (m' : Phys) : Prop :=
  match result with
  | none => Moved m m'
  | some base => Allotted m m' base count

/-- What `alloc_contiguous` does under the lock, where `reserve` frames are left. -/
structure Claimed (m m' : Phys) (reserve count align entries : ℕ) (result : Option ℕ) : Prop where
  lowest : count + reserve ≤ m.nfree → m.Lowest count align entries result
  kept : result = none → m' = m
  taken : ∀ base, result = some base → count + reserve ≤ m.nfree ∧ Taken m m' base count

theorem claimContiguous_spec (caller : Caller) (usage : PageUse) {count align : ℕ}
    (maxAddress : ℕ) (h : Inv m []) (hpos : 0 < count) (halign : 0 < align) :
    wp T (claimContiguous caller usage count align maxAddress)
      (fun result m' => Inv m' [] ∧ Claimed m m' (if caller.daemon then 0 else daemonPages) count align
        (min m.maxPfn (min (maxAddress + 1) u64Max / pageSize)) result) E m := by
  unfold claimContiguous
  rw [wp_bind, wp_get]
  generalize min m.maxPfn (min (maxAddress + 1) u64Max / pageSize) = entries
  generalize (if caller.daemon then 0 else daemonPages) = reserve
  by_cases hfew : entries < count
  · rw [if_pos hfew]
    refine ⟨h, fun _ s hs => ?_, fun _ => rfl, nofun⟩
    have := hs.2.1
    omega
  rw [if_neg hfew]
  by_cases hreserve : m.nfree < count + reserve
  · rw [if_pos hreserve]
    exact ⟨h, fun hle => by omega, fun _ => rfl, nofun⟩
  rw [if_neg hreserve, wp_bind]
  have hfirst : alignIndex 0 align = 0 :=
    Nat.le_zero.mp (alignIndex_le halign le_rfl (Nat.dvd_zero _))
  apply wp_post (findRun_spec h.placed hpos halign _ _ (by omega) fun s _ => hfirst.trans_le s.zero_le)
  rintro result m' ⟨hsame, hlowest⟩
  subst hsame
  cases result with
  | none => exact ⟨h, fun _ => hlowest, fun _ => rfl, nofun⟩
  | some base =>
    have hrun : m'.OnLists base count := h.placed.onLists hlowest.1.2.2
    apply wp_post (claimRun_spec usage h hpos hrun)
    rintro result m₂ ⟨hinv, hresult, htaken⟩
    subst hresult
    refine ⟨hinv, fun _ => hlowest, nofun, fun base' hb => ?_⟩
    cases hb
    exact ⟨by omega, htaken⟩

theorem allocContiguous_spec (caller : Caller) (usage : PageUse) (count alignPages maxAddress : ℕ)
    (hT : T .invalidPageUse) (h : Inv m []) :
    wp T (allocContiguous caller usage count alignPages maxAddress)
      (fun result m' => Inv m' [] ∧ ContiguousResult m count result m' ∧
        (caller.daemon = false → daemonPages ≤ m.nfree → daemonPages ≤ m'.nfree)) E m := by
  unfold allocContiguous
  by_cases hcount : count = 0
  · rw [if_pos hcount]
    exact ⟨h, Moved.refl m, fun _ hle => hle⟩
  rw [if_neg hcount, wp_bind]
  by_cases hd : usage.Dynamic
  swap
  · rw [check, if_neg hd]
    exact hT
  rw [wp_check hd]
  by_cases halign : IsPowerOfTwo (max alignPages 1)
  swap
  · rw [if_pos halign]
    exact ⟨h, Moved.refl m, fun _ hle => hle⟩
  rw [if_neg (not_not.mpr halign), wp_bind]
  apply wp_post (drainCaches_spec _ h)
  rintro _ m₁ ⟨hmoved, hinv, hle⟩
  apply wp_post (claimContiguous_spec caller usage maxAddress hinv (Nat.pos_of_ne_zero hcount)
    halign.pos)
  rintro result m' ⟨hinv', hclaimed⟩
  refine ⟨hinv', ?_⟩
  cases result with
  | none =>
    obtain rfl := hclaimed.kept rfl
    exact ⟨hmoved, fun _ hone => hone.trans hle⟩
  | some base =>
    obtain ⟨hreserve, htaken⟩ := hclaimed.taken base rfl
    refine ⟨hmoved.allotted htaken.toAllotted, fun hdaemon _ => ?_⟩
    have hnfree := htaken.nfree
    simp only [hdaemon, Bool.false_eq_true, if_false] at hreserve
    omega

end PhysM
end Roanix.Mem
