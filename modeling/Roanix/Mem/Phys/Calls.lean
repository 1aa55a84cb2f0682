import Mathlib.Data.Fintype.BigOperators
import Roanix.Mem.Phys.Contiguous
import Roanix.Mem.Phys.Free

/-! The allocator as `init` leaves it, and the calls from there on: callers allocate frames, store
into those they own and give them back; the daemon zeroes free frames. -/
namespace Roanix.Mem
open Lib Act PhysSegment

namespace Phys
open List
variable {chunk : ℕ → Bool} {l : List ℕ} {m m' : Phys}

/-- What the placement loop does to each part of the state. -/
structure PlacedFrom (chunk : ℕ → Bool) (l : List ℕ) (m m' : Phys) : Prop where
  segments : m'.segments = m.segments
  memory : m'.memory = m.memory
  zero : m'.zero = m.zero
  caches : m'.caches = m.caches
  zeroPages : m'.zeroPages = m.zeroPages
  free : m'.free = m.free ++ l.filter fun pfn => !chunk pfn
  freePages : m'.freePages = m.freePages + l.countP fun pfn => !chunk pfn
  usedPages : m'.usedPages = m.usedPages + l.countP chunk
  state : ∀ pfn, (m'.frames pfn).state =
    if pfn ∈ l then if chunk pfn then .allocated else .free else (m.frames pfn).state

theorem place_spec (h : place chunk l m = .ok m') : PlacedFrom chunk l m m' := by
  induction l generalizing m with
  | nil =>
    obtain rfl : m = m' := by simpa [place] using h
    exact ⟨rfl, rfl, rfl, rfl, rfl, by simp, by simp, by simp, by simp⟩
  | cons pfn rest ih =>
    unfold place at h
    cases hp : m.pageByIndex pfn with
    | none => simp [hp] at h
    | some page =>
      obtain ⟨_, _, rfl⟩ := Option.map_eq_some_iff.mp hp
      simp only [hp] at h
      split_ifs at h with hc
      · have hrest := ih h
        refine { hrest with free := ?_, freePages := ?_, usedPages := ?_, state := ?_ }
        · rw [hrest.free, filter_cons_of_neg (by simp [hc])]
          rfl
        · rw [hrest.freePages, countP_cons_of_neg (by simp [hc])]
          rfl
        · rw [hrest.usedPages, countP_cons_of_pos hc]
          simp only
          omega
        · intro other
          rw [hrest.state]
          by_cases ho : other = pfn
          · subst other
            simp [hc, setFrame]
          · simp [ho, setFrame]
      · have hrest := ih h
        refine { hrest with free := ?_, freePages := ?_, usedPages := ?_, state := ?_ }
        · rw [hrest.free, filter_cons_of_pos (by simp [hc])]
          simp
        · rw [hrest.freePages, countP_cons_of_pos (by simp [hc])]
          simp only
          omega
        · rw [hrest.usedPages, countP_cons_of_neg hc]
          rfl
        · intro other
          rw [hrest.state]
          by_cases ho : other = pfn
          · subst other
            simp [hc, setFrame]
          · simp [ho, setFrame]

theorem inv_of_placed {segments : List PhysSegment} {maxPfn : ℕ} {memory : ℕ → Page}
    (hlaid : PhysSegment.Laid 0 0 segments)
    (hperm : (frameNumbers segments).Perm l)
    (hfew : (frameNumbers segments).length < 2 ^ 64)
    (h : PlacedFrom chunk l (blank segments maxPfn memory) m) :
    Inv { m with nfree := m.freePages } [] := by
  have husable : m.usable = frameNumbers segments := by rw [usable, h.segments, blank]
  have hmem : ∀ pfn, pfn ∈ m.usable ↔ pfn ∈ l := fun pfn => husable ▸ hperm.mem_iff
  have hnodup : l.Nodup := hperm.nodup_iff.mp hlaid.nodup
  have hfree : m.free = l.filter fun pfn => !chunk pfn := h.free
  have hzero : m.zero = [] := h.zero
  have hslots : ∀ id zero, (m.caches id).slots zero = [] := by
    intro id zero
    rw [h.caches]
    cases zero <;> rfl
  have hstate : ∀ pfn ∈ l, (m.frames pfn).state = if chunk pfn then .allocated else .free := by
    intro pfn hp
    rw [h.state, if_pos hp]
  have hcensus : ∀ (p : PageState → Bool) (q : Bool → Bool),
      (∀ c : Bool, p (if c then .allocated else .free) = q c) →
      m.census p = l.countP fun pfn => q (chunk pfn) := by
    intro p q hpq
    rw [census, husable, hperm.countP_eq]
    exact countP_congr fun pfn hp => by rw [hstate pfn hp, hpq]
  refine ⟨⟨?_, ?_, ?_, ?_, ?_, ?_⟩, ?_, ?_, ?_, ?_⟩
  · exact h.segments ▸ hlaid
  · exact husable ▸ hfew
  · intro zero pfn
    have hcaches : ∑ id, ((m.caches id).slots zero).count pfn = 0 := by
      simp [hslots]
    have hkind : m.kind pfn = some zero ↔ pfn ∈ l ∧ chunk pfn = false ∧ zero = false := by
      rw [kind_eq_some, hmem]
      constructor
      · rintro ⟨hp, hs⟩
        cases hc : chunk pfn <;> cases zero <;> simp_all [freeState]
      · rintro ⟨hp, hc, hz⟩
        rw [hstate pfn hp, hc, hz]
        exact ⟨hp, rfl⟩
    have hqueue : (m.queue zero).count pfn = if m.kind pfn = some zero then 1 else 0 := by
      simp only [hkind]
      cases zero
      · change m.free.count pfn = _
        rw [hfree, (hnodup.filter _).count]
        simp
      · change m.zero.count pfn = _
        rw [hzero]
        simp
    rw [occurrences, Fintype.sum_option]
    exact (congrArg₂ _ (congrArg₂ _ rfl hcaches) rfl).trans hqueue
  · intro pfn hp
    have := hstate pfn ((hmem pfn).mp hp)
    rw [this]
    cases chunk pfn <;> decide
  · intro pfn hp hz
    have := hstate pfn ((hmem pfn).mp hp)
    rw [this] at hz
    cases hc : chunk pfn <;> simp [hc] at hz
  · intro id zero
    rw [hslots]
    exact Nat.zero_le _
  · change m.freePages = m.free.length + m.zero.length
    rw [h.freePages, hfree, hzero, countP_eq_length_filter]
    simp [blank]
  · change m.freePages = m.census isFree
    rw [h.freePages, hcensus isFree (!·) (by decide)]
    simp [blank]
  · change m.zeroPages = m.census isZero
    rw [h.zeroPages, hcensus isZero (fun _ => false) (by decide)]
    simp [blank]
  · change m.usedPages = m.census isAllocated
    rw [h.usedPages, hcensus isAllocated id (by decide)]
    simp [blank]

theorem populate_spec {ranges : List (ℕ × ℕ)} {maximumPfn : ℕ} {memory : ℕ → Page}
    (h : populate ranges maximumPfn memory chunk = .ok m) : Inv m [] := by
  unfold populate at h
  cases hsegments : initializeSegments
      (ranges.map fun range => ⟨range.1 / pageSize, range.2 / pageSize, 0⟩) with
  | error e => simp [hsegments, bind, Except.bind] at h
  | ok table =>
    obtain ⟨segments, total⟩ := table
    obtain ⟨hlaid, hperm, htotal, hlt⟩ := initializeSegments_spec hsegments
    rw [frameNumbers, frameNumbers, flatMap_map] at hperm
    simp only [hsegments, bind, Except.bind, pure, Except.pure, throw, throwThe] at h
    split_ifs at h
    cases hplace : place chunk (ranges.flatMap rangeFrames) (blank segments maximumPfn memory) with
    | error e => simp [hplace] at h
    | ok m' =>
      simp only [hplace, Except.ok.injEq] at h
      subst h
      exact inv_of_placed hlaid hperm (htotal ▸ hlt) (place_spec hplace)

theorem init_spec {entryBytes : ℕ} {mmap : List MemoryEntry} {memory : ℕ → Page}
    (h : init entryBytes mmap memory = .ok m) : Inv m [] := by
  unfold init at h
  simp only [bind, Except.bind, throw, throwThe] at h
  repeat' split at h
  all_goals first | cases h | exact populate_spec h

variable {held : List (ℕ × Bool)} {pfn : ℕ}

theorem Inv.touch (h : Inv m held) {frame : Frame} (ha : (m.frames pfn).state = .allocated)
    (hf : frame.state = .allocated) : Inv (m.setFrame pfn frame) held := by
  have hstate : ∀ other, ((m.setFrame pfn frame).frames other).state = (m.frames other).state :=
    update_congr Frame.state (hf.trans ha.symm)
  have hkind : (m.setFrame pfn frame).kind = m.kind := by
    funext other
    unfold kind
    rw [hstate]
    rfl
  have hcensus : ∀ p, (m.setFrame pfn frame).census p = m.census p := by
    intro p
    unfold census
    simp only [hstate]
    rfl
  refine ⟨⟨h.placed.laid, h.placed.few, ?_, ?_, ?_, h.placed.room⟩, h.nfree, ?_, ?_, ?_⟩
  · rw [hkind]
    exact h.placed.ledger
  · intro other hu
    rw [hstate]
    exact h.placed.known other hu
  · intro other hu
    rw [hstate]
    exact h.placed.clean other hu
  · exact h.counted.free.trans (hcensus isFree).symm
  · exact h.counted.zero.trans (hcensus isZero).symm
  · exact h.counted.used.trans (hcensus isAllocated).symm

end Phys

namespace PhysM
open Phys

structure Session where
  phys : Phys
  owned : List ℕ

inductive Call where
  | allocPage (caller : Caller) (usage : PageUse) (flags : PageAllocFlags)
  | allocContiguous (caller : Caller) (usage : PageUse) (count alignPages maxAddress : ℕ)
  | freePage (caller : Caller) (pfn : ℕ)
  | freeZeroedPage (caller : Caller) (pfn : ℕ)
  | freeContiguous (caller : Caller) (first count : ℕ)
  | zeroFreePages (maximum : ℕ)
  | refillCache (caller : Caller) (id : Fin maxPageCpus) (wantZero useReserve : Bool)
  | drainPageCaches
  | write (pfn : ℕ) (page : Page)
  | touch (pfn : ℕ) (frame : Frame)

/-- Callers free, and store into, frames they own; a page freed as zeroed holds zeros. -/
def Call.Allowed (σ : Session) : Call → Prop
  | .freePage _ pfn => pfn ∈ σ.owned
  | .freeZeroedPage _ pfn => pfn ∈ σ.owned ∧ σ.phys.memory pfn = default
  | .freeContiguous _ first count => ∀ pfn ∈ List.range' first count, pfn ∈ σ.owned
  | .write pfn _ => pfn ∈ σ.owned
  | .touch pfn frame => pfn ∈ σ.owned ∧ frame.state = .allocated
  | _ => True

def Call.exec : Call → PhysM (List ℕ)
  | .allocPage caller usage flags => do return (← PhysM.allocPage caller usage flags).toList
  | .allocContiguous caller usage count alignPages maxAddress => do
    match ← PhysM.allocContiguous caller usage count alignPages maxAddress with
    | none => return []
    | some base => return List.range' base count
  | .freePage caller pfn => do
    PhysM.freePage caller pfn
    return []
  | .freeZeroedPage caller pfn => do
    PhysM.freeZeroedPage caller pfn
    return []
  | .freeContiguous caller first count => do
    PhysM.freeContiguous caller first count
    return []
  | .zeroFreePages maximum => do
    let _ ← PhysM.zeroFreePages maximum
    return []
  | .refillCache caller id wantZero useReserve => do
    PhysM.refillCache caller id wantZero useReserve
    return []
  | .drainPageCaches => do
    PhysM.drainPageCaches
    return []
  | .write pfn page => do
    modify fun m => { m with memory := Function.update m.memory pfn page }
    return []
  | .touch pfn frame => do
    modify fun m => m.setFrame pfn frame
    return []

def Call.returns : Call → List ℕ
  | .freePage _ pfn => [pfn]
  | .freeZeroedPage _ pfn => [pfn]
  | .freeContiguous _ first count => List.range' first count
  | _ => []

def Session.after (σ : Session) (c : Call) (handed : List ℕ) (m : Phys) : Session :=
  ⟨m, handed ++ σ.owned.filter (· ∉ c.returns)⟩

inductive Reachable : Session → Prop
  | init {entryBytes : ℕ} {mmap : List MemoryEntry} {memory : ℕ → Page} {m : Phys}
      (h : Phys.init entryBytes mmap memory = .ok m) : Reachable ⟨m, []⟩
  | step {σ : Session} {c : Call} {handed : List ℕ} {m : Phys} (hσ : Reachable σ)
      (hc : c.Allowed σ) (h : c.exec σ.phys = .ok handed m) : Reachable (σ.after c handed m)

/-- A caller stops at a CPU without a cache, an invalid use, or a frame still referenced. -/
def MayStop (p : Panic) : Prop :=
  p = .cpuBeyondPageCaches ∨ p = .invalidPageUse ∨ p = .pageStillOwned ∨ p = .pageStillReferenced

theorem freeStops : FreeStops MayStop :=
  ⟨.inl rfl, .inr (.inr (.inl rfl)), .inr (.inr (.inr rfl))⟩

structure Session.Good (σ : Session) : Prop where
  inv : Inv σ.phys []
  nodup : σ.owned.Nodup
  owned : ∀ pfn ∈ σ.owned, pfn ∈ σ.phys.usable ∧ (σ.phys.frames pfn).state = .allocated

/-- What a call does: it keeps the invariant, hands out only frames that nobody owns, and a page
asked for with `ZERO` holds zeros. -/
structure Served (σ : Session) (c : Call) (handed : List ℕ) (m : Phys) : Prop where
  good : (σ.after c handed m).Good
  fresh : ∀ pfn ∈ handed, pfn ∉ σ.owned
  zero : ∀ caller usage flags, c = .allocPage caller usage flags → flags.zero = true →
    ∀ pfn ∈ handed, m.memory pfn = default

section Serve
variable {σ : Session} {c : Call} {m : Phys}

theorem Served.of_kept (h : σ.Good) (hinv : Inv m []) (hsegments : m.segments = σ.phys.segments)
    (hstate : ∀ pfn ∈ σ.owned, pfn ∉ c.returns →
      (m.frames pfn).state = (σ.phys.frames pfn).state) : Served σ c [] m where
  good := by
    refine ⟨hinv, h.nodup.filter _, ?_⟩
    intro pfn hp
    obtain ⟨hp, hback⟩ := List.mem_filter.mp hp
    have husable : m.usable = σ.phys.usable := by rw [usable, hsegments, usable]
    obtain ⟨hu, ha⟩ := h.owned pfn hp
    exact ⟨husable ▸ hu, (hstate pfn hp (by simpa using hback)).trans ha⟩
  fresh := by simp
  zero := by simp

theorem Served.of_allotted {base count : ℕ} (h : σ.Good) (hinv : Inv m [])
    (hback : c.returns = []) (ha : Allotted σ.phys m base count)
    (hzero : ∀ caller usage flags, c = .allocPage caller usage flags → flags.zero = true →
      ∀ pfn ∈ List.range' base count, m.memory pfn = default) :
    Served σ c (List.range' base count) m := by
  have hgiven : ∀ pfn ∈ List.range' base count, pfn ∈ σ.phys.usable ∧
      isFree (σ.phys.frames pfn).state ∧ (m.frames pfn).state = .allocated := by
    intro pfn hp
    rw [List.mem_range'_1] at hp
    exact ha.given pfn hp.1 hp.2
  have husable : m.usable = σ.phys.usable := by rw [usable, ha.segments, usable]
  have hfresh : ∀ pfn ∈ List.range' base count, pfn ∉ σ.owned := by
    intro pfn hp ho
    have hfree := (hgiven pfn hp).2.1
    rw [(h.owned pfn ho).2] at hfree
    exact absurd hfree (by decide)
  have howned : (σ.after c (List.range' base count) m).owned = List.range' base count ++ σ.owned := by
    simp [Session.after, hback]
  refine ⟨⟨hinv, ?_, ?_⟩, hfresh, hzero⟩
  · rw [howned]
    apply List.Nodup.append (List.nodup_range' _) h.nodup
    intro pfn hp ho
    exact hfresh pfn hp ho
  · intro pfn hp
    rw [howned, List.mem_append] at hp
    change pfn ∈ m.usable ∧ (m.frames pfn).state = _
    rw [husable]
    rcases hp with hp | hp
    · exact ⟨(hgiven pfn hp).1, (hgiven pfn hp).2.2⟩
    · have hout : ¬ (base ≤ pfn ∧ pfn < base + count) := by
        intro hin
        exact hfresh pfn (List.mem_range'_1.mpr hin) hp
      rw [(ha.others pfn hout).1]
      exact h.owned pfn hp

theorem Call.exec_spec (h : σ.Good) (hc : c.Allowed σ) :
    wp MayStop c.exec (fun handed m => Served σ c handed m) (fun _ _ => False) σ.phys := by
  cases c with
  | allocPage caller usage flags =>
    simp only [exec, wp_bind]
    apply wp_post (allocPage_spec caller usage flags (.inl rfl) (.inr (.inl rfl)) h.inv)
    rintro result m ⟨hinv, hresult⟩
    cases result with
    | none => exact Served.of_kept h hinv hresult.segments fun pfn _ _ => by rw [hresult.frames]
    | some pfn =>
      apply Served.of_allotted h hinv rfl hresult.1
      intro _ _ _ hcall hzero other ho
      obtain rfl : other = pfn := by simpa using ho
      obtain ⟨-, -, rfl⟩ : caller = _ ∧ usage = _ ∧ flags = _ := by simpa using hcall
      exact hresult.2 hzero
  | allocContiguous caller usage count alignPages maxAddress =>
    simp only [exec, wp_bind]
    apply wp_post (allocContiguous_spec caller usage count alignPages maxAddress (.inr (.inl rfl))
      h.inv)
    rintro result m ⟨hinv, hresult, _⟩
    cases result with
    | none =>
      exact Served.of_kept h hinv (Moved.segments hresult) fun pfn _ _ => by
        rw [Moved.frames hresult]
    | some base =>
      apply Served.of_allotted h hinv rfl hresult
      intro _ _ _ hcall
      cases hcall
  | freePage caller pfn =>
    obtain ⟨hu, ha⟩ := h.owned pfn hc
    simp only [exec, wp_bind]
    apply wp_post (freePageInner_spec caller freeStops h.inv hu ha (fun hz => by cases hz))
    rintro _ m ⟨hinv, hback⟩
    refine Served.of_kept h hinv hback.segments fun other _ hne => ?_
    rw [hback.others other (by simp [Call.returns] at hne; omega)]
  | freeZeroedPage caller pfn =>
    obtain ⟨hu, ha⟩ := h.owned pfn hc.1
    simp only [exec, wp_bind]
    apply wp_post (freePageInner_spec caller freeStops h.inv hu ha (fun _ => hc.2))
    rintro _ m ⟨hinv, hback⟩
    refine Served.of_kept h hinv hback.segments fun other _ hne => ?_
    rw [hback.others other (by simp [Call.returns] at hne; omega)]
  | freeContiguous caller first count =>
    have hrun : ∀ p, first ≤ p → p < first + count →
        p ∈ σ.phys.usable ∧ (σ.phys.frames p).state = .allocated :=
      fun p hle hlt => h.owned p (hc p (List.mem_range'_1.mpr ⟨hle, hlt⟩))
    simp only [exec, wp_bind]
    apply wp_post (freeContiguous_spec caller freeStops first count h.inv hrun)
    rintro _ m ⟨hinv, hback⟩
    refine Served.of_kept h hinv hback.segments fun other _ hne => ?_
    rw [hback.others other (fun hin => hne (List.mem_range'_1.mpr hin))]
  | zeroFreePages maximum =>
    simp only [exec, wp_bind]
    apply wp_post (zeroFreePages_spec maximum h.inv)
    rintro _ m ⟨hinv, hcleared⟩
    refine Served.of_kept h hinv hcleared.segments fun pfn hp _ => ?_
    rw [(hcleared.kept pfn (h.owned pfn hp).2).1]
  | refillCache caller id wantZero useReserve =>
    simp only [exec, wp_bind]
    apply wp_post (refillRounds_spec caller useReserve _ h.inv)
    rintro _ m ⟨hmoved, hinv, _⟩
    exact Served.of_kept h hinv hmoved.segments fun pfn _ _ => by rw [hmoved.frames]
  | drainPageCaches =>
    simp only [exec, wp_bind]
    apply wp_post (drainCaches_spec _ h.inv)
    rintro _ m ⟨hmoved, hinv, _⟩
    exact Served.of_kept h hinv hmoved.segments fun pfn _ _ => by rw [hmoved.frames]
  | write pfn page =>
    have hplaced := h.inv.placed.write (h.owned pfn hc).2 page
    exact Served.of_kept h ⟨hplaced, h.inv.nfree, h.inv.counted.free, h.inv.counted.zero,
      h.inv.counted.used⟩ rfl fun _ _ _ => rfl
  | touch pfn frame =>
    have ha := (h.owned pfn hc.1).2
    exact Served.of_kept h (h.inv.touch ha hc.2) rfl fun other _ _ =>
      update_congr Frame.state (hc.2.trans ha.symm) other

theorem Reachable.good (h : Reachable σ) : σ.Good := by
  induction h with
  | init h =>
    refine ⟨init_spec h, List.nodup_nil, ?_⟩
    intro pfn hp
    cases hp
  | step hσ hc h ih => exact (wp_ok (Call.exec_spec ih hc) h).good

end Serve

end PhysM
end Roanix.Mem
