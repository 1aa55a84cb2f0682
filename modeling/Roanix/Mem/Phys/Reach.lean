import Roanix.Mem.Phys.Calls

/-! No run of the allocator loses or duplicates a frame, and its counters are exact. -/
namespace Roanix.Mem
open Lib Act

namespace Phys
variable {m : Phys} {pfn : ℕ}

/-- The places a frame is found in: in use, on a shared list, or in a slot of a cache. -/
def places (m : Phys) (pfn : ℕ) : ℕ :=
  (if (m.frames pfn).state = .allocated then 1 else 0) + m.free.count pfn + m.zero.count pfn +
    ∑ id, ((m.caches id).dirty.count pfn + (m.caches id).zero.count pfn)

structure Conserved (m : Phys) : Prop where
  once : ∀ pfn ∈ m.usable, m.places pfn = 1
  dirty : ∀ pfn, (pfn ∈ m.free ∨ ∃ id, pfn ∈ (m.caches id).dirty) →
    pfn ∈ m.usable ∧ (m.frames pfn).state = .free
  zeroed : ∀ pfn, (pfn ∈ m.zero ∨ ∃ id, pfn ∈ (m.caches id).zero) →
    pfn ∈ m.usable ∧ (m.frames pfn).state = .zero
  nfree : m.nfree = m.free.length + m.zero.length
  freePages : m.freePages =
    m.usable.countP fun pfn => (m.frames pfn).state = .free ∨ (m.frames pfn).state = .zero
  zeroPages : m.zeroPages = m.usable.countP fun pfn => (m.frames pfn).state = .zero
  usedPages : m.usedPages = m.usable.countP fun pfn => (m.frames pfn).state = .allocated

theorem Inv.places_eq (h : Inv m []) (hu : pfn ∈ m.usable) : m.places pfn = 1 := by
  have hfalse := h.placed.ledger false pfn
  have htrue := h.placed.ledger true pfn
  have hknown := h.placed.known pfn hu
  simp only [List.count_nil, Nat.add_zero, occurrences, Fintype.sum_option, kind_eq_some, hu,
    true_and] at hfalse htrue
  have hdirty : m.free.count pfn + ∑ id, (m.caches id).dirty.count pfn =
    if (m.frames pfn).state = .free then 1 else 0 := hfalse
  have hzero : m.zero.count pfn + ∑ id, (m.caches id).zero.count pfn =
    if (m.frames pfn).state = .zero then 1 else 0 := htrue
  unfold places
  rw [Finset.sum_add_distrib]
  cases hs : (m.frames pfn).state with
  | reserved => exact absurd hs hknown
  | free =>
    rw [hs, if_pos rfl] at hdirty
    rw [hs, if_neg (by decide)] at hzero
    rw [if_neg (by decide)]
    omega
  | zero =>
    rw [hs, if_neg (by decide)] at hdirty
    rw [hs, if_pos rfl] at hzero
    rw [if_neg (by decide)]
    omega
  | allocated =>
    rw [hs, if_neg (by decide)] at hdirty hzero
    rw [if_pos rfl]
    omega

theorem Inv.conserved (h : Inv m []) : Conserved m where
  once := fun _ => h.places_eq
  dirty := by
    intro pfn hp
    rcases hp with hp | ⟨id, hp⟩
    · exact h.placed.of_bag none false hp
    · exact h.placed.of_bag (some id) false hp
  zeroed := by
    intro pfn hp
    rcases hp with hp | ⟨id, hp⟩
    · exact h.placed.of_bag none true hp
    · exact h.placed.of_bag (some id) true hp
  nfree := h.nfree
  freePages := by
    rw [h.counted.free]
    exact List.countP_congr fun pfn _ => by simp [isFree]
  zeroPages := h.counted.zero
  usedPages := h.counted.used

end Phys

namespace PhysM
open Phys

/-- In every run no frame is lost or duplicated and the counters are exact. A call hands out only
frames that are owned by nobody, `ZERO` frames hold zeros, and only a caller's mistake stops. -/
theorem frames_conserved {σ : Session} (h : Reachable σ) :
    σ.phys.Conserved ∧
      ∀ c : Call, c.Allowed σ →
        (∀ handed m, c.exec σ.phys = .ok handed m → (∀ pfn ∈ handed, pfn ∉ σ.owned) ∧
          ∀ caller usage flags, c = .allocPage caller usage flags → flags.zero = true →
            ∀ pfn ∈ handed, m.memory pfn = default) ∧
        (∀ e m, c.exec σ.phys ≠ .err e m) ∧ ∀ p, c.exec σ.phys = .panic p → MayStop p := by
  have hgood := h.good
  refine ⟨hgood.inv.conserved, ?_⟩
  intro c hc
  have hspec := Call.exec_spec hgood hc
  refine ⟨?_, ?_, ?_⟩
  · intro handed m hrun
    have hserved := wp_ok hspec hrun
    exact ⟨hserved.fresh, hserved.zero⟩
  · intro e m hrun
    exact wp_err hspec hrun
  · intro p hrun
    exact wp_panic hspec hrun

def exampleMap : List MemoryEntry := [⟨0, 16 * pageSize, true⟩]

def exampleDirt : Page := ⟨List.replicate pageSize 1, List.length_replicate⟩

def exampleCall : Call := .allocPage ⟨0, 1, true, false⟩ .managed ⟨true, false⟩

def exampleRun : Option (Phys × List ℕ × Phys) :=
  match Phys.init 128 exampleMap fun _ => exampleDirt with
  | .error _ => none
  | .ok m =>
    match exampleCall.exec m with
    | .ok handed m' => some (m, handed, m')
    | _ => none

theorem frames_conserved_example :
    ∃ m m', Phys.init 128 exampleMap (fun _ => exampleDirt) = .ok m ∧
      exampleCall.exec m = .ok [14] m' ∧ m'.free = [15] ∧ m'.usedPages = 15 ∧
      m.Conserved ∧ m'.Conserved ∧ m'.memory 14 = default := by
  have hrun : (exampleRun.map fun r => (r.2.1, r.2.2.free, r.2.2.usedPages)) =
      some ([14], [15], 15) := by decide +kernel
  unfold exampleRun at hrun
  split at hrun
  · cases hrun
  · rename_i m hinit
    split at hrun
    · rename_i handed m' hexec
      obtain ⟨hhanded, hfree, hused⟩ : handed = [14] ∧ m'.free = [15] ∧ m'.usedPages = 15 := by
        simpa using hrun
      subst hhanded
      have hboot := Reachable.init hinit
      obtain ⟨hconserved, hcalls⟩ := frames_conserved hboot
      obtain ⟨-, hzero⟩ := (hcalls exampleCall trivial).1 [14] m' hexec
      have hallowed : exampleCall.Allowed ⟨m, []⟩ := trivial
      exact ⟨m, m', hinit, hexec, hfree, hused, hconserved,
        (frames_conserved (hboot.step hallowed hexec)).1, hzero _ _ _ rfl rfl 14 (by simp)⟩
    · cases hrun

/-- Boot, and on the machine it gives the caches drained and a contiguous allocation. -/
def bootRun : Option (ℕ × ℕ × ℕ) :=
  match Phys.init 128 exampleMap (fun _ => exampleDirt) with
  | .error _ => none
  | .ok m =>
    match drainPageCaches m, allocContiguous ⟨0, 1, true, false⟩ .managed 1 1 u64Max m with
    | .ok () d, .ok (some base) _ => some (m.nfree, d.nfree, base)
    | _, _ => none

theorem exampleBoot : ∃ m, Phys.init 128 exampleMap (fun _ => exampleDirt) = .ok m ∧ m.nfree = 2 ∧
    (∃ drained, drainPageCaches m = .ok () drained ∧ drained.nfree = 2) ∧
    ∃ m', allocContiguous ⟨0, 1, true, false⟩ .managed 1 1 u64Max m = .ok (some 14) m' := by
  have hrun : bootRun = some (2, 2, 14) := by decide +kernel
  unfold bootRun at hrun
  split at hrun
  · cases hrun
  · rename_i m hinit
    split at hrun
    · rename_i d base m' hdrain halloc
      simp only [Option.some.injEq, Prod.mk.injEq] at hrun
      obtain ⟨hn, hd, rfl⟩ := hrun
      exact ⟨m, hinit, hn, ⟨d, hdrain, hd⟩, m', halloc⟩
    · cases hrun

/-- After any run `alloc_contiguous` finds the lowest run of free frames once the caches are drained,
if the reserve allows for one; only that run changes, and the counters with it. -/
theorem contiguous_lowest {σ : Session} (h : Reachable σ) (caller : Caller) (usage : PageUse)
    (count align maxAddress : ℕ) (husage : usage.Dynamic) (hcount : 1 ≤ count)
    (halign : IsPowerOfTwo align) :
    ∃ drained, drainPageCaches σ.phys = .ok () drained ∧
      (count + (if caller.daemon then 0 else daemonPages) ≤ drained.nfree →
        ∃ result m, allocContiguous caller usage count align maxAddress σ.phys = .ok result m ∧
          drained.Lowest count align
            (min drained.maxPfn (min (maxAddress + 1) u64Max / pageSize)) result ∧
          ∀ base, result = some base → Taken drained m base count) := by
  have hdrain := drainCaches_spec (T := fun _ => False) (E := fun _ _ => False)
    (List.finRange maxPageCpus) h.good.inv
  obtain ⟨_, drained, hdrained, -, hinv, -⟩ := wp_returns hdrain
  refine ⟨drained, hdrained, fun hreserve => ?_⟩
  have hclaim := claimContiguous_spec (T := fun _ => False) (E := fun _ _ => False) caller usage
    maxAddress hinv hcount halign.pos
  obtain ⟨result, m, hrun, -, hclaimed⟩ := wp_returns hclaim
  have hmax : max align 1 = align := max_eq_left halign.pos
  have hcheck : (check usage.Dynamic .invalidPageUse : PhysM Unit) σ.phys = .ok () σ.phys := by
    rw [check, if_pos husage]
    rfl
  have heq : allocContiguous caller usage count align maxAddress σ.phys = .ok result m := by
    rw [allocContiguous, if_neg (by omega), bind_ok hcheck, hmax, if_neg (not_not.mpr halign),
      bind_ok (m := drainPageCaches) hdrained]
    exact hrun
  exact ⟨result, m, heq, hclaimed.lowest hreserve, fun base hb => (hclaimed.taken base hb).2⟩

theorem contiguous_lowest_example : ∃ m drained m',
    Phys.init 128 exampleMap (fun _ => exampleDirt) = .ok m ∧ drainPageCaches m = .ok () drained ∧
    allocContiguous ⟨0, 1, true, false⟩ .managed 1 1 u64Max m = .ok (some 14) m' ∧
    Taken drained m' 14 1 := by
  obtain ⟨m, hinit, -, ⟨d, hdrain, hd⟩, m', halloc⟩ := exampleBoot
  obtain ⟨drained, hdrained, hlowest⟩ := contiguous_lowest (.init hinit) ⟨0, 1, true, false⟩
    .managed 1 1 u64Max (by decide) le_rfl (by decide)
  obtain ⟨-, rfl⟩ := Outcome.ok.inj (hdrain.symm.trans hdrained)
  obtain ⟨result, m₁, hrun, -, htaken⟩ := hlowest hd.ge
  obtain ⟨rfl, rfl⟩ := Outcome.ok.inj (halloc.symm.trans hrun)
  exact ⟨m, d, m', hinit, hdrain, halloc, htaken 14 rfl⟩

/-- After any run, no refill and no contiguous allocation takes a frame of a reserve that is not its
caller's, and near a reserve a refill takes one frame at most. -/
theorem reserves_kept {σ : Session} (h : Reachable σ) (caller : Caller) :
    (∀ id wantZero useReserve m, refillCache caller id wantZero useReserve σ.phys = .ok () m →
      Reserved caller useReserve σ.phys.nfree m.nfree) ∧
    ∀ usage count align maxAddress result m, caller.daemon = false → daemonPages ≤ σ.phys.nfree →
      allocContiguous caller usage count align maxAddress σ.phys = .ok result m →
      daemonPages ≤ m.nfree := by
  constructor
  · intro id wantZero useReserve m hrun
    have hspec : wp (fun _ => True) (refillCache caller id wantZero useReserve) _ (fun _ _ => True)
        σ.phys := refillRounds_spec caller useReserve _ h.good.inv
    have hkept := wp_ok hspec hrun
    exact hkept.2.2
  · intro usage count align maxAddress result m hdaemon hone hrun
    have hspec := allocContiguous_spec (T := fun _ => True) (E := fun _ _ => True) caller usage count
      align maxAddress trivial h.good.inv
    have hkept := wp_ok hspec hrun
    exact hkept.2.2 hdaemon hone

theorem reserves_kept_example : ∃ m m', Phys.init 128 exampleMap (fun _ => exampleDirt) = .ok m ∧
    allocContiguous ⟨0, 1, true, false⟩ .managed 1 1 u64Max m = .ok (some 14) m' ∧
    daemonPages ≤ m'.nfree := by
  obtain ⟨m, hinit, hn, -, m', halloc⟩ := exampleBoot
  exact ⟨m, m', hinit, halloc, (reserves_kept (.init hinit) ⟨0, 1, true, false⟩).2 _ _ _ _ _ _ rfl
    (by rw [hn]; decide) halloc⟩

end PhysM
end Roanix.Mem
