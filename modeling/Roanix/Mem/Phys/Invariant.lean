import Mathlib.Data.Fintype.Option
import Roanix.Lib.Ledger
import Roanix.Lib.Machine
import Roanix.Mem.Phys.Runs

/-! Where the frames are: a free one is on a shared list, in a cache of its kind, or held by the
running operation. What the counters count is read off the frame database. -/
namespace Roanix.Mem
open Lib Function

namespace Phys

def usable (m : Phys) : List ℕ := PhysSegment.frameNumbers m.segments

def bag (m : Phys) : Option (Fin maxPageCpus) → Bool → List ℕ
  | none, zero => m.queue zero
  | some id, zero => (m.caches id).slots zero

def kind (m : Phys) (pfn : ℕ) : Option Bool :=
  if pfn ∈ m.usable then
    match (m.frames pfn).state with
    | .free => some false
    | .zero => some true
    | _ => none
  else none

def census (m : Phys) (p : PageState → Bool) : ℕ := m.usable.countP fun pfn => p (m.frames pfn).state

def isFree (state : PageState) : Bool := state = .free || state = .zero

def isZero (state : PageState) : Bool := state = .zero

def isAllocated (state : PageState) : Bool := state = .allocated

/-- The frames are where their states say, `held` being in the hands of an operation. -/
structure Placed (m : Phys) (held : List (ℕ × Bool)) : Prop where
  laid : PhysSegment.Laid 0 0 m.segments
  few : m.usable.length < 2 ^ 64
  ledger : Ledger m.bag held m.kind
  known : ∀ pfn ∈ m.usable, (m.frames pfn).state ≠ .reserved
  clean : ∀ pfn ∈ m.usable, (m.frames pfn).state = .zero → m.memory pfn = default
  room : ∀ id zero, ((m.caches id).slots zero).length ≤ pageCacheCapacity

structure Counted (m : Phys) : Prop where
  free : m.freePages = m.census isFree
  zero : m.zeroPages = m.census isZero
  used : m.usedPages = m.census isAllocated

structure Inv (m : Phys) (held : List (ℕ × Bool)) : Prop where
  placed : Placed m held
  nfree : m.nfree = m.free.length + m.zero.length
  counted : Counted m

section Bags
variable (m : Phys) (zero : Bool) (id : Fin maxPageCpus) (l : List ℕ)

@[simp] theorem queue_setQueue : (m.setQueue zero l).queue zero = l := by
  cases zero <;> rfl

theorem bag_setQueue {j : Option (Fin maxPageCpus)} {y : Bool} (h : ¬ (j = none ∧ y = zero)) :
    (m.setQueue zero l).bag j y = m.bag j y := by
  cases j with
  | some id => rfl
  | none => cases zero <;> cases y <;> first | rfl | simp at h

@[simp] theorem slots_setCache : ((m.setCache id zero l).caches id).slots zero = l := by
  cases zero <;> simp [setCache, PageCache.slots, PageCache.setSlots]

theorem bag_setCache {j : Option (Fin maxPageCpus)} {y : Bool} (h : ¬ (j = some id ∧ y = zero)) :
    (m.setCache id zero l).bag j y = m.bag j y := by
  cases j with
  | none => rfl
  | some i =>
    unfold bag setCache
    by_cases hi : i = id
    · subst i
      have hy : y ≠ zero := fun hy => h ⟨rfl, hy⟩
      cases zero <;> cases y <;> first | exact absurd rfl hy | simp [PageCache.slots, PageCache.setSlots]
    · simp [update_of_ne hi]

end Bags

theorem setQueue_length_add (m : Phys) (zero : Bool) (l : List ℕ) :
    (m.setQueue zero l).free.length + (m.setQueue zero l).zero.length + (m.queue zero).length =
      m.free.length + m.zero.length + l.length := by
  cases zero
  · simp only [setQueue, queue, Bool.false_eq_true, if_false]
    omega
  · simp only [setQueue, queue, if_true]
    omega

theorem kind_eq_some {m : Phys} {pfn : ℕ} {zero : Bool} :
    m.kind pfn = some zero ↔ pfn ∈ m.usable ∧ (m.frames pfn).state = freeState zero := by
  unfold kind freeState
  by_cases hu : pfn ∈ m.usable
  · cases zero <;> cases (m.frames pfn).state <;> simp [hu]
  · simp [hu]

theorem kind_setFrame_of_ne {m : Phys} {pfn other : ℕ} (frame : Frame) (h : other ≠ pfn) :
    (m.setFrame pfn frame).kind other = m.kind other := by
  unfold kind setFrame usable
  simp only [update_of_ne h]

namespace Placed
variable {m : Phys} {held : List (ℕ × Bool)} {zero : Bool} {id : Fin maxPageCpus} {pfn : ℕ}
  {rest : List ℕ} {frame : Frame}

section
variable (h : Placed m held)
include h

theorem congr {m' : Phys} (hsegments : m'.segments = m.segments)
    (hframes : m'.frames = m.frames) (hmemory : m'.memory = m.memory) (hfree : m'.free = m.free)
    (hzero : m'.zero = m.zero) (hcaches : m'.caches = m.caches) : Placed m' held := by
  have hbag : m'.bag = m.bag := by
    unfold bag queue
    rw [hfree, hzero, hcaches]
  have husable : m'.usable = m.usable := by
    unfold usable
    rw [hsegments]
  have hkind : m'.kind = m.kind := by
    unfold kind
    rw [husable, hframes]
  constructor
  · exact hsegments ▸ h.laid
  · exact husable ▸ h.few
  · rw [hbag, hkind]
    exact h.ledger
  · rw [husable, hframes]
    exact h.known
  · rw [husable, hframes, hmemory]
    exact h.clean
  · rw [hcaches]
    exact h.room

theorem perm {held' : List (ℕ × Bool)} (hp : held.Perm held') :
    Placed m held' :=
  { h with
    ledger := fun k a => by
      rw [← hp.count_eq]
      exact h.ledger k a }

theorem usable_nodup : m.usable.Nodup := h.laid.nodup

theorem pageByIndex_eq (hu : pfn ∈ m.usable) : m.pageByIndex pfn = some pfn := by
  obtain ⟨index, hindex⟩ := Option.isSome_iff_exists.mp ((h.laid.isSome_lookup pfn).mpr hu)
  rw [pageByIndex, hindex, Option.map_some]

theorem known_setFrame (hf : frame.state ≠ .reserved) (other : ℕ) (hu : other ∈ m.usable) :
    ((m.setFrame pfn frame).frames other).state ≠ .reserved :=
  update_keep (fun frame : Frame => frame.state ≠ .reserved) (h.known other hu) fun _ => hf

theorem clean_setFrame (hf : frame.state = .zero → m.memory pfn = default) (other : ℕ)
    (hu : other ∈ m.usable) (hz : ((m.setFrame pfn frame).frames other).state = .zero) :
    m.memory other = default := by
  obtain ⟨rfl, hnew⟩ | ⟨-, hold⟩ := update_cases (fun frame : Frame => frame.state = .zero) hz
  · exact hf hnew
  · exact h.clean other hu hold

theorem of_bag (j : Option (Fin maxPageCpus)) (zero : Bool)
    (hmem : pfn ∈ m.bag j zero) : pfn ∈ m.usable ∧ (m.frames pfn).state = freeState zero :=
  kind_eq_some.mp (h.ledger.kind_of_mem hmem)

end

theorem of_held (h : Placed m ((pfn, zero) :: held)) :
    pfn ∈ m.usable ∧ (m.frames pfn).state = freeState zero :=
  kind_eq_some.mp (h.ledger.kind_of_held List.mem_cons_self)

theorem not_linked_of_held (h : Placed m ((pfn, zero) :: held)) : ¬ m.Linked pfn := by
  intro hl
  rcases hl with hl | hl
  · exact h.ledger.notMem_of_held List.mem_cons_self none false hl
  · exact h.ledger.notMem_of_held List.mem_cons_self none true hl

theorem not_linked_of_allocated (h : Placed m held) (ha : (m.frames pfn).state = .allocated) :
    ¬ m.Linked pfn := by
  intro hl
  rcases hl with hl | hl
  · exact absurd (ha.symm.trans (h.of_bag none false hl).2) (by decide)
  · exact absurd (ha.symm.trans (h.of_bag none true hl).2) (by decide)

theorem popQueue (h : Placed m held) (hperm : (m.queue zero).Perm (pfn :: rest)) :
    Placed (m.setQueue zero rest) ((pfn, zero) :: held) :=
  { h with
    ledger := (Ledger.pop_iff (fun _ _ => m.bag_setQueue zero rest)
      (by rw [bag, bag, queue_setQueue]; exact hperm)).mp h.ledger }

theorem pushQueue (h : Placed m ((pfn, zero) :: held)) {l : List ℕ}
    (hperm : l.Perm (pfn :: m.queue zero)) : Placed (m.setQueue zero l) held :=
  { h with
    ledger := (Ledger.pop_iff (fun _ _ hj => (m.bag_setQueue zero l hj).symm)
      (by rw [bag, queue_setQueue]; exact hperm)).mpr h.ledger }

theorem room_setCache (h : Placed m held) {l : List ℕ} (hl : l.length ≤ pageCacheCapacity)
    (i : Fin maxPageCpus) (y : Bool) :
    (((m.setCache id zero l).caches i).slots y).length ≤ pageCacheCapacity := by
  by_cases hi : some i = some id ∧ y = zero
  · obtain ⟨hi, rfl⟩ := hi
    obtain rfl := Option.some.inj hi
    rwa [slots_setCache]
  · have hsame : ((m.setCache id zero l).caches i).slots y = (m.caches i).slots y :=
      m.bag_setCache zero id l hi
    rw [hsame]
    exact h.room i y

theorem popCache (h : Placed m held) (hc : (m.caches id).slots zero = pfn :: rest) :
    Placed (m.setCache id zero rest) ((pfn, zero) :: held) :=
  { h with
    ledger := (Ledger.pop_iff (fun _ _ => m.bag_setCache zero id rest)
      (by rw [bag, bag, slots_setCache, hc])).mp h.ledger
    room := h.room_setCache (by
      have := h.room id zero
      rw [hc, List.length_cons] at this
      omega) }

theorem pushCache (h : Placed m ((pfn, zero) :: held))
    (hc : ((m.caches id).slots zero).length < pageCacheCapacity) :
    Placed (m.setCache id zero (pfn :: (m.caches id).slots zero)) held :=
  { h with
    ledger := (Ledger.pop_iff (fun _ _ hj => (m.bag_setCache zero id _ hj).symm)
      (by rw [bag, bag, slots_setCache])).mpr h.ledger
    room := h.room_setCache hc }

theorem allocate (h : Placed m ((pfn, zero) :: held)) (hf : frame.state = .allocated) :
    Placed (m.setFrame pfn frame) held :=
  { h with
    ledger := (Ledger.take_iff (by simp [kind, setFrame, hf]) (kind_eq_some.mpr h.of_held)
      fun _ hb => (kind_setFrame_of_ne frame hb).symm).mpr h.ledger
    known := h.known_setFrame (by simp [hf])
    clean := h.clean_setFrame (by simp [hf]) }

theorem free (h : Placed m held) (hu : pfn ∈ m.usable)
    (ha : (m.frames pfn).state = .allocated) (hf : frame.state = freeState zero)
    (hz : zero = true → m.memory pfn = default) :
    Placed (m.setFrame pfn frame) ((pfn, zero) :: held) :=
  { h with
    ledger := by
      refine (Ledger.take_iff ?_ ?_ fun _ hb => kind_setFrame_of_ne frame hb).mp h.ledger
      · unfold kind
        simp [ha]
      · rw [kind_eq_some]
        exact ⟨hu, by simpa [setFrame] using hf⟩
    known := h.known_setFrame (by rw [hf]; cases zero <;> decide)
    clean := h.clean_setFrame (by rw [hf]; cases zero <;> simp [freeState, hz]) }

theorem rezero (h : Placed m ((pfn, false) :: held)) (hf : frame.state = .zero) :
    Placed { m.setFrame pfn frame with memory := update m.memory pfn default }
      ((pfn, true) :: held) :=
  { h with
    ledger := by
      have hgone : Ledger m.bag held (update m.kind pfn none) :=
        (Ledger.take_iff (update_self _ _ _) (kind_eq_some.mpr h.of_held)
          fun b hb => (update_of_ne hb _ _).symm).mpr h.ledger
      refine (Ledger.take_iff (update_self _ _ _) ?_ ?_).mp hgone
      · rw [kind_eq_some]
        refine ⟨h.of_held.1, ?_⟩
        simp only [setFrame, update_self]
        exact hf
      · intro b hb
        rw [update_of_ne hb]
        exact kind_setFrame_of_ne (m := m) frame hb
    known := h.known_setFrame (by simp [hf])
    clean := by
      intro other hu
      by_cases ho : other = pfn
      · subst other
        simp
      · simpa [setFrame, update_of_ne ho] using h.clean other hu }

theorem write (h : Placed m held) (ha : (m.frames pfn).state = .allocated) (page : Page) :
    Placed { m with memory := update m.memory pfn page } held :=
  { h with
    clean := by
      intro other hu hz
      have ho : other ≠ pfn := by
        intro ho
        subst other
        exact absurd (ha.symm.trans hz) (by decide)
      simpa [update_of_ne ho] using h.clean other hu hz }

end Placed

theorem census_setFrame {m : Phys} {pfn : ℕ} (hn : m.usable.Nodup) (hu : pfn ∈ m.usable)
    (frame : Frame) (p : PageState → Bool) :
    (m.setFrame pfn frame).census p + (p (m.frames pfn).state).toNat =
      m.census p + (p frame.state).toNat := by
  have := countP_change (p := fun pfn => p (m.frames pfn).state)
    (q := fun other => p ((m.setFrame pfn frame).frames other).state) hn hu
    (fun b hb => by simp only [setFrame, update_of_ne hb])
  simp only [setFrame, update_self] at this
  exact this

theorem census_congr {m m' : Phys} (hsegments : m'.segments = m.segments)
    (hframes : m'.frames = m.frames) (p : PageState → Bool) : m'.census p = m.census p := by
  unfold census usable
  rw [hsegments, hframes]

theorem census_le (m : Phys) (p : PageState → Bool) : m.census p ≤ m.usable.length :=
  List.countP_le_length

end Phys
end Roanix.Mem
