import Roanix.Lib.Machine

/-! Leases on the queues of a disk controller. A queue is taken and returned under its lock, together
with its event, so each of the two is one step. An event stays signaled until it is reset, and a wait
for several lasts as long as none of them is signaled. -/
namespace Roanix.Driver.Lease
open Lib Function

/-- Whether the queue is there, and its event `ready`. -/
structure Slot where
  value : Bool
  ready : Bool

/-- Where a thread is: it tries the queues of a list in turn and then waits for all of them. `take`
tries one queue, `queue` all of them from that of its CPU on. -/
inductive Place (κ : Type) where
  | idle
  | scan (order todo : List κ)
  | waiting (order : List κ)
  | holds (q : κ)

structure State (κ ι : Type) where
  lease : κ → Slot
  party : ι → Place κ

/-- What a waiting thread relies on: a queue that is there is signaled. -/
def Slot.Fresh (c : Slot) : Prop := c.value = true → c.ready = true

variable {κ ι : Type}

def Tried (lease : κ → Slot) : Place κ → Prop
  | .scan order todo => ∀ q ∈ order, q ∈ todo ∨ (lease q).Fresh
  | .waiting order => ∀ q ∈ order, (lease q).Fresh
  | _ => True

structure Inv (s : State κ ι) : Prop where
  owner : ∀ q, ∃ h : Option ι, (s.lease q).value = h.isNone ∧ Sole h (· = .holds q) s.party
  tried : ∀ t, Tried s.lease (s.party t)

theorem Tried.mono {lease lease' : κ → Slot} {p : Place κ} (h : Tried lease p)
    (hf : ∀ q, (lease q).Fresh → (lease' q).Fresh) : Tried lease' p := by
  cases p with
  | scan order todo => exact fun q hq => (h q hq).imp_right (hf q)
  | waiting order => exact fun q hq => hf q (h q hq)
  | idle | holds q => trivial

variable [DecidableEq κ] [DecidableEq ι]

/-- A step of a thread. An error of the events ends the call; a wait may end at any time. -/
inductive Step (t : ι) (s : State κ ι) : State κ ι → Prop
  | acquire (order : List κ) (h : s.party t = .idle) :
      Step t s ⟨s.lease, update s.party t (.scan order order)⟩
  | take {order todo : List κ} {q : κ} (h : s.party t = .scan order (q :: todo))
      (hq : (s.lease q).value = true) :
      Step t s ⟨update s.lease q ⟨false, false⟩, update s.party t (.holds q)⟩
  | taken {order todo : List κ} {q : κ} (h : s.party t = .scan order (q :: todo))
      (hq : (s.lease q).value = false) :
      Step t s ⟨update s.lease q ⟨false, false⟩, update s.party t (.scan order todo)⟩
  | wait {order : List κ} (h : s.party t = .scan order []) :
      Step t s ⟨s.lease, update s.party t (.waiting order)⟩
  | wake {order : List κ} (h : s.party t = .waiting order) :
      Step t s ⟨s.lease, update s.party t (.scan order order)⟩
  | fail (h : ∀ q, s.party t ≠ .holds q) : Step t s ⟨s.lease, update s.party t .idle⟩
  | drop {q : κ} (h : s.party t = .holds q) :
      Step t s ⟨update s.lease q ⟨true, true⟩, update s.party t .idle⟩

def machine (κ ι : Type) [DecidableEq κ] [DecidableEq ι] : Machine (State κ ι) where
  init s := (∀ q, (s.lease q).value = true) ∧ ∀ t, s.party t = .idle
  step s s' := ∃ t, Step t s s'

variable {s s' : State κ ι} {t : ι} {p : Place κ} {q : κ} {c : Slot}

section
variable (hi : Inv s)
include hi

omit [DecidableEq κ] in
theorem Inv.move (h : ∀ q, s.party t ≠ .holds q) (hp : ∀ q, p ≠ .holds q) (ht : Tried s.lease p) :
    Inv ⟨s.lease, update s.party t p⟩ := by
  refine ⟨fun q => ?_, update_all (Tried s.lease) ht hi.tried⟩
  obtain ⟨o, hv, ho⟩ := hi.owner q
  exact ⟨o, hv, ho.stay (iff_of_false (h q) (hp q))⟩

theorem Inv.set (hc : c.Fresh) (hp : Tried (update s.lease q c) p)
    (hother : ∀ r, r ≠ q → (s.party t = .holds r ↔ p = .holds r))
    (ho : ∃ o : Option ι, c.value = o.isNone ∧ Sole o (· = .holds q) (update s.party t p)) :
    Inv ⟨update s.lease q c, update s.party t p⟩ := by
  refine ⟨fun r => ?_, update_all (Tried _) hp fun u => (hi.tried u).mono fun r hr => ?_⟩
  · by_cases hr : r = q
    · subst hr
      simpa using ho
    · obtain ⟨o, hv, ho⟩ := hi.owner r
      exact ⟨o, by simpa [hr] using hv, ho.stay (hother r hr)⟩
  · exact update_keep Slot.Fresh hr fun _ => hc

theorem Inv.step (h : Step t s s') : Inv s' := by
  cases h with
  | acquire _ h | wake h => exact hi.move (by simp [h]) (by simp) fun q hq => .inl hq
  | fail h => exact hi.move h (by simp) trivial
  | wait h =>
    have ht := hi.tried t
    rw [h] at ht
    exact hi.move (by simp [h]) (by simp) fun q hq => (ht q hq).resolve_left (by simp)
  | @taken order todo q h hq =>
    -- The event is reset, but the queue is away.
    obtain ⟨o, hv, ho⟩ := hi.owner q
    have ht := hi.tried t
    rw [h] at ht
    refine hi.set (by simp [Slot.Fresh]) (fun r hr => ?_) (by simp [h])
      ⟨o, hq ▸ hv, ho.stay (by simp [h])⟩
    by_cases hrq : r = q
    · subst hrq
      exact .inr (by simp [Slot.Fresh])
    · simpa [hrq] using ht r hr
  | @take order todo q h hq =>
    obtain ⟨o, hv, ho⟩ := hi.owner q
    obtain rfl : o = none := by simpa [hq] using hv
    exact hi.set (by simp [Slot.Fresh]) trivial (fun r hr => by simp [h, Ne.symm hr])
      ⟨some t, rfl, ho.enter rfl⟩
  | @drop q h =>
    obtain ⟨o, -, ho⟩ := hi.owner q
    exact hi.set (fun _ => rfl) trivial (fun r hr => by simp [h, Ne.symm hr])
      ⟨none, rfl, ho.leave h (by simp)⟩

end

theorem Inv.of_reachable (hs : (machine κ ι).Reachable s) : Inv s := by
  refine hs.invariant (fun s h => ⟨fun q => ⟨none, h.1 q, fun t => ?_⟩, fun t => ?_⟩)
    fun s s' hi h => h.elim fun t h => hi.step h
  · simp [h.2 t]
  · rw [h.2 t]
    trivial

/-- A thread sleeps in its wait for the queues of `order`: none of their events is signaled. -/
def State.Asleep (s : State κ ι) (t : ι) (order : List κ) : Prop :=
  s.party t = .waiting order ∧ ∀ q ∈ order, (s.lease q).ready = false

/-- No two threads have a lease of one queue, a queue that is away is some thread's, which can return
it, and one that is there is taken by the next call that tries it first; a thread sleeps only while
every queue it waits for is away. -/
theorem leases_exclusive_and_waits_end (hs : (machine κ ι).Reachable s) :
    (∀ t u q, s.party t = .holds q → s.party u = .holds q → t = u) ∧
    (∀ q, (s.lease q).value = false → ∃ t, s.party t = .holds q ∧
      ∃ s', Step t s s' ∧ (s'.lease q).value = true) ∧
    (∀ t q order, (s.lease q).value = true → s.party t = .idle → ∃ s₁ s₂, Step t s s₁ ∧
      s₁.party t = .scan (q :: order) (q :: order) ∧ Step t s₁ s₂ ∧ s₂.party t = .holds q) ∧
    ∀ t order, s.Asleep t order → ∀ q ∈ order, (s.lease q).value = false := by
  have hi := Inv.of_reachable hs
  refine ⟨fun t u q ht hu => ?_, fun q hq => ?_, fun t q order hq ht => ?_, fun t order h q hq => ?_⟩
  · obtain ⟨o, -, ho⟩ := hi.owner q
    exact ho.unique ht hu
  · obtain ⟨o, hv, ho⟩ := hi.owner q
    obtain ⟨t, rfl⟩ := Option.isSome_iff_exists.mp (by simpa [hq] using hv)
    exact ⟨t, (ho t).mp rfl, _, .drop ((ho t).mp rfl), by simp⟩
  · exact ⟨_, _, .acquire (q :: order) ht, by simp, .take (by simp; exact ⟨rfl, rfl⟩) hq, by simp⟩
  · have ht := hi.tried t
    rw [h.1] at ht
    by_contra hv
    have hready := ht q hq (by simpa using hv)
    rw [h.2 q hq] at hready
    cases hready

theorem leases_exclusive_and_waits_end_example : ∃ s : State Unit Bool,
    (machine Unit Bool).Reachable s ∧ s.Asleep true [()] ∧ (s.lease ()).value = false := by
  have h : (machine Unit Bool).Reachable ⟨fun _ => ⟨true, false⟩, fun _ => .idle⟩ :=
    .init ⟨fun _ => rfl, fun _ => rfl⟩
  have h := (h.step ⟨false, .acquire [()] rfl⟩).step ⟨false, .take rfl rfl⟩
  have h := ((h.step ⟨true, .acquire [()] rfl⟩).step ⟨true, .taken rfl rfl⟩).step ⟨true, .wait rfl⟩
  refine ⟨_, h, ⟨rfl, fun _ _ => rfl⟩, ?_⟩
  exact (leases_exclusive_and_waits_end h).2.2.2 true [()] ⟨rfl, fun _ _ => rfl⟩ () (by simp)

end Roanix.Driver.Lease
