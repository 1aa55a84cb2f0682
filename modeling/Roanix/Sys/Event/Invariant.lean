import Roanix.Sys.Event.Basic

/-! What holds between the steps. A thread's own record is in order by itself (`LocalOk`); each claim
of a group is a promise to wake it (`PartyOk`); an event's queue holds registrations of waits in
progress, all that are unclaimed among them (`EventOk`). -/
namespace Roanix.Sys.EventM
open Lib Function

variable {ε ι : Type}

namespace Place

/-- The wait group exists. -/
def Live : Place ε ι → Prop
  | .allocate | .winner | .register | .load | .push | .undo | .claimSelf | .wakeSelf | .condition
  | .claimZero | .wakeZero | .decide | .park | .asleep | .unregister _ | .finish => True
  | _ => False

def Checked : Place ε ι → Prop
  | .decide | .park | .asleep => True
  | _ => False

/-- Registration `i` has not been taken back. -/
def Keeps (i : ℕ) : Place ε ι → Prop
  | .unregister j => j ≤ i
  | .finish => False
  | _ => True

/-- On the way to claim every waiter of an event. -/
def ClaimsAll (e : ε) : Place ε ι → Prop
  | .claimLock f one | .claim f one _ | .tryClaim f one _ => f = e ∧ one = false
  | _ => False

/-- On the way to claim waiters of an event. -/
def Claims (e : ε) : Place ε ι → Prop
  | .claimLock f _ | .claim f _ _ | .tryClaim f _ _ => f = e
  | _ => False

/-- At the waiter taken off the queue of an event. -/
def Trying (e : ε) : Place ε ι → Prop
  | .tryClaim f _ _ => f = e
  | _ => False

/-- Emptying the queue of an event, with its lock. -/
def Claiming (e : ε) : Place ε ι → Prop
  | .claim f _ _ | .tryClaim f _ _ => f = e
  | _ => False

def Notifies (e : ε) : Place ε ι → Prop
  | .wakeAll f => f = e
  | .claimLock f one | .claim f one _ | .tryClaim f one _ => f = e ∧ one = false
  | _ => False

end Place

namespace Local

/-- The event whose lock the thread has. -/
def section? (l : Local ε ι) : Option ε :=
  match l.place with
  | .load | .push | .undo => l.events[l.index]?
  | .claim e _ _ | .tryClaim e _ _ => some e
  | _ => none

/-- The threads that thread `u` has claimed and not yet woken. -/
def owes (u : ι) (l : Local ε ι) : List ι :=
  match l.place with
  | .wakeSelf | .wakeZero => [u]
  | .claim _ _ batch | .tryClaim _ _ batch | .wakeBatch batch => batch
  | .wake w _ batch => w :: batch
  | _ => []

def Owed (l : Local ε ι) : Prop := l.place.Live ∧ l.winner ≠ none ∧ l.wakes = 0

/-- Registration `i` may stand in the queue of event `e`. -/
def Linked (e : ε) (i : ℕ) (l : Local ε ι) : Prop :=
  l.place.Live ∧ l.events[i]? = some e ∧ (i < l.index ∨ l.place = .undo ∧ i = l.index) ∧
    l.place.Keeps i

def Unclaimed (e : ε) (i : ℕ) (l : Local ε ι) : Prop :=
  l.place.Live ∧ l.winner = none ∧ i < l.index ∧ l.events[i]? = some e

/-- Going to sleep on a ticket that is no longer the generation. -/
def Overdue (e : ε) (generation : ℕ) (l : Local ε ι) : Prop :=
  l.place.Checked ∧ l.winner = none ∧ l.events = [e] ∧
    ∃ n, l.ticket = some n ∧ wrap generation ≠ wrap n

end Local

structure GroupOk (l : Local ε ι) : Prop where
  index_le : l.index ≤ l.events.length
  claims : l.claims = if l.winner = none then 0 else 1
  wakes : l.wakes ≤ l.claims
  seq : l.parkSeq = l.seq
  park : l.wakes = 0 ↔ l.parkState ≠ .idle
  valid : ∀ i, l.winner = some i → i < l.events.length

def Local.PlaceOk (l : Local ε ι) : Prop :=
  match l.place with
  | .allocate | .winner => l.claimedLocally = false ∧ l.parkState ≠ .parked
  | .register | .load | .push | .undo | .claimSelf =>
    l.index < l.events.length ∧ l.claimedLocally = false ∧ l.parkState ≠ .parked
  | .wakeSelf | .wakeZero => l.winner ≠ none ∧ l.wakes = 0 ∧ l.parkState ≠ .parked
  | .condition | .decide => (l.winner = none → l.index = l.events.length) ∧
    (l.claimedLocally = true → l.wakes = 1) ∧ l.parkState ≠ .parked
  | .claimZero => (l.winner = none → l.index = l.events.length) ∧
    (l.claimedLocally = true → l.wakes = 1) ∧ l.parkState ≠ .parked ∧ l.ticket ≠ none
  | .park => (l.winner = none → l.index = l.events.length) ∧ l.claimedLocally = false ∧
    l.parkState ≠ .parked
  | .asleep => (l.winner = none → l.index = l.events.length) ∧ l.claimedLocally = false ∧
    l.parkState ≠ .waiting
  | .unregister _ | .finish => l.wakes = 1
  | _ => True

structure LocalOk (l : Local ε ι) : Prop where
  group : l.place.Live → GroupOk l
  place : l.PlaceOk
  ticket : l.ticket ≠ none → l.events.length = 1

/-- Who has promised to wake whom. -/
structure PartyOk (waker : ι → Option ι) (party : ι → Local ε ι) : Prop where
  each : ∀ t, LocalOk (party t)
  owes : ∀ u t, t ∈ (party u).owes u ↔ waker t = some u
  once : ∀ u, ((party u).owes u).Nodup
  owed : ∀ t, waker t ≠ none ↔ (party t).Owed
  target : ∀ u w seq batch, (party u).place = .wake w seq batch → seq = (party w).seq

def Event.waiters (c : Event ι) : List (ι × ℕ) := c.taken.toList ++ c.queue

structure QueueOk (e : ε) (c : Event ι) (party : ι → Local ε ι) : Prop where
  nodup : c.waiters.Nodup
  linked : ∀ t i, (t, i) ∈ c.waiters → (party t).Linked e i
  pending : ∀ t i, (party t).Unclaimed e i → (t, i) ∈ c.waiters
  undo : ∀ t, (party t).place = .undo → (party t).events[(party t).index]? = some e →
    (t, (party t).index) ∈ c.queue
  /-- Somebody is at work on the waiter that was taken off the queue. -/
  taken : c.taken ≠ none ↔ ∃ u, (party u).place.Trying e
  queued : c.waiters ≠ [] → c.queued = true
  empty : c.queued = true → c.queue = [] → ∃ u, (party u).place.Claiming e

structure EventOk (e : ε) (c : Event ι) (party : ι → Local ε ι) : Prop where
  latch : Sole c.lock (fun l => l.section? = some e) party
  queue : QueueOk e c party
  /-- A signal reaches whoever was registered before it. -/
  signaled : c.signaled = true → ∀ t i, (t, i) ∈ c.queue → i < (party t).index →
    ∃ u, (party u).place.ClaimsAll e
  /-- A notification reaches whoever waits on an older ticket. -/
  notified : ∀ t, (party t).Overdue e c.generation → ∃ u, (party u).place.Notifies e

structure Inv (waker : ι → Option ι) (s : State ε ι) : Prop where
  party : PartyOk waker s.party
  event : ∀ e, EventOk e (s.event e) s.party

/-- A thread moves on and the queue of an event does not notice. -/
structure Calm (e : ε) (l l' : Local ε ι) : Prop where
  linked : ∀ i, l.Linked e i → l'.Linked e i
  unclaimed : ∀ i, l'.Unclaimed e i → l.Unclaimed e i
  undo : l'.place = .undo → l'.events[l'.index]? = some e →
    l.place = .undo ∧ l'.events = l.events ∧ l'.index = l.index
  index : ∀ i, l.Linked e i → i < l'.index → i < l.index
  trying : l.place.Trying e ↔ l'.place.Trying e
  claiming : l.place.Claiming e → l'.place.Claiming e

/-- A thread moves on and an event does not notice. -/
structure Steady (e : ε) (generation : ℕ) (l l' : Local ε ι) : Prop extends Calm e l l' where
  section_iff : l.section? = some e ↔ l'.section? = some e
  claimsAll : l.place.ClaimsAll e → l'.place.ClaimsAll e
  notifies : l.place.Notifies e → l'.place.Notifies e
  overdue : l'.Overdue e generation → l.Overdue e generation

variable [DecidableEq ι] {waker : ι → Option ι} {party : ι → Local ε ι} {t : ι} {l : Local ε ι}
  {e : ε} {c : Event ι}

theorem exists_update {p : Place ε ι → Prop} (h : ∃ u, p (party u).place)
    (ht : p (party t).place → p l.place) : ∃ u, p (update party t l u).place := by
  obtain ⟨u, hu⟩ := h
  exact ⟨u, update_keep (fun l : Local ε ι => p l.place) hu ht⟩

theorem QueueOk.calm (h : QueueOk e c party) (hs : Calm e (party t) l) :
    QueueOk e c (update party t l) := by
  constructor
  · exact h.nodup
  · intro u i hu
    exact update_keep (Local.Linked e i) (h.linked u i hu) (hs.linked i)
  · intro u i hu
    exact h.pending u i (update_back (Local.Unclaimed e i) (hs.unclaimed i) hu)
  · intro u hu he
    by_cases hut : u = t
    · subst hut
      rw [update_self] at hu he ⊢
      obtain ⟨hplace, hevents, hindex⟩ := hs.undo hu he
      rw [hevents, hindex] at he
      rw [hindex]
      exact h.undo u hplace he
    · rw [update_of_ne hut] at hu he ⊢
      exact h.undo u hu he
  · rw [h.taken]
    constructor
    · intro htry
      exact exists_update htry hs.trying.mp
    · rintro ⟨u, hu⟩
      exact ⟨u, update_back (fun l : Local ε ι => l.place.Trying e) hs.trying.mpr hu⟩
  · exact h.queued
  · intro hq hempty
    exact exists_update (h.empty hq hempty) hs.claiming

section
variable (h : EventOk e c party)
include h

theorem EventOk.signaled_stay
    (hindex : ∀ i, (party t).Linked e i → i < l.index → i < (party t).index)
    (hc : (party t).place.ClaimsAll e → l.place.ClaimsAll e) (hsig : c.signaled = true) (u : ι)
    (i : ℕ) (hmem : (u, i) ∈ c.queue) (hi : i < (update party t l u).index) :
    ∃ v, (update party t l v).place.ClaimsAll e := by
  refine exists_update (h.signaled hsig u i hmem ?_) hc
  by_cases hut : u = t
  · subst hut
    rw [update_self] at hi
    exact hindex i (h.queue.linked u i (List.mem_append_right _ hmem)) hi
  · rwa [update_of_ne hut] at hi

theorem EventOk.notified_stay (hn : (party t).place.Notifies e → l.place.Notifies e)
    (ho : l.Overdue e c.generation → (party t).Overdue e c.generation) (u : ι)
    (hu : (update party t l u).Overdue e c.generation) :
    ∃ v, (update party t l v).place.Notifies e := by
  exact exists_update (h.notified u (update_back (Local.Overdue e c.generation) ho hu)) hn

theorem EventOk.moved {c' : Event ι}
    (hlatch : Sole c'.lock (fun l => l.section? = some e) (update party t l))
    (hqueue : QueueOk e c' (update party t l)) (hsig : c'.signaled = c.signaled)
    (hgen : c'.generation = c.generation) (hsub : c'.queue ⊆ c.queue)
    (hindex : l.index = (party t).index) (hc : (party t).place.ClaimsAll e → l.place.ClaimsAll e)
    (hn : (party t).place.Notifies e → l.place.Notifies e) (hb : ¬ l.place.Checked) :
    EventOk e c' (update party t l) := by
  refine ⟨hlatch, hqueue, fun hs u i hmem hi => ?_, fun u hu => ?_⟩
  · rw [hsig] at hs
    exact h.signaled_stay (fun _ _ hi => hindex ▸ hi) hc hs u i (hsub hmem) hi
  · rw [hgen] at hu
    exact h.notified_stay hn (fun ho => absurd ho.1 hb) u hu

theorem EventOk.steady (hs : Steady e c.generation (party t) l) :
    EventOk e c (update party t l) where
  latch := h.latch.stay hs.section_iff
  queue := h.queue.calm hs.toCalm
  signaled := h.signaled_stay hs.index hs.claimsAll
  notified := h.notified_stay hs.notifies hs.overdue

end

theorem PartyOk.stay (h : PartyOk waker party) (hok : LocalOk l)
    (howes : l.owes t = (party t).owes t) (howed : (party t).Owed ↔ l.Owed)
    (hseq : (party t).Owed → l.seq = (party t).seq)
    (htarget : ∀ w seq batch, l.place = .wake w seq batch → seq = (party w).seq) :
    PartyOk waker (update party t l) := by
  have howes' : ∀ u, (update party t l u).owes u = (party u).owes u := by
    apply (forall_update_iff party fun u l => l.owes u = (party u).owes u).mpr
    exact ⟨howes, fun _ _ => rfl⟩
  constructor
  · exact update_all LocalOk hok h.each
  · intro u w
    rw [howes']
    exact h.owes u w
  · intro u
    rw [howes']
    exact h.once u
  · exact (forall_update_iff party fun w l => waker w ≠ none ↔ l.Owed).mpr
      ⟨(h.owed t).trans howed, fun w _ => h.owed w⟩
  · intro u w seq batch hu
    have hseq' : seq = (party w).seq := update_elim (fun l : Local ε ι => l.place = _)
      (htarget w seq batch) (h.target u w seq batch) hu
    have hmem : w ∈ (party u).owes u := by
      rw [← howes' u]
      unfold Local.owes
      rw [hu]
      exact List.mem_cons_self
    by_cases hwt : w = t
    · subst hwt
      rw [update_self, hseq ?_]
      · exact hseq'
      · exact (h.owed w).mp (by simp [(h.owes u w).mp hmem])
    · rw [update_of_ne hwt]
      exact hseq'

end Roanix.Sys.EventM
