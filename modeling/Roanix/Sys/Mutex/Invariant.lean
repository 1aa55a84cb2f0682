import Roanix.Sys.Mutex.Basic

/-! What holds between the steps of the mutex: there is at most one holder, the queue is the threads
that wait, and whoever they boost is the holder. -/
namespace Roanix.Sys.Mutex
open Lib Function

namespace Place
variable {ι : Type}

/-- Places of the holder, a guard and a granted park aside. -/
def Owns : Place ι → Prop
  | .publish | .slowPublish | .selfOwner | .selfWake | .unlockClear | .unlockExchange
  | .unlockQueue => True
  | _ => False

def InSection : Place ι → Prop
  | .test | .take _ | .slowPublish | .enqueue | .selfTake | .selfOwner | .lend | .boost _ => True
  | _ => False

def Waits : Place ι → Prop
  | .selfTake | .lend | .boost _ | .parked | .requeue => True
  | _ => False

/-- The guard is being dropped. -/
def Unlocking : Place ι → Prop
  | .unlockClear | .unlockExchange | .unlockQueue => True
  | _ => False

/-- The holder has taken back its name. -/
def Nameless : Place ι → Prop
  | .unlockExchange | .unlockQueue => True
  | _ => False

end Place

namespace Local
variable {ι : Type}

def Owns (l : Local ι) : Prop :=
  l.guard = true ∨ l.place.Owns ∨ l.place = .parked ∧ l.granted = true

def InSection (l : Local ι) : Prop := l.place.InSection

def Waits (l : Local ι) : Prop := l.place.Waits ∧ l.granted = false

end Local

variable {ι : Type}

/-- The queue, the two bits of the word, and the holder. -/
structure QueueOk (holder : Option ι) (locked queued : Bool) (queue : List ι)
    (party : ι → Local ι) : Prop where
  locked_iff : locked = true ↔ holder ≠ none
  queued_iff : queued = true ↔ queue ≠ []
  listed : Listed queue Local.Waits party
  /-- A thread about to take the mutex itself is alone in the queue. -/
  alone : ∀ t, (party t).place = .selfTake → queue = [t] ∧ locked = false
  busy : queue ≠ [] → locked = true ∨ ∃ t, (party t).place = .selfTake
  contended : ∀ t, (party t).place = .unlockQueue → queue ≠ []

/-- The owner's name is the holder's, or it is not known. -/
structure OwnerOk (holder owner : Option ι) (party : ι → Local ι) : Prop where
  named : ∀ x, owner = some x → holder = some x
  cleared : ∀ t, (party t).place.Nameless → owner = none
  boosting : ∀ t x, (party t).place = .boost x → holder = some x
  lends : ∀ t x, (party t).boosted = some x → (party t).Waits ∧ holder = some x

/-- Grants and wake-ups come in pairs. -/
structure WakeOk (party : ι → Local ι) : Prop where
  granted : ∀ t, (party t).granted = true → (party t).place = .parked
  /-- Nobody is woken without a grant. -/
  ungranted : ∀ t, (party t).place ≠ .requeue
  woken : ∀ t, (party t).woken = true → (party t).granted = true
  waking : ∀ t w, (party t).place = .unlockWake w →
    (party w).granted = true ∧ (party w).woken = false
  waker : ∀ t u w, (party t).place = .unlockWake w → (party u).place = .unlockWake w → t = u
  promised : ∀ w, (party w).granted = true → (party w).woken = false →
    ∃ t, (party t).place = .unlockWake w
  dropped : ∀ t, (party t).place.Unlocking → (party t).guard = false

/-- Every boost of a thread is lent by a waiter, or through another mutex. -/
def BoostOk [Fintype ι] [DecidableEq ι] (boosts elsewhere : ι → ℕ) (party : ι → Local ι) : Prop :=
  ∀ x, boosts x = elsewhere x + count (fun l : Local ι => l.boosted = some x) party

/-- Of one mutex, with the boosts that are lent elsewhere. -/
structure Inv [Fintype ι] [DecidableEq ι] (elsewhere : ι → ℕ) (holder : Option ι) (s : State ι) :
    Prop where
  owns : Sole holder Local.Owns s.party
  latch : Sole s.queueLock Local.InSection s.party
  queue : QueueOk holder s.locked s.queued s.queue s.party
  owner : OwnerOk holder s.owner s.party
  wake : WakeOk s.party
  boost : BoostOk s.boosts elsewhere s.party

theorem Local.inSection {l : Local ι} {b : Place ι} (hl : l.place = b) (hb : b.InSection) :
    l.InSection := by
  unfold Local.InSection
  rwa [hl]

variable {holder owner : Option ι} {locked queued : Bool} {queue : List ι} {party : ι → Local ι}
  {t : ι} {b : Local ι}

theorem QueueOk.empty (h : QueueOk holder locked queued queue party) (hq : queued = false) :
    queue = [] := by
  by_contra hne
  have := h.queued_iff.mpr hne
  rw [hq] at this
  cases this

theorem OwnerOk.boosted_eq_none (h : OwnerOk holder owner party) (ht : ¬ (party t).Waits) :
    (party t).boosted = none := by
  cases hb : (party t).boosted with
  | none => rfl
  | some x => exact absurd (h.lends t x hb).1 ht

theorem OwnerOk.rehold (h : OwnerOk none owner party) : OwnerOk holder owner party := by
  constructor
  · intro x hx
    cases h.named x hx
  · exact h.cleared
  · intro t x hx
    cases h.boosting t x hx
  · intro t x hx
    cases (h.lends t x hx).2

theorem OwnerOk.vacate (h : OwnerOk holder none party) (hno : ∀ t, ¬ (party t).Waits)
    (hboost : ∀ t x, (party t).place ≠ .boost x) : OwnerOk none none party := by
  constructor
  · intro x hx
    cases hx
  · intro t _
    rfl
  · intro t x hx
    exact absurd hx (hboost t x)
  · intro t x hx
    exact absurd (h.lends t x hx).1 (hno t)

theorem WakeOk.unwoken (h : WakeOk party) (hg : (party t).granted = false) :
    (party t).woken = false := by
  cases hw : (party t).woken with
  | false => rfl
  | true =>
    have := h.woken t hw
    rw [hg] at this
    cases this

theorem WakeOk.unparked (h : WakeOk party) (hp : (party t).place ≠ .parked) :
    (party t).granted = false ∧ (party t).woken = false := by
  have hg : (party t).granted = false := by
    cases hg : (party t).granted with
    | false => rfl
    | true => exact absurd (h.granted t hg) hp
  exact ⟨hg, h.unwoken hg⟩

variable [DecidableEq ι]

theorem QueueOk.stay (h : QueueOk holder locked queued queue party)
    (hw : (party t).Waits ↔ b.Waits) (hself : (party t).place ≠ .selfTake)
    (hself' : b.place ≠ .selfTake) (hcont : b.place = .unlockQueue → queue ≠ []) :
    QueueOk holder locked queued queue (update party t b) := by
  refine ⟨h.locked_iff, h.queued_iff, h.listed.stay hw, ?_, ?_, ?_⟩
  · intro u hu
    exact h.alone u (of_update (fun l : Local ι => l.place = .selfTake) hself' hu)
  · intro hne
    obtain hl | ⟨u, hu⟩ := h.busy hne
    · exact .inl hl
    · exact .inr ⟨u, update_keep (fun l : Local ι => l.place = .selfTake) hu (absurd · hself)⟩
  · intro u
    exact update_elim (fun l : Local ι => l.place = .unlockQueue) hcont (h.contended u)

section
variable (h : OwnerOk holder owner party) (hname : b.place.Nameless → owner = none)
  (hboost : ∀ x, b.place = .boost x → holder = some x)
include h hname hboost

theorem OwnerOk.move (hb : ∀ x, b.boosted = some x → b.Waits ∧ holder = some x) :
    OwnerOk holder owner (update party t b) := by
  constructor
  · exact h.named
  · intro u
    exact update_elim (fun l : Local ι => l.place.Nameless) hname (h.cleared u)
  · intro u x
    exact update_elim (fun l : Local ι => l.place = .boost x) (hboost x) (h.boosting u x)
  · exact update_all (fun l : Local ι => ∀ x, l.boosted = some x → l.Waits ∧ holder = some x) hb
      h.lends

theorem OwnerOk.stay (hw : (party t).Waits ↔ b.Waits) (hb : b.boosted = (party t).boosted) :
    OwnerOk holder owner (update party t b) := by
  apply h.move hname hboost
  intro x hx
  rw [hb] at hx
  exact ⟨hw.mp (h.lends t x hx).1, (h.lends t x hx).2⟩

end

section
variable (h : WakeOk party) (hre : b.place ≠ .requeue)
  (hwake : ∀ w, (party t).place ≠ .unlockWake w) (hwake' : ∀ w, b.place ≠ .unlockWake w)
  (hdrop : b.place.Unlocking → b.guard = false)
include h hre hwake hwake' hdrop

theorem WakeOk.move (hgranted : b.granted = true → b.place = .parked)
    (hwoken : b.woken = true → b.granted = true)
    (hwaker : ∀ u, (party u).place = .unlockWake t → b.granted = true ∧ b.woken = false)
    (hpromised : b.granted = true → b.woken = false → ∃ u, (party u).place = .unlockWake t) :
    WakeOk (update party t b) := by
  have hwaking : ∀ {u w}, (update party t b u).place = .unlockWake w →
      (party u).place = .unlockWake w := by
    intro u w hu
    exact of_update (fun l : Local ι => l.place = .unlockWake w) (hwake' w) hu
  constructor
  · exact update_all (fun l : Local ι => l.granted = true → l.place = .parked) hgranted h.granted
  · intro u hu
    exact h.ungranted u (of_update (fun l : Local ι => l.place = .requeue) hre hu)
  · exact update_all (fun l : Local ι => l.woken = true → l.granted = true) hwoken h.woken
  · intro u w hu
    by_cases hwt : w = t
    · subst hwt
      rw [update_self]
      exact hwaker u (hwaking hu)
    · rw [update_of_ne hwt]
      exact h.waking u w (hwaking hu)
  · intro u v w hu hv
    exact h.waker u v w (hwaking hu) (hwaking hv)
  · intro w hg hw
    have hbefore : ∃ u, (party u).place = .unlockWake w := by
      by_cases hwt : w = t
      · subst hwt
        rw [update_self] at hg hw
        exact hpromised hg hw
      · rw [update_of_ne hwt] at hg hw
        exact h.promised w hg hw
    obtain ⟨u, hu⟩ := hbefore
    exact ⟨u, update_keep (fun l : Local ι => l.place = .unlockWake w) hu (absurd · (hwake w))⟩
  · exact update_all (fun l : Local ι => l.place.Unlocking → l.guard = false) hdrop h.dropped

theorem WakeOk.stay (hg : b.granted = (party t).granted) (hwoken : b.woken = (party t).woken)
    (hparked : (party t).granted = true → b.place = .parked) : WakeOk (update party t b) := by
  apply h.move hre hwake hwake' hdrop <;> rw [hg]
  · exact hparked
  · rw [hwoken]
    exact h.woken t
  · rw [hwoken]
    exact fun u => h.waking u t
  · rw [hwoken]
    exact h.promised t

theorem WakeOk.settle (hwaker : ∀ u, (party u).place ≠ .unlockWake t) (hg : b.granted = false)
    (hwoken : b.woken = false) : WakeOk (update party t b) := by
  apply h.move hre hwake hwake' hdrop
  · simp [hg]
  · simp [hwoken]
  · exact fun u hu => absurd hu (hwaker u)
  · simp [hg]

end

theorem WakeOk.exchange {w : ι} {a : Local ι} (h : WakeOk party) (htw : t ≠ w)
    (hparked : (party w).place = .parked) (ha : a.place = .parked ∧ a.granted = true)
    (ht : (party t).granted = false) (hbefore : ∀ v, (party t).place = .unlockWake v → v = w)
    (hpromised : (party w).granted = true → (party w).woken = false →
      (party t).place = .unlockWake w)
    (hb : b.granted = false ∧ b.woken = false ∧ b.place ≠ .requeue ∧ ¬ b.place.Unlocking)
    (hafter : ∀ v, b.place = .unlockWake v ↔ v = w ∧ a.woken = false) :
    WakeOk (update (update party w a) t b) := by
  obtain ⟨hgranted, hwoken, hre, hun⟩ := hb
  have hall (p : Local ι → Prop) (hpa : p a) (hpb : p b) (hp : ∀ u, p (party u)) (u : ι) :
      p (update (update party w a) t b u) := update_all p hpb (update_all p hpa hp) u
  have hwaiter : update (update party w a) t b w = a := by rw [update_of_ne htw.symm, update_self]
  have hother {u : ι} (hu : u ≠ t) (huw : u ≠ w) : update (update party w a) t b u = party u := by
    rw [update_of_ne hu, update_of_ne huw]
  -- who wakes a thread is the mover, or woke another one before
  have hwaking {u v : ι} (hu : (update (update party w a) t b u).place = .unlockWake v) :
      u = t ∧ v = w ∧ a.woken = false ∨ u ≠ t ∧ v ≠ w ∧ (party u).place = .unlockWake v := by
    by_cases hut : u = t
    · subst hut
      rw [update_self] at hu
      exact .inl ⟨rfl, (hafter v).mp hu⟩
    · rw [update_of_ne hut, Lib.update_congr Local.place (ha.1.trans hparked.symm)] at hu
      refine .inr ⟨hut, ?_, hu⟩
      rintro rfl
      obtain ⟨hg, hn⟩ := h.waking u v hu
      exact hut (h.waker u t v hu (hpromised hg hn))
  constructor
  · exact hall (fun l => l.granted = true → l.place = .parked) (fun _ => ha.1)
      (by simp [hgranted]) h.granted
  · exact hall (fun l => l.place ≠ .requeue) (by simp [ha.1]) hre h.ungranted
  · exact hall (fun l => l.woken = true → l.granted = true) (fun _ => ha.2) (by simp [hwoken])
      h.woken
  · intro u v hu
    obtain ⟨-, rfl, hn⟩ | ⟨-, hvw, hu⟩ := hwaking hu
    · rw [hwaiter]
      exact ⟨ha.2, hn⟩
    · obtain ⟨hg, hn⟩ := h.waking u v hu
      have hvt : v ≠ t := by
        rintro rfl
        rw [ht] at hg
        cases hg
      rw [hother hvt hvw]
      exact ⟨hg, hn⟩
  · intro u u' v hu hu'
    obtain ⟨rfl, rfl, -⟩ | ⟨-, hvw, hu⟩ := hwaking hu
    · obtain ⟨rfl, -⟩ | ⟨-, hne, -⟩ := hwaking hu'
      · rfl
      · exact absurd rfl hne
    · obtain ⟨-, rfl, -⟩ | ⟨-, -, hu'⟩ := hwaking hu'
      · exact absurd rfl hvw
      · exact h.waker u u' v hu hu'
  · intro v hg hn
    by_cases hvt : v = t
    · subst hvt
      rw [update_self, hgranted] at hg
      cases hg
    · by_cases hvw : v = w
      · subst hvw
        rw [hwaiter] at hn
        exact ⟨t, by rw [update_self]; exact (hafter v).mpr ⟨rfl, hn⟩⟩
      · rw [hother hvt hvw] at hg hn
        obtain ⟨u, hu⟩ := h.promised v hg hn
        refine ⟨u, ?_⟩
        rw [hother, hu]
        · rintro rfl
          exact hvw (hbefore v hu)
        · rintro rfl
          rw [hparked] at hu
          cases hu
  · exact hall (fun l => l.place.Unlocking → l.guard = false) (by rw [ha.1]; exact fun h => h.elim)
      (fun h => absurd h hun) h.dropped

theorem BoostOk.stay [Fintype ι] {boosts elsewhere : ι → ℕ} (h : BoostOk boosts elsewhere party)
    (hb : b.boosted = (party t).boosted) :
    BoostOk boosts elsewhere (update party t b) := by
  intro x
  rw [count_stay (by rw [hb])]
  exact h x

end Roanix.Sys.Mutex
