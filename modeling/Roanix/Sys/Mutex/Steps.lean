import Roanix.Sys.Mutex.Moves

/-! Every step of a thread keeps what holds between the steps of its mutex. -/
namespace Roanix.Sys.Mutex
open Lib Function

attribute [local simp] Place.InSection Place.Waits Place.Nameless Local.InSection Place.Unlocking
  Local.Owns Local.Waits

variable {ι : Type} [Fintype ι] [DecidableEq ι] {elsewhere : ι → ℕ}
  {holder : Option ι} {s s' : State ι} {t w : ι} {b : Place ι}

theorem Inv.name (h : Inv elsewhere holder s) (ho : (s.party t).place.Owns)
    (hn : ¬ (s.party t).place.Nameless) (owner : Option ι) (howner : ∀ x, owner = some x → x = t) :
    Inv elsewhere holder { s with owner := owner } := by
  have hholder := h.holder_eq (.inr (.inl ho))
  apply h.rename
  · intro x hx
    rw [howner x hx]
    exact hholder
  · intro u hu
    have howns : (s.party u).Owns := by
      refine .inr (.inl ?_)
      cases hp : (s.party u).place <;> simp_all [Place.Nameless, Place.Owns]
    have := h.owns.unique howns (.inr (.inl ho))
    subst this
    exact absurd hu hn

omit [Fintype ι] [DecidableEq ι] in
theorem eq_of_named {known : Bool} {x : ι} (h : (if known then some t else none) = some x) :
    x = t := by
  cases known with
  | true => exact (Option.some.inj h).symm
  | false => cases h

section
variable (h : Inv elsewhere holder s)
include h

theorem Inv.enqueue (ht : (s.party t).place = .enqueue) :
    Inv elsewhere holder { s with
      queued := true
      queue := s.queue ++ [t]
      party := update s.party t
        ⟨if s.locked then .lend else .selfTake, (s.party t).guard, false, false, none⟩ } := by
  have hin : (s.party t).InSection := Local.inSection ht trivial
  have hout : ¬ (s.party t).Waits := by
    rintro ⟨hwaits, -⟩
    rw [ht] at hwaits
    exact hwaits
  obtain ⟨hgranted, -⟩ := h.unparked (t := t) (by simp [ht])
  have hplace : (if s.locked then .lend else .selfTake : Place ι) = .lend ∨
      s.locked = false ∧ (if s.locked then .lend else .selfTake : Place ι) = .selfTake := by
    cases s.locked <;> simp
  generalize hb : (if s.locked then .lend else .selfTake : Place ι) = b at hplace
  have hb' : b.Waits ∧ b.InSection ∧ ¬ b.Owns ∧ ¬ b.Nameless ∧ ¬ b.Unlocking ∧ b ≠ .requeue ∧
      (∀ x, b ≠ .boost x) ∧ (∀ x, b ≠ .unlockWake x) ∧ b ≠ .unlockQueue ∧ b ≠ .parked := by
    obtain rfl | ⟨-, rfl⟩ := hplace <;>
      simp [Place.Owns]
  obtain ⟨hwaits, hsection, howns, hname, hun, hre, hboost, hwake, hcont, hparked⟩ := hb'
  refine ⟨h.owns.stay ?_, h.latch.stay ⟨fun _ => hsection, fun _ => hin⟩, ?_, ?_, ?_, ?_⟩
  · have hbefore : ¬ (s.party t).place.Owns := by
      rw [ht]
      exact id
    simp [hgranted, howns, hbefore]
  · refine ⟨h.queue.locked_iff, by simp, h.queue.listed.push hout ⟨hwaits, rfl⟩, ?_, ?_, ?_⟩
    · intro u hu
      obtain ⟨rfl, hself⟩ | ⟨hne, hu⟩ := update_cases (fun l : Local ι => l.place = .selfTake) hu
      · obtain rfl | ⟨hl, -⟩ := hplace
        · cases hself
        · rw [h.queue_eq_nil hl hin (by simp [ht])]
          exact ⟨rfl, hl⟩
      · exact absurd (h.latch.unique (Local.inSection hu trivial) hin) hne
    · intro _
      cases hl : s.locked with
      | true => exact .inl rfl
      | false =>
        rw [hl] at hb
        exact .inr ⟨t, update_mover (fun l : Local ι => l.place = .selfTake) hb.symm⟩
    · intro u _
      simp
  · exact h.owner.move (fun h => absurd h hname) (fun x hx => absurd hx (hboost x))
      fun x hx => by cases hx
  · exact h.wake.settle hre (by simp [ht]) hwake (fun h => absurd h hun)
      (h.no_waker (.inl hgranted)) rfl rfl
  · exact h.boost.stay (h.owner.boosted_eq_none hout).symm

theorem Inv.lend {x : ι} (ht : (s.party t).place = .boost x) :
    Inv elsewhere holder ({ s.lendBoost t x with queueLock := none }.goto t .parked) := by
  have hwaits := h.waits_of_boost ht
  have hsection : (s.party t).InSection := Local.inSection ht trivial
  have hgranted := hwaits.2
  have hparty : update (s.lendBoost t x).party t
      { (s.lendBoost t x).party t with place := .parked } =
        update s.party t { s.party t with place := .parked, boosted := some x } := by
    simp [State.lendBoost]
  have hiff : (s.party t).Waits ↔
      { s.party t with place := .parked, boosted := some x }.Waits :=
    ⟨fun _ => ⟨trivial, hgranted⟩, fun _ => hwaits⟩
  have hboost := (boostOk_lendBoost h.boost t x).stay
    (b := { (s.lendBoost t x).party t with place := .parked }) rfl
  unfold State.goto
  rw [hparty] at hboost ⊢
  refine ⟨h.owns.stay ?_, h.latch.leave hsection ?_, ?_, ?_, ?_, hboost⟩
  · simp [hgranted, ht, Place.Owns]
  · exact id
  · exact h.queue.stay hiff (by simp [ht]) (by simp) (by simp)
  · refine h.owner.move (fun h => h.elim) (by simp) fun y hy => ?_
    cases hy
    exact ⟨hiff.mp hwaits, h.owner.boosting t x ht⟩
  · exact h.wake.stay (by simp) (by simp [ht]) (by simp) (fun h => h.elim) rfl rfl (fun _ => rfl)

theorem Inv.unlock (ht : (s.party t).place = .idle) (hg : (s.party t).guard = true) :
    Inv elsewhere holder { s with
      party := update s.party t
        { s.party t with place := .unlockClear, guard := false } } := by
  obtain ⟨hgranted, -⟩ := h.unparked (t := t) (by simp [ht])
  have hiff : (s.party t).Waits ↔
      { s.party t with place := .unlockClear, guard := false }.Waits := by
    simp [ht]
  refine ⟨h.owns.stay ?_, h.latch.stay ?_, ?_, ?_, ?_, h.boost.stay rfl⟩
  · simp [hg, Place.Owns]
  · simp [ht]
  · exact h.queue.stay hiff (by simp [ht]) (by simp) (by simp)
  · exact h.owner.stay (fun h => h.elim) (by simp) hiff rfl
  · refine h.wake.stay (by simp) (by simp [ht]) (by simp) (fun _ => rfl) rfl rfl ?_
    intro htrue
    rw [hgranted] at htrue
    cases htrue

theorem Inv.deliver (ht : (s.party t).place = .unlockWake w) :
    Inv elsewhere holder ({ s with
      party := update s.party w { s.party w with woken := true } }.goto t .idle) := by
  obtain ⟨hgranted, -⟩ := h.wake.waking t w ht
  have htw : t ≠ w := by
    rintro rfl
    rw [h.wake.granted t hgranted] at ht
    cases ht
  have hmover : update s.party w { s.party w with woken := true } t = s.party t :=
    update_of_ne htw _ _
  have hself : (s.party w).place ≠ .selfTake := by
    rw [h.wake.granted w hgranted]
    simp
  have hself' : (s.party t).place ≠ .selfTake := by simp [ht]
  obtain ⟨hungranted, hunwoken⟩ := h.unparked (t := t) (by simp [ht])
  have howns : (s.party t).Owns ↔ { s.party t with place := .idle }.Owns :=
    owns_iff hungranted (by simp [ht, Place.Owns])
  have hwaits : (s.party t).Waits ↔ { s.party t with place := .idle }.Waits :=
    waits_iff (by simp [ht])
  have hparked := h.wake.granted w hgranted
  -- the waiter first, which moves nowhere, then the waker
  have howned := h.owns.stay (a := { s.party w with woken := true }) Iff.rfl
  have hlatch := h.latch.stay (a := { s.party w with woken := true }) Iff.rfl
  have hqueue := h.queue.stay (b := { s.party w with woken := true }) Iff.rfl hself hself
    (by simp [hparked])
  have howner := h.owner.stay (b := { s.party w with woken := true }) (h.owner.cleared w)
    (h.owner.boosting w) Iff.rfl rfl
  have hboost := h.boost.stay (b := { s.party w with woken := true }) rfl
  have hwake := h.wake.exchange (a := { s.party w with woken := true })
    (b := { s.party t with place := .idle }) htw hparked ⟨hparked, hgranted⟩ hungranted
    (fun v hv => Place.unlockWake.inj (hv.symm.trans ht)) (fun _ _ => ht)
    ⟨hungranted, hunwoken, by simp, id⟩ (by simp)
  unfold State.goto
  dsimp only
  rw [hmover]
  refine ⟨howned.stay ?_, hlatch.stay ?_, hqueue.stay ?_ ?_ (by simp) (by simp),
    howner.stay (fun h => h.elim) (by simp) ?_ ?_, hwake, hboost.stay ?_⟩ <;> rw [hmover]
  · exact howns
  · simp [ht]
  · exact hwaits
  · exact hself'
  · exact hwaits

/-- Whom the mutex goes to: the first in the queue if there is one, and who arrives goes last. -/
inductive Passes : Option ι → Option ι → List ι → List ι → Prop
  | keep {holder : Option ι} {queue : List ι} : Passes holder holder queue queue
  | arrive {holder : Option ι} {queue : List ι} {t : ι} (ht : t ∉ queue) :
      Passes holder holder queue (queue ++ [t])
  | take {queue queue' : List ι} {t : ι} (h : queue = [] ∨ queue = [t]) (h' : queue' = []) :
      Passes none (some t) queue queue'
  | release {queue queue' : List ι} {t : ι} (h : queue = []) (h' : queue' = []) :
      Passes (some t) none queue queue'
  | handOff {queue queue' : List ι} {t w : ι} (h : queue = w :: queue') :
      Passes (some t) (some w) queue queue'

theorem Inv.step (hstep : Step t s s') :
    ∃ holder', Inv elsewhere holder' s' ∧ Passes holder holder' s.queue s'.queue := by
  cases hstep with
  | lock once ht | spinEnds ht | testFree ht _ | testTaken ht _ =>
    refine ⟨holder, h.moveWith ?_ (h.latch.stay ?_) ?_, .keep⟩ <;> simp [ht, Place.Owns]
  | fastTake ht hl hq | spinTake ht hl hq =>
    have hempty := h.queue.empty hq
    have hfree := h.free hl
    subst hfree
    refine ⟨some t, h.seize hl hq ?_ rfl ?_ ?_ ?_, .take (.inl hempty) hempty⟩ <;>
      simp [ht]
  | @fastFails once ht _ =>
    cases once <;>
      refine ⟨holder, h.moveWith ?_ (h.latch.stay ?_) ?_, .keep⟩ <;> simp [ht, Place.Owns]
  | publish known ht =>
    have hnamed := h.name (by rw [ht]; trivial) (by rw [ht]; exact id)
      (if known then some t else none) fun x => eq_of_named
    refine ⟨holder, hnamed.acquire ?_ ?_ (hnamed.latch.stay ?_) ?_
      (h.no_waker (.inl (h.unparked ?_).1)), .keep⟩ <;> simp [ht, Place.Owns]
  | queueLock ht hq =>
    have hlatch := h.latch
    rw [hq] at hlatch
    refine ⟨holder, h.moveWith ?_ (hlatch.enter ?_) ?_, .keep⟩ <;> simp [ht, Place.Owns]
  | slowTake ht hl _ =>
    have hin : (s.party t).InSection := Local.inSection ht trivial
    have hempty := h.queue_eq_nil hl hin (by simp [ht])
    have hfree := h.free hl
    subst hfree
    exact ⟨some t, h.take hl (.inr ⟨⟨_, ht⟩, rfl⟩), .take (.inl hempty) rfl⟩
  | slowTakeFails ht _ | cannotPark ht | lendNone ht _ =>
    refine ⟨holder, h.moveWith ?_ (h.latch.leave ?_ ?_) ?_, .keep⟩ <;> simp [ht, Place.Owns]
  | slowPublish known ht =>
    have hnamed := h.name (by rw [ht]; trivial) (by rw [ht]; exact id)
      (if known then some t else none) fun x => eq_of_named
    refine ⟨holder, hnamed.acquire ?_ ?_ (hnamed.latch.leave ?_ ?_) ?_
      (h.no_waker (.inl (h.unparked ?_).1)), .keep⟩ <;> simp [ht, Place.Owns]
  | enqueue ht =>
    refine ⟨holder, h.enqueue ht, .arrive fun hmem => ?_⟩
    have hwaits := ((h.queue.listed.mem t).mp hmem).1
    rw [ht] at hwaits
    exact hwaits
  | selfTake ht =>
    obtain ⟨hqueue, hl⟩ := h.queue.alone t ht
    have hfree := h.free hl
    subst hfree
    exact ⟨some t, h.take hl (.inl ⟨ht, rfl⟩), .take (.inr hqueue) rfl⟩
  | selfOwner ht =>
    have hnamed := h.name (by rw [ht]; trivial) (by rw [ht]; exact id) (some t)
      fun x hx => (Option.some.inj hx).symm
    refine ⟨holder, hnamed.moveWith ?_ (hnamed.latch.leave ?_ ?_) ?_, .keep⟩ <;> simp [ht, Place.Owns]
  | selfWake ht =>
    refine ⟨holder, h.acquire ?_ ?_ (h.latch.stay ?_) ?_ (h.no_waker (.inl (h.unparked ?_).1)),
      .keep⟩ <;> simp [ht, Place.Owns]
  | lend ht ho =>
    have hholder := h.owner.named _ ho
    refine ⟨holder, h.moveWith ?_ (h.latch.stay ?_) ?_, .keep⟩ <;>
      simp [ht, hholder, Place.Owns]
  | boost ht => exact ⟨holder, h.lend ht, .keep⟩
  | granted ht hw hg =>
    refine ⟨holder, h.acquire (.inr (.inr ⟨ht, hg⟩)) ?_ (h.latch.stay ?_) ?_ ?_, .keep⟩
    · simp [hg]
    · simp [ht]
    · simp [ht]
    · exact h.no_waker (.inr hw)
  | ungranted ht hw hg =>
    have := h.wake.woken t hw
    rw [hg] at this
    cases this
  | requeue ht _ => exact absurd ht (h.wake.ungranted t)
  | unlock ht hg => exact ⟨holder, h.unlock ht hg, .keep⟩
  | unlockClear ht =>
    have hnamed : Inv elsewhere holder { s with owner := none } :=
      h.name (by rw [ht]; trivial) (by rw [ht]; exact id) none fun x hx => (by cases hx)
    have hguard := h.wake.dropped t (by rw [ht]; trivial)
    refine ⟨holder, hnamed.moveWith ?_ (h.latch.stay ?_) ?_, .keep⟩ <;>
      simp [ht, hguard, Place.Owns]
  | unlockFree ht _ hq =>
    have hholder := h.holder_eq (.inr (.inl (by rw [ht]; trivial)))
    have hempty := h.queue.empty hq
    subst hholder
    exact ⟨none, h.release ht hq, .release hempty hempty⟩
  | unlockContended ht hw =>
    have hholder := h.holder_eq (.inr (.inl (by rw [ht]; trivial)))
    have hlocked := h.queue.locked_iff.mpr (by simp [hholder])
    have hqueue : s.queue ≠ [] := h.queue.queued_iff.mp (by simpa [hlocked] using hw)
    have hguard := h.wake.dropped t (by rw [ht]; trivial)
    have hnone := h.owner.cleared t (by rw [ht]; trivial)
    refine ⟨holder, h.moveWith ?_ (h.latch.stay ?_) ?_, .keep⟩ <;>
      simp [ht, hqueue, hguard, hnone, Place.Owns]
  | handOff ht hq hw =>
    have hholder := h.holder_eq (.inr (.inl (by rw [ht]; trivial)))
    subst hholder
    exact ⟨_, h.handOff ht hq hw, .handOff (by rw [State.handOff, transferBoosts_queue]; exact hw)⟩
  | wake ht _ => exact ⟨holder, h.deliver ht, .keep⟩

end

end Roanix.Sys.Mutex
