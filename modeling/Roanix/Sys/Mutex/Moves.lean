import Roanix.Sys.Mutex.Invariant

/-! Each step of the mutex keeps what holds between steps. -/
namespace Roanix.Sys.Mutex
open Lib Function State

attribute [local simp] Place.InSection Local.Owns Local.Waits Local.InSection

variable {ι : Type}

theorem owns_iff {l : Local ι} {b : Place ι} (hg : l.granted = false) (ho : l.place.Owns ↔ b.Owns) :
    l.Owns ↔ { l with place := b }.Owns := by
  simp [hg, ho]

theorem waits_iff {l : Local ι} {b : Place ι} (hw : l.place.Waits ↔ b.Waits) :
    l.Waits ↔ { l with place := b }.Waits := by
  simp [hw]

variable [Fintype ι] [DecidableEq ι] {elsewhere : ι → ℕ}
  {holder : Option ι} {s s' : State ι} {t : ι} {b : Place ι}

theorem inv_new : Inv (fun _ => 0) none (.new : State ι) where
  owns := by
    intro t
    simp [new, Place.Owns]
  latch := by
    intro t
    simp [new]
  queue := by
    refine ⟨by simp [new], by simp [new], ⟨List.nodup_nil, ?_⟩, ?_, ?_, ?_⟩
    · intro t
      simp [new, Place.Waits]
    · intro t ht
      cases ht
    · intro hne
      exact absurd rfl hne
    · intro t ht
      cases ht
  owner := by
    constructor
    · intro x hx
      cases hx
    · intro t ht
      exact ht.elim
    · intro t x hx
      cases hx
    · intro t x hx
      cases hx
  wake := by
    constructor <;> intros <;> simp_all [new, Place.Unlocking]
  boost := by
    intro x
    have hzero : count (fun l : Local ι => l.boosted = some x) (new : State ι).party = 0 := by
      apply count_eq_zero.mpr
      intro t ht
      cases ht
    rw [hzero]
    rfl

section
variable (h : Inv elsewhere holder s)
include h

section
variable (hp : (s.party t).place ≠ .parked)
include hp

theorem Inv.unparked :
    (s.party t).granted = false ∧ (s.party t).woken = false := h.wake.unparked hp

theorem Inv.wake_move (hre : b ≠ .requeue)
    (hwake : ∀ w, (s.party t).place ≠ .unlockWake w) (hwake' : ∀ w, b ≠ .unlockWake w)
    (hdrop : b.Unlocking → (s.party t).guard = false) :
    WakeOk (update s.party t { s.party t with place := b }) := by
  refine h.wake.stay hre hwake hwake' hdrop rfl rfl ?_
  intro hg
  rw [(h.unparked hp).1] at hg
  cases hg

theorem Inv.moveWith {latch : Option ι}
    (hlatch : Sole latch Local.InSection (update s.party t { s.party t with place := b }))
    (hb : ((s.party t).place.Owns ↔ b.Owns) ∧ ((s.party t).place.Waits ↔ b.Waits) ∧
      (s.party t).place ≠ .selfTake ∧ b ≠ .selfTake ∧ (b = .unlockQueue → s.queue ≠ []) ∧
      (b.Nameless → s.owner = none) ∧ (∀ x, b = .boost x → holder = some x) ∧ b ≠ .requeue ∧
      (∀ w, (s.party t).place ≠ .unlockWake w) ∧ (∀ w, b ≠ .unlockWake w) ∧
      (b.Unlocking → (s.party t).guard = false)) :
    Inv elsewhere holder ({ s with queueLock := latch }.goto t b) := by
  obtain ⟨ho, hw, hself, hself', hcont, hname, hboost, hre, hwake, hwake', hdrop⟩ := hb
  exact ⟨h.owns.stay (owns_iff (h.unparked hp).1 ho), hlatch,
    h.queue.stay (waits_iff hw) hself hself' hcont, h.owner.stay hname hboost (waits_iff hw) rfl,
    h.wake_move hp hre hwake hwake' hdrop, h.boost.stay rfl⟩

end

theorem Inv.free (hl : s.locked = false) : holder = none := by
  by_contra hne
  have := h.queue.locked_iff.mpr hne
  rw [hl] at this
  cases this

theorem Inv.seize (hl : s.locked = false) (hq : s.queued = false)
    (hp : (s.party t).place ≠ .parked) (hb : b = .publish) (hs : ¬ (s.party t).place.InSection)
    (hw : ¬ (s.party t).place.Waits) (hwake : ∀ w, (s.party t).place ≠ .unlockWake w) :
    Inv elsewhere (some t) ({ s with locked := true }.goto t b) := by
  subst hb
  have hfree := h.free hl
  subst hfree
  have hself : (s.party t).place ≠ .selfTake := by
    intro heq
    rw [heq] at hs
    exact hs trivial
  have hiff : (s.party t).place.Waits ↔ (Place.publish : Place ι).Waits :=
    ⟨fun h => absurd h hw, fun h => h.elim⟩
  have hqueue := h.queue.stay (waits_iff hiff) hself
    (by simp) (by simp)
  refine ⟨h.owns.enter (.inr (.inl trivial)), h.latch.stay ?_, ?_, ?_, ?_, h.boost.stay rfl⟩
  · exact ⟨fun h => absurd h hs, fun h => h.elim⟩
  · refine ⟨by simp [goto], hqueue.queued_iff, hqueue.listed, ?_, fun _ => .inl rfl,
      hqueue.contended⟩
    -- a thread about to take the mutex itself would have set the other bit
    intro u hu
    have hne : s.queue ≠ [] := by simp [(hqueue.alone u hu).1]
    have := h.queue.queued_iff.mpr hne
    rw [hq] at this
    cases this
  · exact (h.owner.stay (by rintro ⟨⟩) (by simp) (waits_iff hiff) rfl).rehold
  · exact h.wake_move hp (by simp) hwake (by simp) (fun h => h.elim)

theorem Inv.acquire {latch : Option ι} (ho : (s.party t).Owns) (hw : ¬ (s.party t).Waits)
    (hlatch : Sole latch Local.InSection
      (update s.party t ⟨.idle, true, false, false, none⟩))
    (hwake : ∀ w, (s.party t).place ≠ .unlockWake w)
    (hwaker : ∀ u, (s.party u).place ≠ .unlockWake t) :
    Inv elsewhere holder ({ s with queueLock := latch }.acquire t) := by
  have hself : (s.party t).place ≠ .selfTake := by
    intro heq
    apply hw
    refine ⟨?_, (h.unparked (by simp [heq])).1⟩
    rw [heq]
    trivial
  have hiff : (s.party t).Waits ↔ (⟨.idle, true, false, false, none⟩ : Local ι).Waits :=
    ⟨fun h => absurd h hw, fun h => h.1.elim⟩
  have hboosted := h.owner.boosted_eq_none hw
  refine ⟨h.owns.stay ?_, hlatch, h.queue.stay hiff hself (by simp) (by simp),
    h.owner.stay (fun h => h.elim) (by simp) hiff hboosted.symm, ?_, h.boost.stay hboosted.symm⟩
  · exact ⟨fun _ => .inl rfl, fun _ => ho⟩
  · exact h.wake.settle (by simp) hwake (by simp) (fun h => h.elim) hwaker rfl rfl

theorem Inv.rename (owner : Option ι) (hnamed : ∀ x, owner = some x → holder = some x)
    (hcleared : ∀ t, (s.party t).place.Nameless → owner = none) :
    Inv elsewhere holder { s with owner := owner } :=
  { h with owner := ⟨hnamed, hcleared, h.owner.boosting, h.owner.lends⟩ }

theorem Inv.no_waker (hg : (s.party t).granted = false ∨ (s.party t).woken = true)
    (u : ι) : (s.party u).place ≠ .unlockWake t := by
  intro hu
  obtain ⟨hgranted, hwoken⟩ := h.wake.waking u t hu
  rw [hgranted, hwoken] at hg
  simp at hg

theorem Inv.queue_eq_nil (hl : s.locked = false)
    (hs : (s.party t).InSection) (hself : (s.party t).place ≠ .selfTake) : s.queue = [] := by
  by_contra hne
  obtain hlocked | ⟨u, hu⟩ := h.queue.busy hne
  · rw [hl] at hlocked
    cases hlocked
  · have := h.latch.unique (Local.inSection hu trivial) hs
    subst this
    exact hself hu

theorem Inv.holder_eq (ho : (s.party t).Owns) : holder = some t :=
  (h.owns t).mpr ho

theorem Inv.take (hl : s.locked = false) (hplace : (s.party t).place = .selfTake ∧ b = .selfOwner ∨
      (∃ q, (s.party t).place = .take q) ∧ b = .slowPublish) :
    Inv elsewhere (some t) ({ s with locked := true, queued := false, queue := [] }.goto t b) := by
  have hfree := h.free hl
  subst hfree
  have hs : (s.party t).InSection := by
    unfold Local.InSection
    obtain ⟨ht, -⟩ | ⟨⟨q, ht⟩, -⟩ := hplace <;> rw [ht] <;> trivial
  have hp : (s.party t).place ≠ .parked := by
    obtain ⟨ht, -⟩ | ⟨⟨q, ht⟩, -⟩ := hplace <;> rw [ht] <;> simp
  have hwake : ∀ w, (s.party t).place ≠ .unlockWake w := by
    intro w
    obtain ⟨ht, -⟩ | ⟨⟨q, ht⟩, -⟩ := hplace <;> rw [ht] <;> simp
  have hb : b.Owns ∧ b.InSection ∧ ¬ b.Waits ∧ b ≠ .requeue ∧ (∀ w, b ≠ .unlockWake w) ∧
      ¬ b.Unlocking ∧ ¬ b.Nameless ∧ (∀ x, b ≠ .boost x) ∧ b ≠ .selfTake ∧ b ≠ .unlockQueue := by
    obtain ⟨-, rfl⟩ | ⟨-, rfl⟩ := hplace <;>
      simp [Place.Owns, Place.Waits, Place.Unlocking, Place.Nameless]
  obtain ⟨howns, hin, hwaits, hre, hwake', hun, hname, hboost, hself', hqueue⟩ := hb
  -- only this thread can have been in the queue
  have hothers : ∀ u, u ≠ t → ¬ (s.party u).Waits := by
    intro u hne hu
    have hmem := (h.queue.listed.mem u).mpr hu
    obtain ⟨ht, -⟩ | ⟨⟨q, ht⟩, -⟩ := hplace
    · rw [(h.queue.alone t ht).1, List.mem_singleton] at hmem
      exact hne hmem
    · rw [h.queue_eq_nil hl hs (by simp [ht])] at hmem
      cases hmem
  have hnowaits : ∀ u, ¬ (update s.party t { s.party t with place := b } u).Waits := by
    intro u hu
    obtain ⟨-, hu⟩ | ⟨hne, hu⟩ := update_cases Local.Waits hu
    · exact hwaits hu.1
    · exact hothers u hne hu
  refine ⟨h.owns.enter (.inr (.inl howns)), h.latch.stay ⟨fun _ => hin, fun _ => hs⟩, ?_, ?_,
    h.wake_move hp hre hwake hwake' fun h => absurd h hun, h.boost.stay rfl⟩
  · refine ⟨by simp [goto], by simp [goto], ⟨List.nodup_nil, ?_⟩, ?_, ?_, ?_⟩
    · intro u
      exact ⟨fun h => (by cases h), fun hu => absurd hu (hnowaits u)⟩
    · intro u hu
      obtain ⟨-, hu⟩ | ⟨hne, hu⟩ := update_cases (fun l : Local ι => l.place = .selfTake) hu
      · exact absurd hu hself'
      · exact absurd (h.latch.unique (Local.inSection hu trivial) hs) hne
    · intro hne
      exact absurd rfl hne
    · intro u hu
      obtain ⟨-, hu⟩ | ⟨hne, hu⟩ := update_cases (fun l : Local ι => l.place = .unlockQueue) hu
      · exact absurd hu hqueue
      · have : (s.party u).Owns := by
          unfold Local.Owns
          rw [hu]
          exact .inr (.inl trivial)
        cases (h.owns u).mpr this
  · apply h.owner.rehold.move (fun h => absurd h hname) (fun x hx => absurd hx (hboost x))
    intro x hx
    cases (h.owner.lends t x hx).2

theorem Inv.waits_of_boost {x : ι} (ht : (s.party t).place = .boost x) :
    (s.party t).Waits := by
  refine ⟨?_, (h.unparked (by simp [ht])).1⟩
  rw [ht]
  trivial

theorem Inv.release (ht : (s.party t).place = .unlockExchange)
    (hq : s.queued = false) : Inv elsewhere none ({ s with locked := false }.goto t .idle) := by
  have howns : (s.party t).Owns := by
    unfold Local.Owns
    rw [ht]
    exact .inr (.inl trivial)
  have hempty := h.queue.empty hq
  have hguard : (s.party t).guard = false := h.wake.dropped t (by rw [ht]; trivial)
  have hwaits : (s.party t).Waits ↔ { s.party t with place := .idle }.Waits :=
    waits_iff (by simp [ht, Place.Waits])
  have hqueue := h.queue.stay hwaits (by simp [ht]) (by simp) (by simp)
  have hnone : s.owner = none := h.owner.cleared t (by rw [ht]; trivial)
  refine ⟨h.owns.leave howns ?_, h.latch.stay ?_, ?_, ?_, ?_, h.boost.stay rfl⟩
  · simp [hguard, Place.Owns]
  · simp [ht]
  · refine ⟨by simp [goto], hqueue.queued_iff, hqueue.listed,
      fun u hu => ⟨(hqueue.alone u hu).1, rfl⟩, ?_, hqueue.contended⟩
    intro hne
    exact absurd hempty hne
  · have hvacant : OwnerOk none s.owner s.party := by
      have howner := h.owner
      rw [hnone] at howner ⊢
      apply howner.vacate
      · intro u hu
        have := (h.queue.listed.mem u).mpr hu
        rw [hempty] at this
        cases this
      · intro u x hu
        have := (h.queue.listed.mem u).mpr (h.waits_of_boost hu)
        rw [hempty] at this
        cases this
    exact hvacant.stay (fun h => h.elim) (by simp) hwaits rfl
  · exact h.wake_move (by simp [ht]) (by simp) (by simp [ht]) (by simp) (fun h => h.elim)

end

/-! Lending and handing off: the boosts of a thread are those its waiters lend, and a hand-off moves
them all to the first waiter. -/
variable {w : ι} {rest : List ι}

theorem BoostOk.set {boosts boosts' : ι → ℕ} {party : ι → Local ι}
    (h : BoostOk boosts elsewhere party) (t : ι) (next : Option ι)
    (hb : ∀ x, boosts' x = boosts x + (if next = some x then 1 else 0) -
      if (party t).boosted = some x then 1 else 0) :
    BoostOk boosts' elsewhere (update party t { party t with boosted := next }) := by
  intro x
  have hx := h x
  have hcount := count_update (p := fun l : Local ι => l.boosted = some x) party t
    { party t with boosted := next }
  rw [hb]
  dsimp only at hcount ⊢
  omega

theorem boostOk_lendBoost (h : BoostOk s.boosts elsewhere s.party) (t owner : ι) :
    BoostOk (s.lendBoost t owner).boosts elsewhere (s.lendBoost t owner).party := by
  refine h.set t (some owner) fun x => ?_
  unfold lendBoost
  cases hold : (s.party t).boosted with
  | none | some previous => grind [update_apply]

theorem boostOk_releaseBoost (h : BoostOk s.boosts elsewhere s.party) (t : ι) :
    BoostOk (s.releaseBoost t).boosts elsewhere (s.releaseBoost t).party := by
  refine h.set t none fun x => ?_
  unfold releaseBoost
  cases hold : (s.party t).boosted with
  | none | some previous => grind [update_apply]

theorem transferBoosts_spec (owner : ι) (queue : List ι) :
    ∀ s : State ι, BoostOk s.boosts elsewhere s.party →
      ∃ boosts, s.transferBoosts owner queue = { s with
          boosts := boosts
          party := fun u => if u ∈ queue then { s.party u with boosted := some owner }
            else s.party u } ∧
        BoostOk boosts elsewhere (s.transferBoosts owner queue).party := by
  induction queue with
  | nil =>
    intro s h
    exact ⟨s.boosts, by simp [transferBoosts], h⟩
  | cons waiter rest ih =>
    intro s h
    obtain ⟨boosts, heq, hok⟩ := ih _ (boostOk_lendBoost h waiter owner)
    refine ⟨boosts, ?_, hok⟩
    unfold transferBoosts
    rw [heq]
    unfold lendBoost
    congr 1
    funext u
    by_cases hu : u = waiter
    · subst hu
      by_cases hmem : u ∈ rest <;> simp [hmem]
    · by_cases hmem : u ∈ rest <;> simp [hu]

omit [Fintype ι] in
theorem transferBoosts_queue (owner : ι) (waiters : List ι) (s : State ι) :
    (s.transferBoosts owner waiters).queue = s.queue := by
  induction waiters generalizing s with
  | nil => rfl
  | cons waiter rest ih => exact ih (s.lendBoost waiter owner)

theorem BoostOk.congr {boosts : ι → ℕ} {party party' : ι → Local ι}
    (h : BoostOk boosts elsewhere party) (hb : ∀ u, (party' u).boosted = (party u).boosted) :
    BoostOk boosts elsewhere party' := by
  intro x
  unfold count
  simp only [hb]
  exact h x

def handedOff (party : ι → Local ι) (t w : ι) (rest : List ι) (u : ι) : Local ι :=
  if u = t then { party t with place := .unlockWake w }
  else if u = w then { party w with boosted := none, granted := true }
  else { party u with boosted := if u ∈ rest then some w else (party u).boosted }

section HandedOff
variable {party : ι → Local ι} {u : ι}

section
omit [Fintype ι]

@[simp] theorem handedOff_unlocker :
    handedOff party t w rest t = { party t with place := .unlockWake w } := by
  simp [handedOff]

theorem handedOff_heir (h : w ≠ t) :
    handedOff party t w rest w = { party w with boosted := none, granted := true } := by
  simp [handedOff, h]

theorem handedOff_other (ht : u ≠ t) (hw : u ≠ w) : handedOff party t w rest u =
    { party u with boosted := if u ∈ rest then some w else (party u).boosted } := by
  simp [handedOff, ht, hw]

theorem handedOff_place (ht : u ≠ t) : (handedOff party t w rest u).place = (party u).place := by
  by_cases huw : u = w
  · subst huw
    rw [handedOff_heir ht]
  · rw [handedOff_other ht huw]

theorem of_handedOff (p : Place ι → Prop) (hp : ¬ p (.unlockWake w))
    (h : p (handedOff party t w rest u).place) : u ≠ t ∧ p (party u).place := by
  by_cases hut : u = t
  · subst hut
    rw [handedOff_unlocker] at h
    exact absurd h hp
  · rw [handedOff_place hut] at h
    exact ⟨hut, h⟩

theorem WakeOk.handOff (h : WakeOk party) (ht : (party t).place = .unlockQueue)
    (hparked : (party w).place = .parked) (hw : (party w).granted = false) (htw : t ≠ w) :
    WakeOk (handedOff party t w rest) := by
  obtain ⟨hungranted, hwoken⟩ := h.unparked (t := t) (by simp [ht])
  have hlent : WakeOk fun u =>
      { party u with boosted := if u ∈ rest then some w else (party u).boosted } :=
    ⟨h.granted, h.ungranted, h.woken, h.waking, h.waker, h.promised, h.dropped⟩
  have hnext := hlent.exchange (a := { party w with boosted := none, granted := true })
    (b := { party t with place := .unlockWake w }) htw hparked ⟨hparked, rfl⟩ hungranted
    (by simp [ht]) (by simp [hw]) ⟨hungranted, hwoken, by simp, id⟩
    (by simp [h.unwoken hw, eq_comm])
  convert hnext using 1
  funext u
  unfold handedOff
  rw [update_apply, update_apply]

end

end HandedOff

theorem handOff_eq (h : BoostOk s.boosts elsewhere s.party) (htw : t ≠ w) (ht : t ∉ rest)
    (hw : w ∉ rest) :
    ∃ boosts, s.handOff t w rest = { s with
        owner := some w
        queue := rest
        locked := true
        queued := rest ≠ []
        boosts := boosts
        party := handedOff s.party t w rest } ∧
      BoostOk boosts elsewhere (handedOff s.party t w rest) := by
  have hrelease := boostOk_releaseBoost (s := { s with
    owner := some w, queue := rest, locked := true, queued := rest ≠ [] }) h w
  obtain ⟨boosts, heq, hok⟩ := transferBoosts_spec w rest _ hrelease
  have hparty : handedOff s.party t w rest = (s.handOff t w rest).party := by
    funext u
    unfold handOff goto
    dsimp only
    rw [heq]
    unfold handedOff releaseBoost
    by_cases hut : u = t
    · subst hut
      simp [htw, ht]
    · by_cases huw : u = w
      · subst huw
        simp [hut, hw]
      · by_cases hmem : u ∈ rest <;> simp [hut, huw, hmem]
  refine ⟨boosts, ?_, hok.congr fun u => ?_⟩
  · rw [hparty]
    unfold handOff goto
    dsimp only
    rw [heq]
    rfl
  · rw [heq]
    unfold releaseBoost
    by_cases hut : u = t
    · subst hut
      simp [htw, ht]
    · by_cases huw : u = w
      · subst huw
        simp [handedOff_heir hut, hw]
      · by_cases hmem : u ∈ rest <;> simp [handedOff_other hut huw, hmem, huw]

theorem Inv.asleep (h : Inv elsewhere holder s) (hq : s.queueLock = none) {u : ι}
    (hu : (s.party u).Waits) : (s.party u).place = .parked := by
  have hout : ¬ (s.party u).place.InSection := by
    intro hin
    cases hq.symm.trans ((h.latch u).mpr hin)
  have hre := h.wake.ungranted u
  cases hp : (s.party u).place <;> simp_all [Place.Waits, Place.InSection]

theorem Inv.handOff (h : Inv elsewhere holder s) (ht : (s.party t).place = .unlockQueue)
    (hq : s.queueLock = none) (hw : s.queue = w :: rest) :
    Inv elsewhere (some w) (s.handOff t w rest) := by
  have howns : (s.party t).Owns := .inr (.inl (by rw [ht]; trivial))
  have hsole : ∀ {u}, (s.party u).Owns → u = t := fun hu => h.owns.unique hu howns
  have hmem : ∀ u, u ∈ w :: rest ↔ (s.party u).Waits := by
    rw [← hw]
    exact h.queue.listed.mem
  have hnodup : (w :: rest).Nodup := hw ▸ h.queue.listed.nodup
  have hout : ¬ (s.party t).Waits := by
    rintro ⟨hwaits, -⟩
    rw [ht] at hwaits
    exact hwaits
  have hnot : t ∉ w :: rest := fun hin => hout ((hmem t).mp hin)
  obtain ⟨hwrest, hrest⟩ := List.nodup_cons.mp hnodup
  have htw : t ≠ w := fun heq => hnot (heq ▸ List.mem_cons_self)
  have htrest : t ∉ rest := fun hin => hnot (List.mem_cons_of_mem _ hin)
  have hheir : (s.party w).Waits := (hmem w).mp List.mem_cons_self
  have hparked := h.asleep hq hheir
  have hsection : ∀ u, ¬ (s.party u).place.InSection := by
    intro u hin
    cases hq.symm.trans ((h.latch u).mpr hin)
  have hguard := h.wake.dropped t (by rw [ht]; trivial)
  have hwaits : ∀ u, (handedOff s.party t w rest u).Waits ↔ u ∈ rest := by
    intro u
    by_cases hut : u = t
    · subst hut
      simp [Local.Waits, Place.Waits, htrest]
    · by_cases huw : u = w
      · subst huw
        simp [handedOff_heir hut, Local.Waits, hwrest]
      · have hin := hmem u
        simp only [List.mem_cons, huw, false_or] at hin
        rw [handedOff_other hut huw]
        exact hin.symm
  obtain ⟨boosts, heq, hboost⟩ := handOff_eq h.boost htw htrest hwrest
  rw [heq]
  refine ⟨?_, ?_, ?_, ?_, ?_, hboost⟩
  · intro u
    dsimp only
    by_cases hut : u = t
    · subst hut
      simp [Local.Owns, hguard, Place.Owns, Ne.symm htw]
    · by_cases huw : u = w
      · subst huw
        simp [handedOff_heir hut, Local.Owns, hparked]
      · rw [handedOff_other hut huw]
        exact ⟨fun heq => absurd (Option.some.inj heq).symm huw, fun hu => absurd (hsole hu) hut⟩
  · intro u
    rw [hq]
    refine ⟨fun hn => (by cases hn), fun hu => ?_⟩
    exact absurd (of_handedOff Place.InSection id hu).2 (hsection u)
  · refine ⟨by simp, by simp, ⟨hrest, fun u => (hwaits u).symm⟩, ?_, fun _ => .inl rfl, ?_⟩
    · intro u hu
      obtain ⟨-, hu⟩ := of_handedOff (· = .selfTake) (by simp) hu
      exact absurd (by rw [hu]; trivial) (hsection u)
    · intro u hu
      obtain ⟨hut, hu⟩ := of_handedOff (· = .unlockQueue) (by simp) hu
      exact absurd (hsole (.inr (.inl (by rw [hu]; trivial)))) hut
  · constructor
    · intro x hx
      exact hx
    · intro u hu
      obtain ⟨hut, hu⟩ := of_handedOff Place.Nameless id hu
      cases hp : (s.party u).place <;> simp_all [Place.Nameless, Place.Owns]
    · intro u x hu
      obtain ⟨-, hu⟩ := of_handedOff (· = .boost x) (by simp) hu
      exact absurd (by rw [hu]; trivial) (hsection u)
    · intro u x hu
      dsimp only at hu ⊢
      rw [hwaits u]
      by_cases hut : u = t
      · subst hut
        rw [handedOff_unlocker] at hu
        exact absurd (h.owner.lends u x hu).1 hout
      · by_cases huw : u = w
        · subst huw
          rw [handedOff_heir hut] at hu
          cases hu
        · rw [handedOff_other hut huw] at hu
          by_cases hur : u ∈ rest
          · simp only [if_pos hur] at hu
            exact ⟨hur, hu⟩
          · simp only [if_neg hur] at hu
            have hin := (hmem u).mpr (h.owner.lends u x hu).1
            simp [huw, hur] at hin
  · exact h.wake.handOff ht hparked hheir.2 htw

end Roanix.Sys.Mutex
