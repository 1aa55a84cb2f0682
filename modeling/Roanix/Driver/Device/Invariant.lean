import Roanix.Driver.Device.Basic

/-! What holds of a device while its removals and detaches do not overlap: one thread at a time has
it, and what that thread knows of it follows from where the thread is. -/
namespace Roanix.Driver.Device
open Lib Function

namespace Place
variable {δ : Type}

def Binding : Place δ → Prop
  | bindStore _ | evaluate _ | bindNext _ | probe _ _ | probeFailed _ _ | bindBound _
  | bindDeferred => True
  | _ => False

def Unbinding : Place δ → Prop
  | unbindDriver _ | unbindState _ _ | unbindExchange _ _ | unbindStore _ _ | unbindPin _ _ _
  | calling _ _ _ | unbindClear _ _ | unbindRestore _ => True
  | _ => False

def Leaving : Place δ → Prop
  | unbindDriver _ | unbindState _ _ | unbindExchange _ _ | unbindStore _ _ | unbindPin _ _ _
  | calling _ _ _ | unbindClear _ _ | unbindRestore _ | removeLoad | removeExchange _ | removeStore
  | removeDead => True
  | _ => False

/-- The thread has the device: it made the last transition and has not given it back. -/
def Owns : Place δ → Prop
  | bindStore _ | evaluate _ | bindNext _ | probe _ _ | probeFailed _ _ | bindBound _
  | bindDeferred | unbindDriver true | unbindState true _ | unbindStore _ _
  | unbindPin _ _ _ | calling _ _ _ | unbindClear _ _ | unbindRestore _ | removeStore
  | removeDead => True
  | _ => False

end Place

/-- A remove or a detach starts only when no thread is in one, and a detach only when no probe is
running; a driver is unbound before its module is gone. -/
structure Permitted {δ ι : Type} (t : ι) (s s' : State δ ι) : Prop where
  apart : ¬ (s.party t).Leaving → (s'.party t).Leaving → ∀ u, ¬ (s.party u).Leaving
  settled : s'.party t = .unbindDriver false → s.device.state ≠ .probing
  pinned : ∀ byRemove driver wasBound, s.party t = .unbindPin byRemove driver wasBound →
    s.ownerDead driver = false

section Inv
variable {δ ι : Type} [DecidableEq δ]

namespace Record

def Free (r : Record δ) : Prop := r.driver = none ∧ life r.log = some .free

def BoundTo (r : Record δ) (driver : δ) : Prop :=
  r.driver = some driver ∧ life r.log = some (.bound driver)

def Rest (r : Record δ) : Prop :=
  match r.state with
  | .unbound | .deferred => r.Free ∧ r.claims = 0
  | .bound => (∃ driver, r.BoundTo driver) ∧ r.claims = 0
  | .dead => r.driver = none ∧ life r.log = some .dead ∧ r.claims = 1
  | .probing | .removing => False

end Record

def Knows (r : Record δ) : Place δ → Prop
  | .idle | .removeLoad => True
  | .removeExchange previous => previous ≠ .dead ∧ previous ≠ .probing
  | .bindExchange previous => previous.Waits
  | .bindStore _ | .evaluate _ | .bindNext _ | .bindDeferred =>
    r.state = .probing ∧ r.Free ∧ r.claims = 0
  | .probe driver _ => r.state = .probing ∧ r.driver = some driver ∧
      life r.log = some (.probing driver) ∧ r.claims = 0
  | .probeFailed _ _ => r.state = .probing ∧ life r.log = some .free ∧ r.claims = 0
  | .bindBound driver => r.state = .probing ∧ r.BoundTo driver ∧ r.claims = 0
  | .unbindDriver false => r.state = .bound ∧ (∃ driver, r.BoundTo driver) ∧ r.claims = 0
  | .removeStore | .unbindDriver true =>
    r.state = .removing ∧ (r.Free ∨ ∃ driver, r.BoundTo driver) ∧ r.claims = 1
  | .unbindState byRemove driver =>
    r.state = (if byRemove then .removing else .bound) ∧ r.BoundTo driver ∧
      r.claims = byRemove.toNat
  | .unbindExchange byRemove driver =>
    byRemove = false ∧ r.state = .bound ∧ r.BoundTo driver ∧ r.claims = 0
  | .unbindStore byRemove driver =>
    byRemove = false ∧ r.state = .removing ∧ r.BoundTo driver ∧ r.claims = 0
  | .unbindPin byRemove driver wasBound => wasBound = !byRemove ∧
      r.state = .removing ∧ r.BoundTo driver ∧ r.claims = byRemove.toNat
  | .calling byRemove driver wasBound => wasBound = !byRemove ∧
      r.state = .removing ∧ life r.log = some (.removing driver) ∧ r.claims = byRemove.toNat
  | .unbindClear byRemove wasBound => wasBound = !byRemove ∧
      r.state = .removing ∧ life r.log = some .free ∧ r.claims = byRemove.toNat
  | .unbindRestore byRemove => byRemove = false ∧ r.state = .removing ∧ r.Free ∧ r.claims = 0
  | .removeDead => r.state = .removing ∧ r.Free ∧ r.claims = 1

structure Inv (owner : Option ι) (s : State δ ι) : Prop where
  sole : Sole owner Place.Owns s.party
  apart : ∀ t u, (s.party t).Leaving → (s.party u).Leaving → t = u
  knows : ∀ t, Knows s.device (s.party t)
  rest : owner = none → s.device.Rest

theorem inv_new : Inv none (.new : State δ ι) where
  sole t := by simp [State.new, Place.Owns]
  apart t u ht _ := ht.elim
  knows t := trivial
  rest _ := ⟨⟨rfl, rfl⟩, rfl⟩

theorem Knows.of_not_owns {r r' : Record δ} {place : Place δ} (h : Knows r place)
    (ho : ¬ place.Owns) (hb : r.state ≠ .bound ∨ ¬ place.Leaving) : Knows r' place := by
  cases place with
  | idle | removeLoad => trivial
  | bindExchange | removeExchange => exact h
  | unbindDriver byRemove | unbindState byRemove =>
    cases byRemove with
    | false => exact (hb.elim (· h.1) (· trivial)).elim
    | true => exact absurd trivial ho
  | unbindExchange => exact (hb.elim (· h.2.1) (· trivial)).elim
  | _ => exact absurd trivial ho

theorem Knows.owned {r : Record δ} {place : Place δ} (h : Knows r place) (ho : place.Owns) :
    r.state = .probing ∨ r.state = .removing ∧ place.Leaving := by
  cases place with
  | bindStore | evaluate | bindNext | bindDeferred | probe | probeFailed | bindBound =>
    exact .inl h.1
  | removeStore | removeDead => exact .inr ⟨h.1, trivial⟩
  | unbindDriver byRemove | unbindState byRemove =>
    cases byRemove with
    | false => exact ho.elim
    | true => exact .inr ⟨h.1, trivial⟩
  | unbindStore | unbindPin | calling | unbindClear | unbindRestore => exact .inr ⟨h.2.1, trivial⟩
  | idle | bindExchange | unbindExchange | removeLoad | removeExchange => exact ho.elim

variable {owner : Option ι} {s : State δ ι} {t : ι}

theorem Inv.no_owner (h : Inv owner s) (hp : s.device.state ≠ .probing)
    (hr : s.device.state ≠ .removing) : owner = none := by
  cases howner : owner with
  | none => rfl
  | some u =>
    have hu := (h.sole u).mp howner
    exact ((h.knows u).owned hu).elim (absurd · hp) (fun hl => absurd hl.1 hr)

theorem Inv.not_removing (h : Inv owner s) (hl : (s.party t).Leaving) (ho : ¬ (s.party t).Owns) :
    s.device.state ≠ .removing := by
  intro hs
  cases howner : owner with
  | none =>
    have hrest := h.rest howner
    rw [Record.Rest, hs] at hrest
    exact hrest
  | some u =>
    have hu := (h.sole u).mp howner
    obtain hp | ⟨-, hul⟩ := (h.knows u).owned hu
    · rw [hs] at hp
      cases hp
    · exact ho (h.apart u t hul hl ▸ hu)

end Inv

variable {δ ι : Type} [DecidableEq δ] [DecidableEq ι] {owner : Option ι} {s s' : State δ ι} {t : ι}
  {place : Place δ} {r : Record δ}

omit [DecidableEq δ] in
theorem apart_goto (h : ∀ t u, (s.party t).Leaving → (s.party u).Leaving → t = u)
    (hl : place.Leaving → (s.party t).Leaving ∨ ∀ u, ¬ (s.party u).Leaving) (u v : ι)
    (hu : (update s.party t place u).Leaving)
    (hv : (update s.party t place v).Leaving) : u = v := by
  obtain ⟨rfl, hu'⟩ | ⟨-, hu'⟩ := update_cases Place.Leaving hu <;>
    obtain ⟨rfl, hv'⟩ | ⟨-, hv'⟩ := update_cases Place.Leaving hv
  · rfl
  · exact (hl hu').elim (fun ht => h _ _ ht hv') (fun hn => absurd hv' (hn v))
  · exact (hl hv').elim (fun ht => h _ _ hu' ht) (fun hn => absurd hu' (hn u))
  · exact h u v hu' hv'

theorem knows_goto (hk : Knows r place) (h : ∀ u, u ≠ t → Knows r (s.party u)) (u : ι) :
    Knows r (update s.party t place u) := by
  obtain rfl | hu := eq_or_ne u t
  · exact update_mover _ hk
  · exact update_other _ hu (h u hu)

section
variable {place' : Place δ}

theorem Inv.works (h : Inv owner s) (hat : s.party t = place) (ht : place.Owns) (hp : place'.Owns)
    (hl : place'.Leaving → place.Leaving) (hk : Knows s.device place → Knows r place') :
    ∃ owner', Inv owner' ({ s with device := r }.goto t place') := by
  subst hat
  refine ⟨owner, h.sole.stay (iff_of_true ht hp), apart_goto h.apart fun hpl => .inl (hl hpl), ?_, ?_⟩
  · refine knows_goto (hk (h.knows t)) fun u hu => (h.knows u).of_not_owns ?_ (.inl ?_)
    · exact fun ho => hu (h.sole.unique ho ht)
    · obtain hs | ⟨hs, -⟩ := (h.knows t).owned ht <;> simp [hs]
  · intro hnone
    rw [(h.sole t).mpr ht] at hnone
    cases hnone

theorem Inv.gives (h : Inv owner s) (hat : s.party t = place) (ht : place.Owns)
    (hr : Knows s.device place → r.Rest) :
    ∃ owner', Inv owner' ({ s with device := r }.goto t .idle) := by
  subst hat
  refine ⟨none, h.sole.leave ht id, apart_goto h.apart fun hl => hl.elim, ?_, fun _ => hr (h.knows t)⟩
  refine knows_goto trivial fun u hu => (h.knows u).of_not_owns ?_ (.inl ?_)
  · exact fun ho => hu (h.sole.unique ho ht)
  · obtain hs | ⟨hs, -⟩ := (h.knows t).owned ht <;> simp [hs]

theorem Inv.takes (h : Inv none s) (hat : s.party t = place) (hp : place'.Owns)
    (hl : place'.Leaving → place.Leaving) (hb : s.device.state ≠ .bound ∨ place.Leaving)
    (hk : Knows r place') : ∃ owner', Inv owner' ({ s with device := r }.goto t place') := by
  subst hat
  refine ⟨some t, h.sole.enter hp, apart_goto h.apart fun hpl => .inl (hl hpl), ?_, nofun⟩
  refine knows_goto hk fun u hu => (h.knows u).of_not_owns ?_ ?_
  · exact fun ho => by cases (h.sole u).mpr ho
  · exact hb.imp_right fun htl hul => hu (h.apart u t hul htl)

theorem Inv.waits (h : Inv owner s) (hat : s.party t = place) (ht : ¬ place.Owns)
    (hp : ¬ place'.Owns) (hl : place'.Leaving → place.Leaving ∨ ∀ u, ¬ (s.party u).Leaving)
    (hk : Knows s.device place → Knows s.device place') : ∃ owner', Inv owner' (s.goto t place') := by
  subst hat
  exact ⟨owner, h.sole.stay (iff_of_false ht hp), apart_goto h.apart hl,
    knows_goto (hk (h.knows t)) fun u _ => h.knows u, h.rest⟩

end

theorem life_cons {log : List (Event δ)} {l l' : Life δ} {event : Event δ} (h : life log = some l)
    (hn : l.next event = some l') : life (event :: log) = some l' := by
  rw [life, h]
  exact hn

theorem Inv.binding (h : Inv owner s) (hb : (s.party t).Binding) (hstep : Step t s s') :
    ∃ owner', Inv owner' s' := by
  cases hstep with
  | bindStore ht => exact h.works ht trivial trivial id fun hk => ⟨rfl, hk.2⟩
  | evaluate driver rest ht => exact h.works ht trivial trivial id id
  | @noCandidates previous ht =>
    refine h.gives ht trivial fun hk => ?_
    by_cases hprev : previous = .deferred
    · rw [if_pos hprev]
      exact hk.2
    · rw [if_neg hprev]
      exact hk.2
  | @bindFails driver rest wait ht => cases wait <;> exact h.works ht trivial trivial id id
  | probe ht =>
    exact h.works ht trivial trivial id fun hk => ⟨hk.1, rfl, life_cons hk.2.1.2 rfl, hk.2.2⟩
  | probeOk ht =>
    exact h.works ht trivial trivial id fun hk =>
      ⟨hk.1, ⟨hk.2.1, life_cons hk.2.2.1 (by simp [Life.next])⟩, hk.2.2.2⟩
  | probeFails wait ht =>
    exact h.works ht trivial trivial id fun hk =>
      ⟨hk.1, life_cons hk.2.2.1 (by simp [Life.next]), hk.2.2.2⟩
  | @probeClear wait rest ht =>
    cases wait <;> exact h.works ht trivial trivial id fun hk => ⟨hk.1, ⟨rfl, hk.2.1⟩, hk.2.2⟩
  | bindBound ht => exact h.gives ht trivial fun hk => ⟨⟨_, hk.2.1⟩, hk.2.2⟩
  | bindDeferred ht | bindNone ht => exact h.gives ht trivial fun hk => hk.2
  | _ => simp_all [Place.Binding]

theorem Inv.unbinding (h : Inv owner s) (hstep : Step t s s') (hok : Permitted t s s')
    (hu : (s.party t).Unbinding) : ∃ owner', Inv owner' s' := by
  have hk := h.knows t
  cases hstep with
  | @unbindNone byRemove ht hd =>
    rw [ht] at hk
    cases byRemove with
    | false =>
      obtain ⟨-, ⟨driver, hdriver, -⟩, -⟩ := hk
      rw [hd] at hdriver
      cases hdriver
    | true =>
      refine h.works ht trivial trivial id fun hk => ?_
      obtain hfree | ⟨driver, hdriver, -⟩ := hk.2.1
      · exact ⟨hk.1, hfree, hk.2.2⟩
      · rw [hd] at hdriver
        cases hdriver
  | @unbindDriver byRemove driver ht hd =>
    rw [ht] at hk
    have hsame : ∀ {other}, s.device.BoundTo other → s.device.BoundTo driver := by
      intro other hother
      cases hd.symm.trans hother.1
      exact hother
    cases byRemove with
    | false =>
      obtain ⟨hstate, ⟨other, hother⟩, hclaims⟩ := hk
      exact h.waits ht id id .inl fun _ => ⟨hstate, hsame hother, hclaims⟩
    | true =>
      obtain ⟨hstate, ⟨hfree, -⟩ | ⟨other, hother⟩, hclaims⟩ := hk
      · rw [hd] at hfree
        cases hfree
      · exact h.works ht trivial trivial id fun _ => ⟨hstate, hsame hother, hclaims⟩
  | @unbindSkips byRemove driver ht hb hr =>
    rw [ht] at hk
    cases byRemove with
    | false => exact absurd hk.1 hb
    | true => exact absurd hk.1 hr
  | @unbindBound byRemove driver ht hb =>
    rw [ht] at hk
    cases byRemove with
    | false => exact h.waits ht id id .inl fun hk => ⟨rfl, hb, hk.2.1, hk.2.2⟩
    | true => cases hb.symm.trans hk.1
  | @unbindRemoving byRemove driver ht hr =>
    rw [ht] at hk
    cases byRemove with
    | false => cases hr.symm.trans hk.1
    | true => exact h.works ht trivial trivial id fun hk => ⟨rfl, hr, hk.2.1, hk.2.2⟩
  | unbindExchange ht hb =>
    rw [ht] at hk
    obtain ⟨rfl, -, hbound, hclaims⟩ := hk
    have hnone := h.no_owner (by simp [hb]) (by simp [hb])
    subst hnone
    exact h.takes ht trivial id (.inr trivial) ⟨rfl, rfl, hbound, hclaims⟩
  | unbindLost ht hb =>
    rw [ht] at hk
    exact absurd hk.2.1 hb
  | unbindStore ht =>
    rw [ht] at hk
    obtain ⟨rfl, -, hbound, hclaims⟩ := hk
    exact h.works ht trivial trivial id fun _ => ⟨rfl, rfl, hbound, hclaims⟩
  | call ht hp =>
    refine h.works ht trivial trivial id ?_
    rintro ⟨hwas, hstate, hbound, hclaims⟩
    exact ⟨hwas, hstate, life_cons hbound.2 (by simp [Life.next]), hclaims⟩
  | pinFails ht hp =>
    rw [hok.pinned _ _ _ ht] at hp
    cases hp
  | returned ht =>
    refine h.works ht trivial trivial id ?_
    rintro ⟨hwas, hstate, hlife, hclaims⟩
    exact ⟨hwas, hstate, life_cons hlife (by simp [Life.next]), hclaims⟩
  | @unbindClear byRemove wasBound ht =>
    rw [ht] at hk
    obtain ⟨rfl, hstate, hlife, hclaims⟩ := hk
    cases byRemove with
    | false => exact h.works ht trivial trivial id fun _ => ⟨rfl, hstate, ⟨rfl, hlife⟩, hclaims⟩
    | true => exact h.works ht trivial trivial id fun _ => ⟨hstate, ⟨rfl, hlife⟩, hclaims⟩
  | unbindRestore ht =>
    rw [ht] at hk
    obtain ⟨rfl, -, hfree, hclaims⟩ := hk
    exact h.gives ht trivial fun _ => ⟨hfree, hclaims⟩
  | _ => simp_all [Place.Unbinding]

section
omit [DecidableEq ι]

theorem Inv.waiting (h : Inv owner s) (hw : s.device.state.Waits) :
    owner = none ∧ s.device.state ≠ .bound ∧ s.device.Free ∧ s.device.claims = 0 := by
  cases hs : s.device.state with
  | unbound | deferred =>
    have hnone := h.no_owner (by simp [hs]) (by simp [hs])
    have hrest := h.rest hnone
    rw [Record.Rest, hs] at hrest
    exact ⟨hnone, by simp, hrest⟩
  | probing | bound | removing | dead =>
    rw [hs] at hw
    exact hw.elim

theorem Inv.detached {driver : δ} (h : Inv owner s) (hd : s.device.driver = some driver)
    (hp : s.device.state ≠ .probing) (hnone : ∀ u, ¬ (s.party u).Leaving) :
    s.device.state = .bound ∧ (∃ driver, s.device.BoundTo driver) ∧ s.device.claims = 0 := by
  have howner : owner = none := by
    cases howner : owner with
    | none => rfl
    | some u =>
      obtain hs | ⟨-, hl⟩ := (h.knows u).owned ((h.sole u).mp howner)
      · exact absurd hs hp
      · exact absurd hl (hnone u)
  have hrest := h.rest howner
  cases hs : s.device.state with
  | bound =>
    rw [Record.Rest, hs] at hrest
    exact ⟨rfl, hrest⟩
  | probing => exact absurd hs hp
  | unbound | deferred =>
    rw [Record.Rest, hs] at hrest
    cases hd.symm.trans hrest.1.1
  | dead =>
    rw [Record.Rest, hs] at hrest
    cases hd.symm.trans hrest.1
  | removing =>
    rw [Record.Rest, hs] at hrest
    exact hrest.elim

theorem Inv.claimed (h : Inv owner s) (hd : s.device.state ≠ .dead) (hp : s.device.state ≠ .probing)
    (hr : s.device.state ≠ .removing) :
    owner = none ∧ (s.device.Free ∨ ∃ driver, s.device.BoundTo driver) ∧ s.device.claims = 0 := by
  have hnone := h.no_owner hp hr
  have hrest := h.rest hnone
  cases hs : s.device.state with
  | unbound | deferred =>
    rw [Record.Rest, hs] at hrest
    exact ⟨hnone, .inl hrest.1, hrest.2⟩
  | bound =>
    rw [Record.Rest, hs] at hrest
    exact ⟨hnone, .inr hrest.1, hrest.2⟩
  | dead => exact absurd hs hd
  | probing => exact absurd hs hp
  | removing => exact absurd hs hr

end

theorem Inv.step (h : Inv owner s) (hstep : Step t s s') (hok : Permitted t s s') :
    ∃ owner', Inv owner' s' := by
  by_cases hb : (s.party t).Binding
  · exact h.binding hb hstep
  by_cases hu : (s.party t).Unbinding
  · exact h.unbinding hstep hok hu
  have hk := h.knows t
  cases hstep with
  | bind ht hw => exact h.waits ht id id .inl fun _ => hw
  | bindExchange ht hs =>
    rw [ht, ← hs] at hk
    obtain ⟨rfl, hbound, hfree⟩ := h.waiting hk
    exact h.takes ht trivial id (.inl hbound) ⟨rfl, hfree⟩
  | bindLost ht hs | removeRefused ht hs => exact h.waits ht id id nofun fun _ => trivial
  | detach driver ht hd =>
    have hnone : ∀ u, ¬ (s.party u).Leaving :=
      hok.apart (by rw [ht]; exact id) (update_mover Place.Leaving trivial)
    exact h.waits ht id id (fun _ => .inr hnone) fun _ =>
      h.detached hd (hok.settled (update_self t _ _)) hnone
  | remove ht =>
    have hnone : ∀ u, ¬ (s.party u).Leaving :=
      hok.apart (by rw [ht]; exact id) (update_mover Place.Leaving trivial)
    exact h.waits ht id id (fun _ => .inr hnone) fun _ => trivial
  | removeLoad ht hd hp => exact h.waits ht id id .inl fun _ => ⟨hd, hp⟩
  | removeExchange ht hs =>
    rw [ht, ← hs] at hk
    obtain ⟨rfl, hheld, hclaims⟩ := h.claimed hk.1 hk.2
      (h.not_removing (by rw [ht]; trivial) (by rw [ht]; exact id))
    exact h.takes ht trivial id (.inr trivial) ⟨rfl, hheld, congrArg (· + 1) hclaims⟩
  | removeLost ht hs => exact h.waits ht id id .inl fun _ => trivial
  | removeStore ht => exact h.works ht trivial trivial id fun hk => ⟨rfl, hk.2⟩
  | removeDead ht =>
    exact h.gives ht trivial fun hk => ⟨hk.2.1.1, life_cons hk.2.1.2 rfl, hk.2.2⟩
  | _ => simp_all [Place.Unbinding, Place.Binding]

end Roanix.Driver.Device
