import Roanix.Driver.Device.Invariant

/-! The life of a device over every interleaving whose removals and detaches do not overlap, and what
two overlapping removals do to it. -/
namespace Roanix.Driver.Device
open Lib

variable {δ ι : Type} [DecidableEq ι]

def permitted (δ ι : Type) [DecidableEq ι] : Machine (State δ ι) where
  init s := s = .new
  step s s' := (∃ t, Step t s s' ∧ Permitted t s s') ∨
    ∃ ownerDead, s' = { s with ownerDead := ownerDead }

def Place.Calling : Place δ → Prop
  | calling _ _ _ => True
  | _ => False

structure Correct [DecidableEq δ] (s : State δ ι) : Prop where
  claimed : 0 < s.device.claims → s.device.state = .removing ∨ s.device.state = .dead
  /-- The teardown that follows a claim runs at most once. -/
  once : s.device.claims ≤ 1
  ordered : ∃ l, life s.device.log = some l
  dead : s.device.state = .dead → life s.device.log = some .dead
  alone : ∀ t u, (s.party t).Calling → (s.party u).Calling → t = u

structure StepCorrect (s s' : State δ ι) : Prop where
  claims : s.device.claims ≤ s'.device.claims
  final : s.device.state = .dead → s'.device.state = .dead

variable {s s' : State δ ι} {t : ι}

theorem Step.claims (hstep : Step t s s') : s.device.claims ≤ s'.device.claims := by
  cases hstep with
  | removeExchange => exact Nat.le_succ _
  | _ => exact le_rfl

variable [DecidableEq δ] {owner : Option ι}

section
omit [DecidableEq ι]

theorem Knows.claims {r : Record δ} {place : Place δ} (h : Knows r place) (ho : place.Owns) :
    (r.claims = 0 ∨ r.state = .removing ∧ r.claims = 1) ∧ ∃ l, life r.log = some l := by
  have hby {byRemove : Bool} (hs : r.state = .removing) (hc : r.claims = byRemove.toNat) :
      r.claims = 0 ∨ r.state = .removing ∧ r.claims = 1 := by
    cases byRemove with
    | false => exact .inl hc
    | true => exact .inr ⟨hs, hc⟩
  cases place with
  | bindStore | evaluate | bindNext | bindDeferred | bindBound => exact ⟨.inl h.2.2, _, h.2.1.2⟩
  | probe => exact ⟨.inl h.2.2.2, _, h.2.2.1⟩
  | probeFailed => exact ⟨.inl h.2.2, _, h.2.1⟩
  | removeStore =>
    obtain ⟨hs, hfree | ⟨driver, hbound⟩, hc⟩ := h
    · exact ⟨.inr ⟨hs, hc⟩, _, hfree.2⟩
    · exact ⟨.inr ⟨hs, hc⟩, _, hbound.2⟩
  | unbindDriver byRemove =>
    cases byRemove with
    | false => exact ho.elim
    | true =>
      obtain ⟨hs, hfree | ⟨driver, hbound⟩, hc⟩ := h
      · exact ⟨.inr ⟨hs, hc⟩, _, hfree.2⟩
      · exact ⟨.inr ⟨hs, hc⟩, _, hbound.2⟩
  | unbindState byRemove =>
    cases byRemove with
    | false => exact ho.elim
    | true => exact ⟨.inr ⟨h.1, h.2.2⟩, _, h.2.1.2⟩
  | unbindStore | unbindRestore => exact ⟨.inl h.2.2.2, _, h.2.2.1.2⟩
  | unbindPin => exact ⟨hby h.2.1 h.2.2.2, _, h.2.2.1.2⟩
  | calling | unbindClear => exact ⟨hby h.2.1 h.2.2.2, _, h.2.2.1⟩
  | removeDead => exact ⟨.inr ⟨h.1, h.2.2⟩, _, h.2.1.2⟩
  | idle | bindExchange | unbindExchange | removeLoad | removeExchange => exact ho.elim

theorem Record.Rest.claims {r : Record δ} (h : r.Rest) :
    (r.claims = 0 ∨ r.state = .dead ∧ r.claims = 1) ∧ ∃ l, life r.log = some l := by
  cases hs : r.state with
  | unbound | deferred =>
    rw [Record.Rest, hs] at h
    exact ⟨.inl h.2, _, h.1.2⟩
  | bound =>
    rw [Record.Rest, hs] at h
    obtain ⟨⟨driver, hbound⟩, hc⟩ := h
    exact ⟨.inl hc, _, hbound.2⟩
  | dead =>
    rw [Record.Rest, hs] at h
    exact ⟨.inr ⟨rfl, h.2.2⟩, _, h.2.1⟩
  | probing | removing =>
    rw [Record.Rest, hs] at h
    exact h.elim

theorem Inv.claims (h : Inv owner s) :
    (s.device.claims = 0 ∨ (s.device.state = .removing ∨ s.device.state = .dead) ∧
      s.device.claims = 1) ∧ ∃ l, life s.device.log = some l := by
  cases howner : owner with
  | none => exact (h.rest howner).claims.imp_left (·.imp_right (·.imp_left .inr))
  | some u =>
    have hu := (h.sole u).mp howner
    exact ((h.knows u).claims hu).imp_left (·.imp_right (·.imp_left .inl))

theorem correct_of_inv (h : Inv owner s) : Correct s where
  claimed hpos := by
    obtain hzero | ⟨hs, -⟩ := h.claims.1
    · omega
    · exact hs
  once := by
    obtain hzero | ⟨-, hone⟩ := h.claims.1 <;> omega
  ordered := h.claims.2
  dead hs := by
    have hrest := h.rest (h.no_owner (by simp [hs]) (by simp [hs]))
    rw [Record.Rest, hs] at hrest
    exact hrest.2.1
  alone t u ht hu := by
    have hown : ∀ {place : Place δ}, place.Calling → place.Owns := by
      intro place hp
      cases place with
      | calling => trivial
      | _ => exact hp.elim
    exact h.sole.unique (hown ht) (hown hu)

end

theorem Inv.final (h : Inv owner s) (hstep : Step t s s') (hs : s.device.state = .dead) :
    s'.device.state = .dead := by
  have hk := h.knows t
  have hno : ¬ (s.party t).Owns := by
    intro ho
    obtain hp | ⟨hr, -⟩ := hk.owned ho
    · cases hs.symm.trans hp
    · cases hs.symm.trans hr
  cases hstep with
  | bindExchange ht hprev =>
    rw [ht, ← hprev, hs] at hk
    exact hk.elim
  | unbindExchange ht hb => cases hs.symm.trans hb
  | removeExchange ht hprev =>
    rw [ht, ← hprev] at hk
    exact absurd hs hk.1
  | bindStore ht | noCandidates ht | bindBound ht | bindDeferred ht | bindNone ht | unbindStore ht
  | unbindRestore ht | removeStore ht | removeDead ht =>
    rw [ht] at hno
    exact absurd trivial hno
  | _ => exact hs

theorem inv_of_reachable (h : (permitted δ ι).Reachable s) : ∃ owner, Inv owner s := by
  refine h.invariant (I := fun s => ∃ owner, Inv owner s) ?_ ?_
  · rintro _ rfl
    exact ⟨none, inv_new⟩
  · rintro s s' ⟨owner, hinv⟩ (⟨t, hstep, hok⟩ | ⟨ownerDead, rfl⟩)
    · exact hinv.step hstep hok
    · exact ⟨owner, hinv.sole, hinv.apart, hinv.knows, hinv.rest⟩

/-- In every permitted run a device that `remove` has claimed stays `REMOVING` until it is `DEAD`, is
torn down once and stays `DEAD`, and its callbacks come in order. -/
theorem device_correct (h : (permitted δ ι).Reachable s) :
    Correct s ∧ ∀ s', (permitted δ ι).step s s' → StepCorrect s s' := by
  obtain ⟨owner, hinv⟩ := inv_of_reachable h
  refine ⟨correct_of_inv hinv, ?_⟩
  rintro s' (⟨t, hstep, -⟩ | ⟨ownerDead, rfl⟩)
  · exact ⟨hstep.claims, hinv.final hstep⟩
  · exact ⟨le_rfl, id⟩

omit [DecidableEq δ] [DecidableEq ι] in
theorem Permitted.of_same (hp : ∀ driver, s.ownerDead driver = false)
    (hd : s'.party t ≠ .unbindDriver false)
    (hl : (s'.party t).Leaving → (s.party t).Leaving) : Permitted t s s' :=
  ⟨fun hn hl' => absurd (hl hl') hn, fun h => absurd h hd, fun _ driver _ _ => hp driver⟩

theorem device_correct_example :
    ∃ s : State Unit (Fin 2), (permitted Unit (Fin 2)).Reachable s ∧ s.device.claims = 1 ∧
      s.party 0 = .calling true () false ∧ s.party 1 = .bindExchange .unbound ∧ Correct s := by
  have h : (permitted Unit (Fin 2)).Reachable .new := .init rfl
  have go {s s' : State Unit (Fin 2)} (h : (permitted Unit (Fin 2)).Reachable s) (t : Fin 2)
      (hs : Step t s s') (hp : ∀ driver, s.ownerDead driver = false)
      (hd : s'.party t ≠ .unbindDriver false) (hl : (s'.party t).Leaving → (s.party t).Leaving) :
      (permitted Unit (Fin 2)).Reachable s' :=
    h.step (.inl ⟨t, hs, .of_same hp hd hl⟩)
  have h := go h 1 (.bind rfl trivial) (fun _ => rfl) (by decide) id
  have h := go h 0 (.bind rfl trivial) (fun _ => rfl) (by decide) id
  have h := go h 0 (.bindExchange rfl rfl) (fun _ => rfl) (by decide) id
  have h := go h 0 (.bindStore rfl) (fun _ => rfl) (by decide) id
  have h := go h 0 (.evaluate () [] rfl) (fun _ => rfl) (by decide) id
  have h := go h 0 (.probe rfl) (fun _ => rfl) (by decide) id
  have h := go h 0 (.probeOk rfl) (fun _ => rfl) (by decide) id
  have h := go h 0 (.bindBound rfl) (fun _ => rfl) (by decide) id
  have h := h.step (.inl ⟨0, .remove rfl, ⟨fun _ _ u => match u with
    | 0 => id
    | 1 => id, fun h => (by cases h), fun _ _ _ _ => rfl⟩⟩)
  have h := go h 0 (.removeLoad rfl (by decide) (by decide)) (fun _ => rfl) (by decide) id
  have h := go h 0 (.removeExchange rfl rfl) (fun _ => rfl) (by decide) id
  have h := go h 0 (.removeStore rfl) (fun _ => rfl) (by decide) id
  have h := go h 0 (.unbindDriver rfl rfl) (fun _ => rfl) (by decide) id
  have h := go h 0 (.unbindRemoving rfl rfl) (fun _ => rfl) (by decide) id
  have h := go h 0 (.call rfl rfl) (fun _ => rfl) (by decide) id
  exact ⟨_, h, rfl, rfl, rfl, (device_correct h).1⟩

/-- Two removals of a bound device overlap: the second claims it although it is `REMOVING`, and both
threads are in the remove callback. -/
theorem removes_overlap :
    ∃ s : State Unit (Fin 2), (machine Unit (Fin 2)).Reachable s ∧ s.device.claims = 2 ∧
      s.party 0 = .calling true () false ∧ s.party 1 = .calling true () false ∧
      life s.device.log = none := by
  have h : (machine Unit (Fin 2)).Reachable .new := .init rfl
  have h := h.step (.inl ⟨0, .bind rfl trivial⟩)
  have h := h.step (.inl ⟨0, .bindExchange rfl rfl⟩)
  have h := h.step (.inl ⟨0, .bindStore rfl⟩)
  have h := h.step (.inl ⟨0, .evaluate () [] rfl⟩)
  have h := h.step (.inl ⟨0, .probe rfl⟩)
  have h := h.step (.inl ⟨0, .probeOk rfl⟩)
  have h := h.step (.inl ⟨0, .bindBound rfl⟩)
  have h := h.step (.inl ⟨0, .remove rfl⟩)
  have h := h.step (.inl ⟨0, .removeLoad rfl (by decide) (by decide)⟩)
  have h := h.step (.inl ⟨0, .removeExchange rfl rfl⟩)
  have h := h.step (.inl ⟨1, .remove rfl⟩)
  have h := h.step (.inl ⟨1, .removeLoad rfl (by decide) (by decide)⟩)
  have h := h.step (.inl ⟨1, .removeExchange rfl rfl⟩)
  have h := h.step (.inl ⟨0, .removeStore rfl⟩)
  have h := h.step (.inl ⟨1, .removeStore rfl⟩)
  have h := h.step (.inl ⟨0, .unbindDriver rfl rfl⟩)
  have h := h.step (.inl ⟨1, .unbindDriver rfl rfl⟩)
  have h := h.step (.inl ⟨0, .unbindRemoving rfl rfl⟩)
  have h := h.step (.inl ⟨1, .unbindRemoving rfl rfl⟩)
  have h := h.step (.inl ⟨0, .call rfl rfl⟩)
  have h := h.step (.inl ⟨1, .call rfl rfl⟩)
  exact ⟨_, h, rfl, rfl, rfl, rfl⟩

end Roanix.Driver.Device
