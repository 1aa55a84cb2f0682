import Roanix.Lib.Machine

/-! One published interface (`iface.rs`), one atomic operation a step. A party is one call of
`bind_*` with the reference it gives, or one call of `withdraw`. -/
namespace Roanix.Driver.Interface
open Lib Function

/-- Where a call is; most places are named for what it does next. -/
inductive Place where
  | idle
  /-- `attach_ref`: raise `binds`. -/
  | attach
  | check
  | undo
  | held
  | revoke
  | recheck
  | restore
  | detach
  | withdrawn
  | busy
  | notFound
deriving DecidableEq

structure State (ι : Type) where
  binds : ℕ
  revoked : Bool
  listed : Bool
  place : ι → Place

/-- `fetch_add` was run, `fetch_sub` not yet. -/
@[simp] def Place.IsCounted (p : Place) : Prop := p = .check ∨ p = .undo ∨ p = .held

/-- A `withdraw` that has found `binds` to be 0 again. -/
@[simp] def Place.IsClosing (p : Place) : Prop := p = .detach ∨ p = .withdrawn

/-- A `withdraw` that has set `revoked`. -/
@[simp] def Place.IsRevoker (p : Place) : Prop := p = .recheck ∨ p = .restore ∨ p.IsClosing

instance : DecidablePred Place.IsCounted := fun _ => inferInstanceAs (Decidable (_ ∨ _ ∨ _))

variable {ι : Type} [DecidableEq ι]

def State.goto (s : State ι) (t : ι) (place : Place) : State ι :=
  { s with place := update s.place t place }

inductive Step (t : ι) (s : State ι) : State ι → Prop
  | find (h : s.place t = .idle) (hl : s.listed = true) (hr : s.revoked = false) :
      Step t s (s.goto t .attach)
  | attach (h : s.place t = .attach) : Step t s ({ s with binds := s.binds + 1 }.goto t .check)
  | bound (h : s.place t = .check) (hr : s.revoked = false) : Step t s (s.goto t .held)
  | late (h : s.place t = .check) (hr : s.revoked = true) : Step t s (s.goto t .undo)
  | drop (h : s.place t = .undo ∨ s.place t = .held) :
      Step t s ({ s with binds := s.binds - 1 }.goto t .idle)
  | withdraw (h : s.place t = .idle) (hb : s.binds = 0) : Step t s (s.goto t .revoke)
  | refuse (h : s.place t = .idle) (hb : s.binds ≠ 0) : Step t s (s.goto t .busy)
  | revoke (h : s.place t = .revoke) (hr : s.revoked = false) :
      Step t s ({ s with revoked := true }.goto t .recheck)
  | revokeFails (h : s.place t = .revoke) (hr : s.revoked = true) : Step t s (s.goto t .notFound)
  | unused (h : s.place t = .recheck) (hb : s.binds = 0) : Step t s (s.goto t .detach)
  | used (h : s.place t = .recheck) (hb : s.binds ≠ 0) : Step t s (s.goto t .restore)
  | restore (h : s.place t = .restore) : Step t s ({ s with revoked := false }.goto t .busy)
  | detach (h : s.place t = .detach) : Step t s ({ s with listed := false }.goto t .withdrawn)

def machine (ι : Type) [DecidableEq ι] : Machine (State ι) where
  init s := s = ⟨0, false, true, fun _ => .idle⟩
  step s s' := ∃ t, Step t s s'

variable [Fintype ι] {s s' : State ι} {t u : ι} {b : Place}

structure Inv (s : State ι) : Prop where
  binds : s.binds = count Place.IsCounted s.place
  revoked : ∃ h, Sole h Place.IsRevoker s.place ∧ s.revoked = h.isSome
  listed : s.listed = false → ∃ t, s.place t = .withdrawn
  unused : ∀ t, (s.place t).IsClosing → ∀ u, s.place u ≠ .held

theorem Inv.move (h : Inv s) {binds : ℕ} {revoked listed : Bool} (hp : s.place t ≠ .withdrawn)
    (hbinds : binds + (if (s.place t).IsCounted then 1 else 0) =
      s.binds + if b.IsCounted then 1 else 0)
    (hrevoked : ∃ o, Sole o Place.IsRevoker (update s.place t b) ∧ revoked = o.isSome)
    (hlisted : listed = false → s.listed = false ∨ b = .withdrawn)
    (hheld : b = .held → s.revoked = false)
    (hclosed : b.IsClosing → ∀ u, s.place u ≠ .held) :
    Inv ⟨binds, revoked, listed, update s.place t b⟩ where
  binds := by
    have := count_update (p := Place.IsCounted) s.place t b
    have := h.binds
    change binds = count Place.IsCounted (update s.place t b)
    omega
  revoked := hrevoked
  listed hl := by
    obtain hl | rfl := hlisted hl
    · obtain ⟨u, hu⟩ := h.listed hl
      exact ⟨u, update_keep (· = Place.withdrawn) hu fun ht => absurd ht hp⟩
    · exact ⟨t, update_self ..⟩
  unused v hv u hu := by
    obtain ⟨rfl, hv'⟩ | ⟨-, hv'⟩ := update_cases Place.IsClosing hv <;>
      obtain ⟨-, hu'⟩ | ⟨-, hu'⟩ := update_cases (· = Place.held) hu
    · simp [hu'] at hv'
    · exact hclosed hv' u hu'
    · obtain ⟨o, ho, heq⟩ := h.revoked
      rw [hheld hu', (ho v).mpr (.inr (.inr hv'))] at heq
      cases heq
    · exact h.unused v hv' u hu'

theorem Inv.stay (h : Inv s) (hb : (s.place t).IsRevoker ↔ b.IsRevoker) :
    ∃ o, Sole o Place.IsRevoker (update s.place t b) ∧ s.revoked = o.isSome := by
  obtain ⟨o, ho, heq⟩ := h.revoked
  exact ⟨o, ho.stay hb, heq⟩

theorem Inv.step (h : Inv s) (hstep : Step t s s') : Inv s' := by
  cases hstep with
  | find hp | attach hp | late hp | withdraw hp | refuse hp | revokeFails hp | used hp =>
    exact h.move (by simp [hp]) (by simp [hp]) (h.stay (by simp [hp])) .inl (by simp) (by simp)
  | bound hp hr =>
    exact h.move (by simp [hp]) (by simp [hp]) (h.stay (by simp [hp])) .inl (fun _ => hr) (by simp)
  | drop hp =>
    have hpos : 0 < s.binds := h.binds ▸ count_pos_of (.inr hp)
    obtain hp | hp := hp <;>
      exact h.move (by simp [hp]) (by simp [hp]; omega) (h.stay (by simp [hp])) .inl (by simp)
        (by simp)
  | revoke hp hr =>
    refine h.move (by simp [hp]) (by simp [hp]) ⟨some t, ?_, rfl⟩ .inl (by simp) (by simp)
    obtain ⟨o, ho, heq⟩ := h.revoked
    obtain rfl : o = none := by simpa using heq.symm.trans hr
    exact ho.enter (.inl rfl)
  | unused hp hb =>
    have hnone := count_eq_zero.mp (h.binds.symm.trans hb)
    exact h.move (by simp [hp]) (by simp [hp]) (h.stay (by simp [hp])) .inl (by simp)
      fun _ u hu => hnone u (.inr (.inr hu))
  | restore hp =>
    obtain ⟨o, ho, -⟩ := h.revoked
    have hsole := ho.leave (a := .busy) (.inr (.inl hp)) (by simp)
    exact h.move (by simp [hp]) (by simp [hp]) ⟨none, hsole, rfl⟩ .inl (by simp) (by simp)
  | detach hp =>
    exact h.move (by simp [hp]) (by simp [hp]) (h.stay (by simp [hp])) (fun _ => .inr rfl) (by simp)
      fun _ => h.unused t (.inl hp)

theorem inv_of_reachable (h : (machine ι).Reachable s) : Inv s := by
  refine h.invariant ?_ fun s s' hs hstep => ?_
  · rintro s rfl
    exact ⟨(count_eq_zero.mpr (by simp)).symm, ⟨none, by simp [Sole], rfl⟩, by simp, by simp⟩
  · obtain ⟨t, hstep⟩ := hstep
    exact hs.step hstep

/-- The counter is the number of the references and of the binds in progress; one withdraw at most
succeeds, for good, and there is no reference then. One that is refused leaves the interface to be
found, unless another one has revoked it. -/
theorem withdrawn_is_unused (hs : (machine ι).Reachable s) :
    s.binds = count Place.IsCounted s.place ∧
    (∀ t u, s.place t = .withdrawn → s.place u = .withdrawn → t = u) ∧
    (∀ t, s.place t = .withdrawn → (∀ u, s.place u ≠ .held) ∧
      ∀ u s', Step u s s' → s'.place t = .withdrawn) ∧
    ∀ t, s.place t = .busy →
      s.listed = true ∧ s.revoked = false ∨ ∃ u, u ≠ t ∧ (s.place u).IsRevoker := by
  have h := inv_of_reachable hs
  obtain ⟨o, ho, hrevoked⟩ := h.revoked
  refine ⟨h.binds, fun t u ht hu => ?_, fun t ht => ⟨h.unused t (.inr ht), fun u s' hstep => ?_⟩,
    fun t ht => ?_⟩
  · exact ho.unique (by simp [ht]) (by simp [hu])
  · cases hstep <;> exact update_keep (· = Place.withdrawn) ht (by aesop)
  · cases o with
    | some u =>
      have hu := (ho u).mp rfl
      refine .inr ⟨u, ?_, hu⟩
      rintro rfl
      simp [ht] at hu
    | none =>
      refine .inl ⟨Bool.eq_true_of_not_eq_false fun hl => ?_, hrevoked⟩
      obtain ⟨u, hu⟩ := h.listed hl
      cases (ho u).mpr (by simp [hu])

theorem withdrawn_is_unused_example : ∃ s : State Bool, (machine Bool).Reachable s ∧
    s.place true = .withdrawn ∧ ∀ u, s.place u ≠ .held := by
  have hs : (machine Bool).Reachable _ :=
    .step (.step (.step (.step (.init rfl) ⟨true, .withdraw rfl rfl⟩) ⟨true, .revoke rfl rfl⟩)
      ⟨true, .unused rfl rfl⟩) ⟨true, .detach rfl⟩
  exact ⟨_, hs, rfl, ((withdrawn_is_unused hs).2.2.1 true rfl).1⟩

/-- A bind raises the counter between the two loads of a withdraw; a second withdraw is refused, and
leaves the interface revoked. -/
theorem refused_while_revoked : ∃ s s' : State (Option Bool), (machine _).Reachable s ∧
    Step (some false) s s' ∧ s'.place (some false) = .busy ∧ s'.revoked = true := by
  refine ⟨_, _, .step (.step (.step (.step (.init rfl) ⟨none, .find rfl rfl rfl⟩)
    ⟨some true, .withdraw rfl rfl⟩) ⟨some true, .revoke rfl rfl⟩) ⟨none, .attach rfl⟩,
    .refuse rfl (by decide), rfl, rfl⟩

end Roanix.Driver.Interface
