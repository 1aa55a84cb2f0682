import Mathlib.Order.WellFoundedSet
import Roanix.Driver.Graph.Steps
import Roanix.Lib.Chain

/-! The dependency graph over every interleaving of loads, unloads, links and unlinks. -/
namespace Roanix.Driver.Graph
open Lib Function

/-- In `add_dependency`, with nothing recorded yet. -/
def Place.Trying {μ : Type} : Place μ → Prop
  | check _ _ | search _ _ _ _ => True
  | _ => False

section Correct
variable {μ ι : Type}

/-- No thread is in `add_dependency` or `remove_dependency` and no module in `drop_edges`. -/
def State.AtRest (s : State μ ι) : Prop :=
  (∀ t, s.party t = .idle) ∧ ∀ m failed providers, s.phase m ≠ .dropping failed providers

def State.Edge (s : State μ ι) (consumer provider : μ) : Prop :=
  (s.phase consumer).Registered ∧ (s.phase provider).Registered ∧ provider ∈ s.dependsOn consumer

structure Correct [DecidableEq μ] (s : State μ ι) : Prop where
  acyclic : Acyclic s.Edge
  balanced : s.AtRest → ∀ a b, (s.phase a).Registered → (s.phase b).Registered →
    (s.dependsOn a).count b = (s.dependents b).count a
  alone : ∀ m, (s.phase m).Alone → s.dependents m = []

structure StepCorrect [DecidableEq μ] [DecidableEq ι] (s s' : State μ ι) : Prop where
  refused : ∀ t, Step t s s' →
    (s'.party t).Trying ∨ (s.party t).Trying ∧ s'.party t = .idle →
      s'.dependsOn = s.dependsOn ∧ s'.dependents = s.dependents
  unload : ∀ m, (s.phase m).state = some .live → (s'.phase m).state = some .unloading →
    s.dependents m = []
  towards : ∀ t consumer provider, Step t s s' → s.party t = .record consumer provider →
    s'.party t = .idle ∧ (s'.phase provider).IsRegistering

end Correct

variable {μ ι : Type} [Fintype ι] [DecidableEq μ] [DecidableEq ι] {s s' : State μ ι} {t : ι}

theorem inv_of_reachable (h : (machine μ ι).Reachable s) : Inv s := by
  refine h.invariant ?_ ?_
  · rintro _ rfl
    exact inv_new
  · rintro s s' hinv (⟨m, hm⟩ | ⟨t, hstep⟩)
    · exact hinv.moves hm
    · exact hinv.step hstep

omit [DecidableEq ι] in
theorem Inv.balanced (h : Inv s) (hrest : s.AtRest) {a b : μ} (hb : (s.phase b).Registered) :
    (s.dependsOn a).count b = (s.dependents b).count a := by
  have hnone : ∀ q, q ≠ .idle → count (· = q) s.party = 0 := by
    intro q hq
    refine count_eq_zero.mpr fun t ht => ?_
    exact hq (ht.symm.trans (hrest.1 t))
  have hforget := hnone (.forget a b) (by simp)
  have hrecord := hnone (.record a b) (by simp)
  by_cases hk : (s.phase a).Kept
  · rw [h.forward a b hk, h.backward a b hk, hforget, hrecord]
  · -- `drop_edges` is done with the module
    have hdone : (s.phase a).Cleared ∧ (s.phase a).Dropped b := by
      cases ha : s.phase a with
      | absent | loading | live | unloading => exact absurd (by rw [ha]; trivial) hk
      | dropping failed providers => exact absurd ha (hrest.2 a failed providers)
      | dropped | dead | gone => exact ⟨trivial, trivial⟩
    have hdropped := h.dropped a b hb hdone.2
    rw [h.cleared a hdone.1, List.count_nil]
    omega

omit [DecidableEq ι] in
theorem correct_of_inv (h : Inv s) : Correct s where
  acyclic := h.acyclic.mono fun _ _ he => he.2.2
  balanced hrest _ _ _ hb := h.balanced hrest hb
  alone := h.alone

omit [Fintype ι] in
theorem Step.refused (hstep : Step t s s')
    (h : (s'.party t).Trying ∨ (s.party t).Trying ∧ s'.party t = .idle) :
    s'.dependsOn = s.dependsOn ∧ s'.dependents = s.dependents := by
  cases hstep with
  | add | noDevice | search | deadlock | again | visit => exact ⟨rfl, rfl⟩
  | insert ht => simp [State.goto, Place.Trying] at h
  | record ht | remove _ _ _ ht | forget ht => simp [State.goto, ht, Place.Trying] at h

omit [Fintype ι] in
theorem Step.phase_eq (hstep : Step t s s') : s'.phase = s.phase := by
  cases hstep <;> rfl

omit [Fintype ι] [DecidableEq ι] in
theorem Moves.unload {m x : μ} (hm : Moves m s s') (hx : (s.phase x).state = some .live)
    (hx' : (s'.phase x).state = some .unloading) : s.dependents x = [] := by
  have hmoved : ∀ {phase}, ((s.turn m phase).phase x).state = some .unloading →
      x = m ∧ phase.state = some .unloading := by
    intro phase hphase
    obtain ⟨rfl, hnew⟩ | ⟨-, hold⟩ := update_cases
      (fun p : Phase μ => p.state = some .unloading) hphase
    · exact ⟨rfl, hnew⟩
    · rw [hx] at hold
      cases hold
  cases hm with
  | turn ht =>
    obtain ⟨rfl, hphase⟩ := hmoved hx'
    cases ht with
    | unload _ _ hd => exact hd
    | load | initOk | rollBack | dead | remove => cases hphase
    | initFails h | providers h =>
      rw [h] at hx
      cases hx
  | skipEdge h | dropEdge h | clear h =>
    obtain ⟨rfl, -⟩ := hmoved hx'
    rw [h] at hx
    cases hx

/-- In every reachable state the graph has no cycle, at rest its two directions agree, and no step
touches it for a refused link, takes down a module with a dependent, or links to one that is being
taken down. -/
theorem module_graph_correct (h : (machine μ ι).Reachable s) :
    Correct s ∧ ∀ s', (machine μ ι).step s s' → StepCorrect s s' := by
  have hinv := inv_of_reachable h
  refine ⟨correct_of_inv hinv, ?_⟩
  intro s' hstep
  refine ⟨fun t hs => hs.refused, ?_, ?_⟩
  · intro m hm hm'
    obtain ⟨x, hmoves⟩ | ⟨t, hs⟩ := hstep
    · exact hmoves.unload hm hm'
    · rw [hs.phase_eq, hm] at hm'
      cases hm'
  · intro t consumer provider hs ht
    have hok := hinv.place t
    rw [ht] at hok
    refine ⟨?_, by rw [hs.phase_eq]; exact hok.2⟩
    cases hs with
    | record => exact Function.update_self t _ _
    | add _ _ _ h | noDevice h | search h | deadlock h | again h | visit h | insert h
    | remove _ _ _ h | forget h =>
      rw [ht] at h
      cases h

theorem module_graph_correct_example :
    ∃ s : State (Fin 2) (Fin 1), (machine (Fin 2) (Fin 1)).Reachable s ∧ s.Edge 0 1 ∧
      s.party 0 = .search 1 0 [0] [1] ∧ Correct s := by
  have h : (machine (Fin 2) (Fin 1)).Reachable .new := .init rfl
  have h := h.step (.inl ⟨0, .turn (.load rfl)⟩)
  have h := h.step (.inl ⟨1, .turn (.load rfl)⟩)
  have h := h.step (.inr ⟨0, .add 0 1 (by decide) rfl rfl⟩)
  have h := h.step (.inr ⟨0, .search rfl (by decide)⟩)
  have h := h.step (.inr ⟨0, .visit rfl (by decide) (by decide)⟩)
  have h := h.step (.inr ⟨0, .insert rfl⟩)
  have h := h.step (.inr ⟨0, .record rfl⟩)
  have h := h.step (.inr ⟨0, .add 1 0 (by decide) rfl rfl⟩)
  have h := h.step (.inr ⟨0, .search rfl (by decide)⟩)
  have h := h.step (.inr ⟨0, .visit rfl (by decide) (by decide)⟩)
  exact ⟨_, h, ⟨trivial, trivial, by decide⟩, rfl, (module_graph_correct h).1⟩

omit [Fintype ι] in
theorem finite_of_reachable (h : (machine μ ι).Reachable s) : {m | s.phase m ≠ .absent}.Finite := by
  refine h.invariant (I := fun s => {m | s.phase m ≠ .absent}.Finite) ?_ ?_
  · rintro _ rfl
    simp [State.new]
  · rintro s s' hs (⟨m, hm⟩ | ⟨t, hstep⟩)
    · refine (hs.insert m).subset fun x hx => or_iff_not_imp_left.mpr fun hxm => ?_
      have hsame : s'.phase x = s.phase x := by cases hm <;> exact update_of_ne hxm ..
      exact fun h => hx (hsame.trans h)
    · rwa [hstep.phase_eq]

/-- At rest, with every registered module live, `unload_all` does not lack a candidate: a module that is
left, or one that depends on it directly or through others, can be unloaded. -/
theorem some_dependent_unloads (h : (machine μ ι).Reachable s) (hrest : s.AtRest)
    (hlive : ∀ m, (s.phase m).Registered → s.phase m = .live) {m : μ} (hm : s.phase m = .live) :
    ∃ a, Relation.ReflTransGen s.Edge a m ∧ Turns s a (.unloading false) := by
  have hinv := inv_of_reachable h
  have hgraph : s.graph = none := by
    refine Option.eq_none_iff_forall_ne_some.mpr fun t hg => ?_
    have ht := (hinv.lock t).mp hg
    rwa [hrest.1 t] at ht
  have : IsStrictOrder μ (Relation.TransGen fun a b => b ∈ s.dependsOn a) :=
    { irrefl := hinv.acyclic, trans := fun _ _ _ => Relation.TransGen.trans }
  have hwf := (finite_of_reachable h).wellFoundedOn (r := Relation.TransGen fun a b => b ∈ s.dependsOn a)
  have hpresent {a : μ} (ha : s.phase a = .live) : a ∈ {m | s.phase m ≠ .absent} := by simp [ha]
  -- The induction goes from a provider to what depends on it.
  refine hwf.induction (P := fun m => s.phase m = .live →
    ∃ a, Relation.ReflTransGen s.Edge a m ∧ Turns s a _) (hpresent hm) (fun m _ ih hm => ?_) hm
  cases hd : s.dependents m with
  | nil => exact ⟨m, .refl, .unload hm hgraph hd⟩
  | cons a rest =>
    have hreg : (s.phase m).Registered := by rw [hm]; trivial
    have hmem : m ∈ s.dependsOn a := by
      rw [← List.count_pos_iff, hinv.balanced hrest hreg, hd]
      simp
    have hcleared : ¬ (s.phase a).Cleared := fun hc => by simp [hinv.cleared a hc] at hmem
    have ha : (s.phase a).Registered := by
      cases hp : s.phase a <;> simp_all [Phase.Registered, Phase.Cleared]
    have hedge : s.Edge a m := ⟨ha, hreg, hmem⟩
    obtain ⟨b, hb, hturn⟩ := ih a (hpresent (hlive a ha)) (.single hmem) (hlive a ha)
    exact ⟨b, hb.tail hedge, hturn⟩

/-- Module 0 depends on module 1, which must wait. -/
theorem some_dependent_unloads_example : ∃ s : State (Fin 2) (Fin 1),
    (machine (Fin 2) (Fin 1)).Reachable s ∧ s.Edge 0 1 ∧ s.dependents 1 ≠ [] ∧
      ∃ a, Relation.ReflTransGen s.Edge a 1 ∧ Turns s a (.unloading false) := by
  have h : (machine (Fin 2) (Fin 1)).Reachable .new := .init rfl
  have h := h.step (.inl ⟨0, .turn (.load rfl)⟩)
  have h := h.step (.inl ⟨1, .turn (.load rfl)⟩)
  have h := h.step (.inr ⟨0, .add 0 1 (by decide) rfl rfl⟩)
  have h := h.step (.inr ⟨0, .search rfl (by decide)⟩)
  have h := h.step (.inr ⟨0, .visit rfl (by decide) (by decide)⟩)
  have h := h.step (.inr ⟨0, .insert rfl⟩)
  have h := h.step (.inr ⟨0, .record rfl⟩)
  have h := h.step (.inl ⟨0, .turn (.initOk rfl)⟩)
  have h := h.step (.inl ⟨1, .turn (.initOk rfl)⟩)
  exact ⟨_, h, ⟨trivial, trivial, by decide⟩, by decide, some_dependent_unloads h
    ⟨Fin.forall_fin_one.mpr rfl, Fin.forall_fin_two.mpr ⟨nofun, nofun⟩⟩
      (Fin.forall_fin_two.mpr ⟨fun _ => rfl, fun _ => rfl⟩) rfl⟩

/-! Modules that leave the registry, by `unload` or because their init callback failed. -/
section Removal
variable {μ ι : Type}

/-- A module leaves `LOADING` or `LIVE` while no module depends on it or is in `drop_edges`, and reads
its providers while no `remove_dependency` of it is between its two maps. -/
structure Quiet (s : State μ ι) (m : μ) (phase : Phase μ) : Prop where
  alone : (s.phase m).IsRegistering → ¬ phase.IsRegistering →
    s.dependents m = [] ∧ ∀ x failed providers, s.phase x ≠ .dropping failed providers
  settled : (s.phase m).Kept → ¬ phase.Kept → ∀ t provider, s.party t ≠ .forget m provider

def guarded [DecidableEq μ] [DecidableEq ι] (guard : State μ ι → μ → Phase μ → Prop) :
    Machine (State μ ι) where
  init s := s = .new
  step s s' := (∃ m, Moves m s s' ∧ guard s m (s'.phase m)) ∨ ∃ t, Step t s s'

/-- Only modules that may register are depended on, and `drop_edges` leaves nothing behind. -/
structure Tidy (s : State μ ι) : Prop where
  provider : ∀ m x, m ∈ s.dependsOn x → (s.phase m).IsRegistering
  dependent : ∀ a b, (s.phase b).Registered → (s.phase a).Dropped b → a ∉ s.dependents b

theorem Tidy.change [DecidableEq μ] {s s' : State μ ι} {m : μ} {phase : Phase μ} (h : Tidy s)
    (hphase : s'.phase = update s.phase m phase)
    (hproviders : ∀ x, s'.dependsOn x ⊆ s.dependsOn x) (hdep : ∀ b, s'.dependents b ⊆ s.dependents b)
    (hreg : (s.phase m).IsRegistering → ¬ phase.IsRegistering → ∀ x, m ∉ s.dependsOn x)
    (hin : phase.Registered → (s.phase m).Registered ∨ s.dependents m = [])
    (hdropped : ∀ b, (s.phase b).Registered → phase.Dropped b →
      (s.phase m).Dropped b ∨ m ∉ s'.dependents b) : Tidy s' where
  provider y x hy := by
    have hold := h.provider y x (hproviders x hy)
    rw [hphase]
    by_cases hym : y = m
    · subst hym
      refine update_mover Phase.IsRegistering ?_
      by_contra hnew
      exact hreg hold hnew x (hproviders x hy)
    · exact update_other Phase.IsRegistering hym hold
  dependent a b hb ha hmem := by
    rw [hphase] at hb ha
    have hb' : (s.phase b).Registered := by
      obtain ⟨rfl, hnew⟩ | ⟨-, hold⟩ := update_cases Phase.Registered hb
      · exact (hin hnew).resolve_right (List.ne_nil_of_mem (hdep b hmem))
      · exact hold
    obtain ⟨rfl, hnew⟩ | ⟨-, hold⟩ := update_cases (Phase.Dropped b) ha
    · obtain hold | hnot := hdropped b hb' hnew
      · exact h.dependent a b hb' hold (hdep b hmem)
      · exact hnot hmem
    · exact h.dependent a b hb' hold (hdep b hmem)

end Removal

variable {μ ι : Type} [Fintype ι] [DecidableEq μ] {s s' : State μ ι} {t : ι} {m x : μ}
  {phase : Phase μ}

theorem Inv.leaves (h : Inv s) (ht : Turns s m phase) (hq : Quiet s m phase)
    (hm : (s.phase m).IsRegistering) (hm' : ¬ phase.IsRegistering) (x : μ) : m ∉ s.dependsOn x := by
  obtain ⟨hd, hdrop⟩ := hq.alone hm hm'
  have hg := (ht.isRegistering hm).resolve_left hm'
  by_cases hk : (s.phase x).Kept
  · have hrecord : count (· = Place.record x m) s.party = 0 :=
      count_eq_zero.mpr fun t ht => h.no_holder (t := t) hg (by rw [ht]; trivial)
    have hback := h.backward x m hk
    rw [hd, List.count_nil] at hback
    rw [← List.count_eq_zero, h.forward x m hk]
    omega
  · have hcleared : (s.phase x).Cleared := by
      cases hx : s.phase x with
      | absent | dropped | dead | gone => trivial
      | loading | live | unloading => exact absurd (by rw [hx]; trivial) hk
      | dropping => exact absurd hx (hdrop x _ _)
    rw [h.cleared x hcleared]
    exact List.not_mem_nil

theorem Inv.settled {b : μ} (h : Inv s) (hk : (s.phase m).Kept)
    (hforget : ∀ t, s.party t ≠ .forget m b) (hb : b ∉ s.dependsOn m) : m ∉ s.dependents b := by
  have hnone : count (· = Place.forget m b) s.party = 0 := count_eq_zero.mpr hforget
  have hforth := h.forward m b hk
  rw [List.count_eq_zero.mpr hb] at hforth
  rw [← List.count_eq_zero, h.backward m b hk]
  omega

theorem Tidy.moves (h : Tidy s) (hinv : Inv s) (hmoves : Moves m s s') (hq : Quiet s m (s'.phase m)) :
    Tidy s' := by
  have hout : ∀ {failed providers}, s.phase m = .dropping failed providers →
      ¬ (s.phase m).IsRegistering ∧ (s.phase m).Registered := by
    intro failed providers hm
    rw [hm]
    exact ⟨by simp [Phase.IsRegistering, Phase.state], trivial⟩
  cases hmoves with
  | @turn phase ht =>
    rw [show (s.turn m phase).phase m = phase from update_self ..] at hq
    refine h.change rfl (fun _ => List.Subset.refl _) (fun _ => List.Subset.refl _)
      (hinv.leaves ht hq) (fun hr => (ht.registered hr).imp_right (hinv.alone m)) fun b _ hnew => ?_
    refine (ht.dropped hnew).imp_right fun hread => ?_
    exact hinv.settled hread.1 (fun t => hq.settled hread.1 (fun hk => hk.not_dropped hnew) t b) hread.2
  | @skipEdge failed provider rest hm hp =>
    refine h.change rfl (fun _ => List.Subset.refl _) (fun _ => List.Subset.refl _)
      (fun hr => absurd hr (hout hm).1) (fun _ => .inl (hout hm).2) fun b hb hnew => .inl ?_
    have hne : b ≠ provider := fun he => hp (he ▸ hb)
    rw [hm]
    simpa [Phase.Dropped, hne] using hnew
  | @dropEdge failed provider rest hm hp =>
    refine h.change rfl (fun _ => List.Subset.refl _) (update_subset List.filter_sublist.subset)
      (fun hr => absurd hr (hout hm).1) (fun _ => .inl (hout hm).2) fun b _ hnew => ?_
    by_cases hb : b = provider
    · subst hb
      exact .inr (by simp [State.turn, State.setDependents])
    · rw [hm]
      exact .inl (by simpa [Phase.Dropped, hb] using hnew)
  | @clear failed hm =>
    refine h.change rfl (update_subset (List.nil_subset _)) (fun _ => List.Subset.refl _)
      (fun hr => absurd hr (hout hm).1) (fun _ => .inl (hout hm).2) fun b _ _ => .inl ?_
    rw [hm]
    exact List.not_mem_nil

variable [DecidableEq ι]

theorem Tidy.step (h : Tidy s) (hinv : Inv s) (hstep : Step t s s') : Tidy s' := by
  have hplace := hinv.place t
  constructor
  · intro y x hy
    cases hstep with
    | insert ht =>
      rw [ht] at hplace
      obtain ⟨-, rfl⟩ | hold := mem_update_cons.mp hy
      · exact hplace.2.1
      · exact h.provider y x hold
    | remove => exact h.provider y x (update_subset List.erase_subset x hy)
    | _ => exact h.provider y x hy
  · intro a b hb ha hmem
    rw [hstep.phase_eq] at hb ha
    refine h.dependent a b hb ha ?_
    cases hstep with
    | record ht =>
      rw [ht] at hplace
      obtain ⟨-, rfl⟩ | hold := mem_update_cons.mp hmem
      · exact absurd ha hplace.1.early.1.not_dropped
      · exact hold
    | forget => exact update_subset List.erase_subset b hmem
    | _ => exact hmem

theorem Inv.of_guarded {guard : State μ ι → μ → Phase μ → Prop} (h : (guarded guard).Reachable s) :
    Inv s := by
  refine inv_of_reachable ?_
  induction h with
  | init h => exact .init h
  | step _ h ih => exact ih.step (h.imp_left fun ⟨m, hm, _⟩ => ⟨m, hm⟩)

theorem tidy_of_reachable (h : (guarded Quiet).Reachable s) : Tidy s := by
  induction h with
  | init h =>
    subst h
    exact ⟨fun _ _ hx => (by cases hx), fun _ _ _ _ ha => (by cases ha)⟩
  | step hs h ih =>
    obtain ⟨m, hm, hq⟩ | ⟨t, ht⟩ := h
    · exact ih.moves (.of_guarded hs) hm hq
    · exact ih.step (.of_guarded hs) ht

/-- A module that was removed is in no map of a registered one, and none depended on it when it left
`LOADING` or `LIVE`. -/
theorem removed_leaves_no_edge (h : (guarded Quiet).Reachable s) :
    (∀ m failed, s.phase m = .gone failed → ∀ x, (s.phase x).Registered →
      m ∉ s.dependsOn x ∧ m ∉ s.dependents x) ∧
    ∀ s', (guarded Quiet).step s s' → ∀ m, (s.phase m).IsRegistering →
      ¬ (s'.phase m).IsRegistering → ∀ x, m ∉ s.dependsOn x := by
  have htidy := tidy_of_reachable h
  constructor
  · intro m failed hm x hx
    refine ⟨fun hmem => ?_, htidy.dependent m x hx (by rw [hm]; trivial)⟩
    have hreg := htidy.provider m x hmem
    simp [hm, Phase.IsRegistering, Phase.state] at hreg
  · intro s' hstep m hm hm' x hx
    have htidy' := tidy_of_reachable (h.step hstep)
    obtain ⟨m', hmoves, -⟩ | ⟨t, ht⟩ := hstep
    · cases hmoves with
      | turn | skipEdge | dropEdge => exact hm' (htidy'.provider m x hx)
      | clear hd =>
        refine hm' (update_other Phase.IsRegistering ?_ hm)
        rintro rfl
        simp [hd, Phase.IsRegistering, Phase.state] at hm
    · exact hm' (ht.phase_eq ▸ hm)

theorem removed_leaves_no_edge_example :
    ∃ s : State (Fin 2) (Fin 1), (guarded Quiet).Reachable s ∧ s.phase 0 = .gone true ∧
      s.phase 1 = .loading ∧ 0 ∉ s.dependsOn 1 := by
  have h : (guarded Quiet).Reachable (.new : State (Fin 2) (Fin 1)) := .init rfl
  have go {s s' : State (Fin 2) (Fin 1)} (h : (guarded Quiet).Reachable s) (m : Fin 2)
      (hm : Moves m s s') (hr : ¬ (s.phase m).IsRegistering) (hp : ∀ t, s.party t = .idle) :
      (guarded Quiet).Reachable s' :=
    h.step (.inl ⟨m, hm, fun h => absurd h hr, fun _ _ t _ hf => by cases (hp t).symm.trans hf⟩)
  have h := go (go h 1 (.turn (.load rfl)) (by decide) fun _ => rfl) 0 (.turn (.load rfl)) (by decide)
    fun _ => rfl
  have h := h.step (.inl ⟨0, .turn (.initFails rfl rfl), fun _ _ => ⟨rfl, Fin.forall_fin_two.mpr
    ⟨fun _ _ hx => (by cases hx), fun _ _ hx => (by cases hx)⟩⟩, fun _ _ _ _ hf => (by cases hf)⟩)
  have h := go h 0 (.turn (.providers rfl)) (by decide) fun _ => rfl
  have h := go h 0 (.clear rfl) (by decide) fun _ => rfl
  have h := go h 0 (.turn (.dead rfl)) (by decide) fun _ => rfl
  have h := go h 0 (.turn (.remove rfl)) (by decide) fun _ => rfl
  exact ⟨_, h, rfl, rfl, ((removed_leaves_no_edge h).1 0 true rfl 1 trivial).1⟩

/-- The init callback fails after another module has linked to it. -/
theorem removed_leaves_edge :
    ∃ s : State (Fin 2) (Fin 1), (guarded fun _ _ _ => True).Reachable s ∧ s.phase 0 = .gone true ∧
      s.phase 1 = .live ∧ 0 ∈ s.dependsOn 1 := by
  have h : (guarded fun _ _ _ => True).Reachable (.new : State (Fin 2) (Fin 1)) := .init rfl
  have h := h.step (.inl ⟨0, .turn (.load rfl), trivial⟩)
  have h := h.step (.inl ⟨1, .turn (.load rfl), trivial⟩)
  have h := h.step (.inr ⟨0, .add 1 0 (by decide) rfl rfl⟩)
  have h := h.step (.inr ⟨0, .search rfl (by decide)⟩)
  have h := h.step (.inr ⟨0, .visit rfl (by decide) (by decide)⟩)
  have h := h.step (.inr ⟨0, .insert rfl⟩)
  have h := h.step (.inr ⟨0, .record rfl⟩)
  have h := h.step (.inl ⟨1, .turn (.initOk rfl), trivial⟩)
  have h := h.step (.inl ⟨0, .turn (.initFails rfl rfl), trivial⟩)
  have h := h.step (.inl ⟨0, .turn (.providers rfl), trivial⟩)
  have h := h.step (.inl ⟨0, .clear rfl, trivial⟩)
  have h := h.step (.inl ⟨0, .turn (.dead rfl), trivial⟩)
  have h := h.step (.inl ⟨0, .turn (.remove rfl), trivial⟩)
  exact ⟨_, h, rfl, rfl, by decide⟩

end Roanix.Driver.Graph
