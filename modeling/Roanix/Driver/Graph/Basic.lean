import Roanix.Lib.Acyclic
import Roanix.Lib.Machine

/-! The dependency graph of `module.rs`, one locked section a step. The counted maps `depends_on` and
`dependents` are lists with repetition: every recorded edge belongs to a link that is still held, so
a count stays far below the bound of its 64 bits. A module is named by its `ModuleId`, which is never
used again. A dependency of a module on itself is neither recorded nor dropped. -/
namespace Roanix.Driver.Graph
open Lib Function

/-- How far a module is in `load` and `unload`. After the callbacks and `teardown`, which link and
unlink as any thread does, `drop_edges` reads the providers and visits them one by one. -/
inductive Phase (μ : Type) where
  | absent
  | loading
  | live
  /-- `UNLOADING`, by `unload` or because the init callback `failed`. -/
  | unloading (failed : Bool)
  | dropping (failed : Bool) (providers : List μ)
  | dropped (failed : Bool)
  | dead (failed : Bool)
  | gone (failed : Bool)
deriving DecidableEq, Repr

inductive ModuleState where
  | loading
  | live
  | unloading
  | dead
deriving DecidableEq, Repr

namespace Phase
variable {μ : Type}

def state : Phase μ → Option ModuleState
  | absent => none
  | loading => some .loading
  | live => some .live
  | unloading _ | dropping _ _ | dropped _ => some .unloading
  | dead _ | gone _ => some .dead

def IsRegistering (phase : Phase μ) : Prop :=
  phase.state = some .loading ∨ phase.state = some .live

instance (phase : Phase μ) : Decidable phase.IsRegistering :=
  inferInstanceAs (Decidable (_ ∨ _))

def Registered : Phase μ → Prop
  | absent | gone _ => False
  | _ => True

instance : (phase : Phase μ) → Decidable phase.Registered
  | absent | gone _ => inferInstanceAs (Decidable False)
  | loading | live | unloading _ | dropping _ _ | dropped _ | dead _ =>
    inferInstanceAs (Decidable True)

end Phase

/-- Where a thread is in `add_dependency` or `remove_dependency`, named for what it does next. -/
inductive Place (μ : Type) where
  | idle
  | check (consumer provider : μ)
  /-- `creates_cycle`, with the top of the stack first. -/
  | search (consumer provider : μ) (seen queue : List μ)
  | record (consumer provider : μ)
  /-- `remove_dependency` has decremented `depends_on`. -/
  | forget (consumer provider : μ)
deriving DecidableEq, Repr

structure State (μ ι : Type) where
  phase : μ → Phase μ
  dependsOn : μ → List μ
  dependents : μ → List μ
  graph : Option ι
  party : ι → Place μ
  /-- Successful `add_dependency` calls that no `remove_dependency` has matched yet. -/
  links : μ → μ → ℕ

namespace State
variable {μ ι : Type}

def new : State μ ι where
  phase _ := .absent
  dependsOn _ := []
  dependents _ := []
  graph := none
  party _ := .idle
  links _ _ := 0

variable [DecidableEq μ] [DecidableEq ι]

def goto (s : State μ ι) (t : ι) (place : Place μ) : State μ ι :=
  { s with party := update s.party t place }

def turn (s : State μ ι) (m : μ) (phase : Phase μ) : State μ ι :=
  { s with phase := update s.phase m phase }

def setLinks (s : State μ ι) (consumer provider : μ) (n : ℕ) : State μ ι :=
  { s with
    links := update s.links consumer (update (s.links consumer) provider n) }

def setDependsOn (s : State μ ι) (consumer : μ) (l : List μ) : State μ ι :=
  { s with dependsOn := update s.dependsOn consumer l }

def setDependents (s : State μ ι) (provider : μ) (l : List μ) : State μ ι :=
  { s with dependents := update s.dependents provider l }

/-- The successors that `creates_cycle` reads. -/
def next (s : State μ ι) (m : μ) : List μ :=
  if (s.phase m).Registered then (s.dependsOn m).dedup else []

end State

variable {μ ι : Type} [DecidableEq μ] [DecidableEq ι]

/-- Steps of `load` and `unload` that change no edge. -/
inductive Turns (s : State μ ι) (m : μ) : Phase μ → Prop
  | load (h : s.phase m = .absent) : Turns s m .loading
  | initOk (h : s.phase m = .loading) : Turns s m .live
  | initFails (h : s.phase m = .loading) (hg : s.graph = none) : Turns s m (.unloading true)
  | unload (h : s.phase m = .live) (hg : s.graph = none) (hd : s.dependents m = []) :
      Turns s m (.unloading false)
  | rollBack (h : s.phase m = .unloading false) : Turns s m .live
  | providers {failed : Bool} (h : s.phase m = .unloading failed) :
      Turns s m (.dropping failed (s.dependsOn m).dedup)
  | dead {failed : Bool} (h : s.phase m = .dropped failed) : Turns s m (.dead failed)
  | remove {failed : Bool} (h : s.phase m = .dead failed) : Turns s m (.gone failed)

/-- Steps of the load or the unload of `m`. -/
inductive Moves (m : μ) (s : State μ ι) : State μ ι → Prop
  | turn {phase : Phase μ} (h : Turns s m phase) : Moves m s (s.turn m phase)
  | skipEdge {failed : Bool} {provider : μ} {rest : List μ}
      (h : s.phase m = .dropping failed (provider :: rest))
      (hp : ¬ (s.phase provider).Registered) : Moves m s (s.turn m (.dropping failed rest))
  | dropEdge {failed : Bool} {provider : μ} {rest : List μ}
      (h : s.phase m = .dropping failed (provider :: rest))
      (hp : (s.phase provider).Registered) :
      Moves m s ((s.setDependents provider
        ((s.dependents provider).filter (· ≠ m))).turn m (.dropping failed rest))
  | clear {failed : Bool} (h : s.phase m = .dropping failed []) :
      Moves m s ((s.setDependsOn m []).turn m (.dropped failed))

/-- Steps of a thread in `add_dependency` or `remove_dependency`. -/
inductive Step (t : ι) (s : State μ ι) : State μ ι → Prop
  | add (consumer provider : μ) (hne : consumer ≠ provider) (h : s.party t = .idle)
      (hg : s.graph = none) :
      Step t s ({ s with graph := some t }.goto t (.check consumer provider))
  | noDevice {consumer provider : μ} (h : s.party t = .check consumer provider)
      (hr : ¬ ((s.phase consumer).IsRegistering ∧ (s.phase provider).IsRegistering)) :
      Step t s ({ s with graph := none }.goto t .idle)
  | search {consumer provider : μ} (h : s.party t = .check consumer provider)
      (hr : (s.phase consumer).IsRegistering ∧ (s.phase provider).IsRegistering) :
      Step t s (s.goto t (.search consumer provider [] [provider]))
  | deadlock {consumer provider : μ} {seen queue : List μ}
      (h : s.party t = .search consumer provider seen (consumer :: queue)) :
      Step t s ({ s with graph := none }.goto t .idle)
  | again {consumer provider current : μ} {seen queue : List μ}
      (h : s.party t = .search consumer provider seen (current :: queue))
      (hc : current ≠ consumer) (hs : current ∈ seen) :
      Step t s (s.goto t (.search consumer provider seen queue))
  | visit {consumer provider current : μ} {seen queue : List μ}
      (h : s.party t = .search consumer provider seen (current :: queue))
      (hc : current ≠ consumer) (hs : current ∉ seen) :
      Step t s (s.goto t (.search consumer provider (current :: seen)
        ((s.next current).reverse ++ queue)))
  | insert {consumer provider : μ} {seen : List μ}
      (h : s.party t = .search consumer provider seen []) :
      Step t s ((s.setDependsOn consumer (provider :: s.dependsOn consumer)).goto t
        (.record consumer provider))
  | record {consumer provider : μ} (h : s.party t = .record consumer provider) :
      Step t s (({ s with graph := none }.setDependents provider
        (consumer :: s.dependents provider)).setLinks consumer provider
          (s.links consumer provider + 1) |>.goto t .idle)
  /-- A `remove_dependency` matches an earlier successful `add_dependency`. -/
  | remove (consumer provider : μ) (hne : consumer ≠ provider) (h : s.party t = .idle)
      {n : ℕ} (hl : s.links consumer provider = n + 1) :
      Step t s ((s.setDependsOn consumer ((s.dependsOn consumer).erase provider)).setLinks
        consumer provider n |>.goto t (.forget consumer provider))
  | forget {consumer provider : μ} (h : s.party t = .forget consumer provider) :
      Step t s ((s.setDependents provider ((s.dependents provider).erase consumer)).goto t .idle)

def machine (μ ι : Type) [DecidableEq μ] [DecidableEq ι] : Machine (State μ ι) where
  init s := s = .new
  step s s' := (∃ m, Moves m s s') ∨ ∃ t, Step t s s'
/-! What holds between any two steps. -/

namespace Phase
variable {μ : Type}

/-- `drop_edges` has not started. -/
def Kept : Phase μ → Prop
  | absent | loading | live | unloading _ => True
  | _ => False

/-- `drop_edges` has not started yet with a load, or is done. -/
def Cleared : Phase μ → Prop
  | absent | dropped _ | dead _ | gone _ => True
  | _ => False

/-- `drop_edges` is done with a provider. -/
def Dropped (provider : μ) : Phase μ → Prop
  | dropping _ providers => provider ∉ providers
  | dropped _ | dead _ | gone _ => True
  | _ => False

/-- No module depends on one that is not loaded yet, and none on one that `unload` takes down. -/
def Alone : Phase μ → Prop
  | absent | unloading false | dropping false _ | dropped false | dead false | gone false => True
  | _ => False

variable {phase : Phase μ}

theorem IsRegistering.early (h : phase.IsRegistering) :
    phase.Kept ∧ ¬ phase.Cleared ∧ ¬ phase.Alone := by
  cases phase with
  | loading | live => exact ⟨trivial, id, id⟩
  | _ => simp [IsRegistering, state] at h

theorem Kept.not_dropped {provider : μ} (h : phase.Kept) : ¬ phase.Dropped provider := by
  cases phase with
  | absent | loading | live | unloading => exact id
  | dropping | dropped | dead | gone => exact h.elim

end Phase

def Place.Holds {μ : Type} : Place μ → Prop
  | check _ _ | search _ _ _ _ | record _ _ => True
  | idle | forget _ _ => False

section Inv
variable {μ ι : Type}

/-- What the search has seen it has followed: nothing leads out of it but to the stack. -/
structure Searched (dependsOn : μ → List μ) (consumer provider : μ) (seen queue : List μ) : Prop where
  start : provider ∈ seen ∨ provider ∈ queue
  closed : ∀ x ∈ seen, ∀ y ∈ dependsOn x, y ∈ seen ∨ y ∈ queue
  missed : consumer ∉ seen

section Searched
variable {dependsOn : μ → List μ} {consumer provider current : μ} {seen queue next : List μ}

theorem Searched.visit (h : Searched dependsOn consumer provider seen (current :: queue)) (hc : current ≠ consumer)
    (hnext : ∀ y ∈ dependsOn current, y ∈ next) :
    Searched dependsOn consumer provider (current :: seen) (next ++ queue) where
  start := by
    have := h.start
    simp only [List.mem_cons, List.mem_append] at this ⊢
    tauto
  closed x hx y hy := by
    obtain rfl | hx := List.mem_cons.mp hx
    · exact .inr (List.mem_append_left _ (hnext y hy))
    · have := h.closed x hx y hy
      simp only [List.mem_cons, List.mem_append] at this ⊢
      tauto
  missed := by simp [hc.symm, h.missed]

theorem Searched.again (h : Searched dependsOn consumer provider seen (current :: queue))
    (hs : current ∈ seen) : Searched dependsOn consumer provider seen queue := by
  have hpop : ∀ {y}, y ∈ seen ∨ y ∈ current :: queue → y ∈ seen ∨ y ∈ queue := by
    intro y hy
    obtain hy | hy := hy
    · exact .inl hy
    · obtain rfl | hy := List.mem_cons.mp hy
      · exact .inl hs
      · exact .inr hy
  exact ⟨hpop h.start, fun x hx y hy => hpop (h.closed x hx y hy), h.missed⟩

theorem Searched.not_reach (h : Searched dependsOn consumer provider seen []) :
    ¬ Relation.ReflTransGen (fun a b => b ∈ dependsOn a) provider consumer := by
  intro hr
  refine h.missed (ReflTransGen.mem_of_closed ?_ ?_ hr)
  · intro a b ha hb
    exact (h.closed a ha b hb).resolve_right List.not_mem_nil
  · exact h.start.resolve_right List.not_mem_nil

end Searched

def PlaceOk (s : State μ ι) : Place μ → Prop
  | .search consumer provider seen queue =>
    (s.phase consumer).IsRegistering ∧ (s.phase provider).IsRegistering ∧
      Searched s.dependsOn consumer provider seen queue
  | .record consumer provider =>
    (s.phase consumer).IsRegistering ∧ (s.phase provider).IsRegistering
  | _ => True

variable [Fintype ι] [DecidableEq μ]

structure Inv (s : State μ ι) : Prop where
  lock : Sole s.graph Place.Holds s.party
  place : ∀ t, PlaceOk s (s.party t)
  cleared : ∀ m, (s.phase m).Cleared → s.dependsOn m = []
  acyclic : Acyclic fun a b => b ∈ s.dependsOn a
  forward : ∀ a b, (s.phase a).Kept →
    (s.dependsOn a).count b = s.links a b + count (· = Place.record a b) s.party
  backward : ∀ a b, (s.phase a).Kept →
    (s.dependents b).count a = s.links a b + count (· = Place.forget a b) s.party
  dropped : ∀ a b, (s.phase b).Registered → (s.phase a).Dropped b →
    (s.dependents b).count a ≤ count (· = Place.forget a b) s.party
  alone : ∀ m, (s.phase m).Alone → s.dependents m = []

theorem inv_new : Inv (.new : State μ ι) where
  lock t := by simp [State.new, Place.Holds]
  place t := trivial
  cleared m _ := rfl
  acyclic a h := by
    cases h with
    | single h | tail _ h => cases h
  forward a b _ := by simp [State.new, count]
  backward a b _ := by simp [State.new, count]
  dropped a b _ h := h.elim
  alone m _ := rfl

end Inv

section Turns
variable {μ ι : Type} [DecidableEq μ] {s : State μ ι} {m : μ} {phase : Phase μ}

section
variable (ht : Turns s m phase)
include ht

theorem Turns.isRegistering (h : (s.phase m).IsRegistering) :
    phase.IsRegistering ∨ s.graph = none := by
  cases ht with
  | load h' | initOk h' => exact .inl (by simp [Phase.IsRegistering, Phase.state])
  | initFails _ hg | unload _ hg _ => exact .inr hg
  | rollBack h' | providers h' | dead h' | remove h' =>
    rw [h'] at h
    simp [Phase.IsRegistering, Phase.state] at h

theorem Turns.kept (h : phase.Kept) : (s.phase m).Kept := by
  cases ht with
  | load h' | initOk h' | initFails h' | unload h' | rollBack h' => rw [h']; trivial
  | providers | dead | remove => exact h.elim

theorem Turns.cleared (h : phase.Cleared) : (s.phase m).Cleared := by
  cases ht with
  | dead h' | remove h' => rw [h']; trivial
  | _ => exact h.elim

theorem Turns.registered (h : phase.Registered) :
    (s.phase m).Registered ∨ (s.phase m).Alone := by
  cases ht with
  | load h' => rw [h']; exact .inr trivial
  | remove => exact h.elim
  | initOk h' | initFails h' | unload h' | rollBack h' | providers h' | dead h' =>
    rw [h']
    exact .inl trivial

theorem Turns.dropped {b : μ} (h : phase.Dropped b) :
    (s.phase m).Dropped b ∨ (s.phase m).Kept ∧ b ∉ s.dependsOn m := by
  cases ht with
  | providers h' =>
    rw [h']
    exact .inr ⟨trivial, fun hb => h (List.mem_dedup.mpr hb)⟩
  | dead h' | remove h' =>
    rw [h']
    exact .inl trivial
  | _ => exact h.elim

theorem Turns.alone (h : phase.Alone) :
    (s.phase m).Alone ∨ s.dependents m = [] := by
  cases ht with
  | unload _ _ hd => exact .inr hd
  | load | initOk | initFails | rollBack => exact h.elim
  | @providers failed h' | @dead failed h' | @remove failed h' =>
    rw [h']
    cases failed
    · exact .inl trivial
    · exact h.elim

end

end Turns

section Holder
variable {μ ι : Type} [Fintype ι] [DecidableEq μ] {s : State μ ι} {t : ι}

theorem Inv.no_holder (h : Inv s) (hg : s.graph = none) : ¬ (s.party t).Holds := by
  intro ht
  rw [(h.lock t).mpr ht] at hg
  cases hg

end Holder
end Roanix.Driver.Graph
