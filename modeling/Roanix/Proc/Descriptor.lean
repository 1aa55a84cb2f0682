import Roanix.Lib.Machine

/-! Who keeps a description open. Its `Arc` has two kinds of owners: entries of the descriptor table,
and watches of epoll instances. A description stands for the key that `Descriptor::key` gives. -/
namespace Roanix.Proc.Descriptor
open Lib

structure State (δ : Type) where
  files : List (Option δ)
  /-- The instance of a watch, and the description that the watch holds. -/
  watches : List (δ × δ)

variable {δ : Type} [DecidableEq δ]

namespace State

def Owned (s : State δ) (d : δ) : Prop := some d ∈ s.files ∨ ∃ p ∈ s.watches, p.2 = d

instance (s : State δ) (d : δ) : Decidable (s.Owned d) := inferInstanceAs (Decidable (_ ∨ _))

/-- An owner of `d` is gone. What has no owner is released, and an epoll instance drops its watches
then. -/
def drop (s : State δ) (d : δ) : State δ :=
  if s.Owned d then s else { s with watches := s.watches.filter (·.1 ≠ d) }

def put (s : State δ) (fd : ℕ) (new : Option δ) : State δ :=
  match s.files[fd]? with
  | some (some d) => { s with files := s.files.set fd new }.drop d
  | _ => { s with files := s.files.set fd new }

/-- `collect_ready` first keeps only the watches whose key is in the table. -/
def purge (s : State δ) (e : δ) : State δ :=
  { s with watches := s.watches.filter fun p => p.1 ≠ e ∨ some p.2 ∈ s.files }

end State

/-- The calls that succeed. `EPOLL_CTL_MOD` changes no owner. -/
inductive Step (isEpoll : δ → Bool) (permitted : State δ → ℕ → Prop) (s : State δ) : State δ → Prop
  | install {i d} (hi : s.files[i]? = some none) (hd : ¬ s.Owned d) :
      Step isEpoll permitted s (s.put i (some d))
  /-- Into a free entry, or in the place of another descriptor. -/
  | duplicate {i j d} (hi : s.files[i]? = some (some d)) (hne : i ≠ j) (hj : permitted s j) :
      Step isEpoll permitted s (s.put j (some d))
  | close {i} (hi : permitted s i) : Step isEpoll permitted s (s.put i none)
  | add {e d} (he : some e ∈ s.files) (hd : some d ∈ s.files) (hepoll : isEpoll e = true)
      (hkind : isEpoll d = false) (hnew : (e, d) ∉ s.watches) :
      Step isEpoll permitted s { s with watches := (e, d) :: s.watches }
  | delete {e d} (hd : some d ∈ s.files) :
      Step isEpoll permitted s ({ s with watches := s.watches.erase (e, d) }.drop d)
  | wait (e : δ) : Step isEpoll permitted s (s.purge e)

/-- The table begins empty; entries beyond its end are as free ones. -/
def machine (isEpoll : δ → Bool) (permitted : State δ → ℕ → Prop) : Machine (State δ) where
  init s := ∃ n, s = ⟨List.replicate n none, []⟩
  step := Step isEpoll permitted

/-- A watched description has another descriptor than `fd`. -/
def Unwatched (s : State δ) (fd : ℕ) : Prop := ∀ e d, s.files[fd]? = some (some d) →
  (e, d) ∈ s.watches → ∃ j, j ≠ fd ∧ s.files[j]? = some (some d)

def Inv (s : State δ) : Prop := ∀ p ∈ s.watches, some p.2 ∈ s.files

variable {isEpoll : δ → Bool} {s s' : State δ}

theorem Inv.drop (h : Inv s) (d : δ) : Inv (s.drop d) := by
  unfold State.drop
  split_ifs
  · exact h
  · exact fun p hp => h p (List.mem_filter.mp hp).1

theorem Inv.put (h : Inv s) {i : ℕ} (hok : Unwatched s i) (new : Option δ) :
    Inv (s.put i new) := by
  have hset : Inv { s with files := s.files.set i new } := by
    rintro ⟨e, d⟩ hp
    obtain ⟨j, hne, hj⟩ : ∃ j, j ≠ i ∧ s.files[j]? = some (some d) := by
      obtain ⟨j, hj⟩ := List.getElem?_of_mem (h _ hp)
      by_cases hji : j = i
      · exact hok e d (hji ▸ hj) hp
      · exact ⟨j, hji, hj⟩
    exact List.mem_of_getElem? ((List.getElem?_set_ne hne.symm).trans hj)
  unfold State.put
  split
  · exact hset.drop _
  · exact hset

theorem Inv.step (h : Inv s) (hstep : Step isEpoll Unwatched s s') : Inv s' := by
  cases hstep with
  | install hi hd => exact h.put (fun e d hsome => by cases hi.symm.trans hsome) _
  | duplicate hi hne hok => exact h.put hok _
  | close hok => exact h.put hok none
  | add he hd hepoll hkind hnew => exact List.forall_mem_cons.mpr ⟨hd, h⟩
  | @delete e d hd =>
    have herase : Inv { s with watches := s.watches.erase (e, d) } :=
      fun p hp => h p (List.mem_of_mem_erase hp)
    exact herase.drop d
  | wait e => exact fun p hp => h p (List.mem_filter.mp hp).1

/-- While the last descriptor of a description is not closed under a watch, what has no descriptor
is released. -/
theorem watch_keeps_nothing_open (h : (machine isEpoll Unwatched).Reachable s) (d : δ)
    (hclosed : some d ∉ s.files) : ¬ s.Owned d := by
  have hinv : Inv s := by
    refine h.invariant ?_ fun _ _ hs hstep => hs.step hstep
    rintro _ ⟨n, rfl⟩ p hp
    cases hp
  rintro (hfile | ⟨p, hp, rfl⟩)
  · exact hclosed hfile
  · exact hclosed (hinv p hp)

theorem watching_reachable (permitted : State ℕ → ℕ → Prop) :
    (machine (· == 0) permitted).Reachable ⟨[some 0, some 1], [(0, 1)]⟩ := by
  have h : (machine (· == 0) permitted).Reachable ⟨[none, none], []⟩ := .init ⟨2, rfl⟩
  have h := h.step (Step.install (i := 0) (d := 0) rfl (by decide))
  have h := h.step (Step.install (i := 1) (d := 1) rfl (by decide))
  exact h.step (Step.add (e := 0) (d := 1) (by decide) (by decide) rfl rfl (by decide))

theorem watch_keeps_nothing_open_example : ∃ s : State ℕ, s.watches = [] ∧ some 1 ∉ s.files ∧
    ¬ s.Owned 1 := by
  have h := (watching_reachable Unwatched).step (Step.delete (e := 0) (d := 1) (by decide))
  have h := h.step (Step.close (i := 1) fun e d _ hw => by cases hw)
  exact ⟨_, rfl, by decide, watch_keeps_nothing_open h 1 (by decide)⟩

/-- The only descriptor of a watched description is closed, and the watch still owns it. -/
theorem watch_keeps_open : ∃ s : State ℕ, (machine (· == 0) fun _ _ => True).Reachable s ∧
    some 1 ∉ s.files ∧ s.Owned 1 :=
  ⟨_, (watching_reachable _).step (Step.close (i := 1) trivial), by decide, by decide⟩

end Roanix.Proc.Descriptor
