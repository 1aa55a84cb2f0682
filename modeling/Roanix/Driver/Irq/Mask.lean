import Roanix.Lib.Machine

/-! Masking of one mapped interrupt. A call changes the descriptor in a section of its lock and calls
the controller after it, so another call can come between. -/
namespace Roanix.Driver.Irq
open Lib Function

/-- The flags of `trigger` that `request` reads. -/
structure Trigger where
  shared : Bool
  startMasked : Bool

/-- The descriptor, the line of the controller and the callback that each thread is still to make. -/
structure Line (ι : Type) where
  flags : Trigger
  masked : Bool
  actions : List ℕ
  lineMasked : Bool
  cleared : Bool
  callback : ι → Option Bool

namespace Line
variable {ι : Type} [DecidableEq ι] {s s' : Line ι}

def edit (s : Line ι) (t : ι) (actions : List ℕ) (masked : Bool) (callback : Option Bool) : Line ι :=
  { s with
    actions, masked
    cleared := s.masked && !masked
    callback := update s.callback t callback }

def request (s : Line ι) (t : ι) (action : ℕ) (flags : Trigger) : Line ι :=
  if s.actions ≠ [] ∧ (!s.flags.shared || !flags.shared) then s.edit t s.actions s.masked none
  else if s.masked && !flags.startMasked then s.edit t (s.actions ++ [action]) false (some false)
  else s.edit t (s.actions ++ [action]) s.masked none

def release (s : Line ι) (t : ι) (action : ℕ) : Line ι :=
  let actions := s.actions.filter (· ≠ action)
  if actions = [] then s.edit t actions true (some true) else s.edit t actions s.masked none

def mask (s : Line ι) (t : ι) : Line ι :=
  if s.masked then s.edit t s.actions s.masked none else s.edit t s.actions true (some true)

def unmask (s : Line ι) (t : ι) : Line ι :=
  if s.masked then s.edit t s.actions false (some false) else s.edit t s.actions s.masked none

def call (s : Line ι) (t : ι) (masked : Bool) : Line ι :=
  { s with lineMasked := masked, callback := update s.callback t none }

def Idle (s : Line ι) : Prop := ∀ t, s.callback t = none

inductive Step (guard : Line ι → Prop) (s : Line ι) : Line ι → Prop
  | request {t : ι} (action : ℕ) (flags : Trigger) (ht : s.callback t = none) (hg : guard s) :
      Step guard s (s.request t action flags)
  | release {t : ι} (action : ℕ) (ht : s.callback t = none) (hg : guard s) :
      Step guard s (s.release t action)
  | mask {t : ι} (ht : s.callback t = none) (hg : guard s) : Step guard s (s.mask t)
  | unmask {t : ι} (ht : s.callback t = none) (hg : guard s) : Step guard s (s.unmask t)
  | call {t : ι} {masked : Bool} (ht : s.callback t = some masked) : Step guard s (s.call t masked)

def machine (guard : Line ι → Prop) : Machine (Line ι) where
  init s := s.masked = true ∧ s.lineMasked = true ∧ s.cleared = false ∧ s.actions = [] ∧ s.Idle
  step := Step guard

/-- The line agrees with the flag, or one callback is to come that makes it agree. -/
structure Ok (s : Line ι) : Prop where
  line : s.Idle → s.lineMasked = s.masked
  callback : ∀ t b, s.callback t = some b → b = s.masked ∧ ∀ u ≠ t, s.callback u = none
  cleared : s.cleared = true → s.masked = false

theorem ok_edit (hidle : s.Idle) (t : ι) (actions : List ℕ) (masked : Bool) :
    Ok (s.edit t actions masked (some masked)) where
  line hi := by simpa [Line.edit] using hi t
  callback u b hu := by
    obtain ⟨rfl, hb⟩ | ⟨-, hu⟩ := update_cases (fun c => c = some b) hu
    · exact ⟨(Option.some.inj hb).symm, fun v hv => (update_of_ne hv _ _).trans (hidle v)⟩
    · rw [hidle u] at hu
      cases hu
  cleared hc := by
    simp only [Line.edit, Bool.and_eq_true, Bool.not_eq_true'] at hc
    exact hc.2

section
variable (h : Ok s)
include h

theorem Ok.keep (hidle : s.Idle) (t : ι) (actions : List ℕ) :
    Ok (s.edit t actions s.masked none) where
  line _ := h.line hidle
  callback u b hu := by
    obtain ⟨-, hu⟩ | ⟨-, hu⟩ := update_cases (fun c => c = some b) hu
    · cases hu
    · rw [hidle u] at hu
      cases hu
  cleared hc := by simp [Line.edit] at hc

theorem Ok.step (hstep : Step Idle s s') : Ok s' := by
  cases hstep with
  | request action flags _ hg =>
    unfold Line.request
    split_ifs
    · exact h.keep hg _ _
    · exact ok_edit hg _ _ _
    · exact h.keep hg _ _
  | release action _ hg =>
    unfold Line.release
    dsimp only
    split_ifs
    · exact ok_edit hg _ _ _
    · exact h.keep hg _ _
  | mask _ hg =>
    unfold Line.mask
    split_ifs
    · exact h.keep hg _ _
    · exact ok_edit hg _ _ _
  | unmask _ hg =>
    unfold Line.unmask
    split_ifs
    · exact ok_edit hg _ _ _
    · exact h.keep hg _ _
  | @call t b ht =>
    obtain ⟨rfl, hothers⟩ := h.callback t b ht
    refine ⟨fun _ => rfl, fun u b' hu => ?_, h.cleared⟩
    obtain ⟨-, hu⟩ | ⟨hne, hu⟩ := update_cases (fun c => c = some b') hu
    · cases hu
    · rw [hothers u hne] at hu
      cases hu

end

/-- If no section falls between another call's section and its callback, the line agrees with the flag
whenever no call is in progress. -/
theorem mask_agrees (h : (machine Idle).Reachable s) (hidle : s.Idle) :
    s.lineMasked = s.masked ∧ (s.cleared = true → s.lineMasked = false) := by
  have hok : Ok s := by
    refine h.invariant ?_ fun s s' hs hstep => hs.step hstep
    rintro s ⟨hm, hl, hc, -, hi⟩
    exact ⟨fun _ => hl.trans hm.symm, fun t b ht => by simp [hi t] at ht, by simp [hc]⟩
  exact ⟨hok.line hidle, fun hc => (hok.line hidle).trans (hok.cleared hc)⟩

def new : Line Bool := ⟨⟨false, false⟩, true, [], true, false, fun _ => none⟩

theorem mask_disagrees : ∃ s : Line Bool, (machine fun _ => True).Reachable s ∧ s.Idle ∧
    s.lineMasked = true ∧ s.masked = false := by
  have h : (machine fun _ => True).Reachable new := .init ⟨rfl, rfl, rfl, rfl, fun _ => rfl⟩
  have h := ((((h.step (.unmask (t := false) rfl trivial)).step (.call (t := false) rfl)).step
    (.mask (t := false) rfl trivial)).step (.unmask (t := true) rfl trivial)).step
      (.call (t := true) rfl)
  exact ⟨_, h.step (.call (t := false) rfl), fun t => by cases t <;> rfl, rfl, rfl⟩

theorem mask_agrees_example : ∃ s : Line Bool, s.Idle ∧ s.cleared = true ∧
    s.lineMasked = s.masked ∧ (s.cleared = true → s.lineMasked = false) := by
  have h : (machine Idle).Reachable ((new.unmask false).call false false) :=
    .step (.step (.init ⟨rfl, rfl, rfl, rfl, fun _ => rfl⟩) (.unmask rfl fun _ => rfl)) (.call rfl)
  have hidle : ((new.unmask false).call false false).Idle := fun t => by cases t <;> rfl
  exact ⟨_, hidle, rfl, mask_agrees h hidle⟩

end Line
end Roanix.Driver.Irq
