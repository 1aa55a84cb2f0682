import Roanix.Lib.Machine

/-! The lifecycle word of one device node (`devfs.rs`): the revoked bit, the number of opens and the
number of activities, one atomic operation a step. A party is one open file with the calls that
open and close it, one other vnode operation, or one call of `remove_node` or
`force_remove_owner`. -/
namespace Roanix.Fs.DevNode
open Lib Function

/-- Where a call is; most places are named for what it does next. -/
inductive Place where
  | idle
  /-- Past `begin_activity`: start the callback, of `open` or of another operation. -/
  | begun (opens : Bool)
  | calling (opens : Bool)
  | markOpen
  | undo
  | undoing
  | drop
  | keep
  | file
  | close
  | closing
  | lower
  | markClosed
  /-- The callback of `terminal_state`, which begins no activity. -/
  | terminal
  | removed
  | forced
deriving DecidableEq

@[simp] def Place.active : Place → ℕ
  | begun _ | calling _ | markOpen | undo | undoing | drop | keep | close | closing | lower => 1
  | _ => 0

@[simp] def Place.opens : Place → ℕ
  | keep | file | close | closing | lower | markClosed => 1
  | _ => 0

@[simp] def Place.Running : Place → Prop
  | calling _ | undoing | closing | terminal => True
  | _ => False

@[simp] def Place.Closing (p : Place) : Prop := p = undoing ∨ p = closing

/-- An `open` callback has succeeded and no `close` callback was started for it. -/
@[simp] def Place.Owes (p : Place) : Prop :=
  p = markOpen ∨ p = undo ∨ p = keep ∨ p = file ∨ p = close

/-- A callback runs without an activity, or starts without another look at the word. -/
@[simp] def Place.Unguarded (p : Place) : Prop := p = terminal ∨ ∃ opens, p = begun opens

@[simp] def Place.Revokes (p : Place) : Prop := p = removed ∨ p = forced

/-- `NodeActivity::drop`. -/
def dropActivity (w : ℕ) : ℕ := if w % 2 ^ 32 = 0 then w else w - 1

def markClosed (w : ℕ) : ℕ := if w / 2 ^ 32 % 2 ^ 31 = 0 then w else w - 2 ^ 32

/-- The next operation of a call on the word. A `compare_exchange` loop is its last round, and a
call that is refused changes nothing. -/
inductive Goes : ℕ → Place → ℕ → Place → Prop
  | begin {w : ℕ} (opens : Bool) (hw : w < 2 ^ 63) (hn : w % 2 ^ 32 ≠ 2 ^ 32 - 1) :
      Goes w .idle (w + 1) (.begun opens)
  | call (w : ℕ) (opens : Bool) : Goes w (.begun opens) w (.calling opens)
  | returns (w : ℕ) (opens : Bool) : Goes w (.calling opens) w .drop
  | opened (w : ℕ) : Goes w (.calling true) w .markOpen
  | markOpen {w : ℕ} (hw : w < 2 ^ 63) (hn : w / 2 ^ 32 ≠ 2 ^ 31 - 1) :
      Goes w .markOpen (w + 2 ^ 32) .keep
  | refused {w : ℕ} (h : 2 ^ 63 ≤ w ∨ w / 2 ^ 32 = 2 ^ 31 - 1) : Goes w .markOpen w .undo
  | undo (w : ℕ) : Goes w .undo w .undoing
  | undone (w : ℕ) : Goes w .undoing w .drop
  | drop (w : ℕ) : Goes w .drop (dropActivity w) .idle
  | keep (w : ℕ) : Goes w .keep (dropActivity w) .file
  -- `close` raises and lowers the word with no test.
  | raise (w : ℕ) : Goes w .file ((w + 1) % 2 ^ 64) .close
  | close (w : ℕ) : Goes w .close w .closing
  | closed (w : ℕ) : Goes w .closing w .lower
  | lower (w : ℕ) : Goes w .lower ((w + (2 ^ 64 - 1)) % 2 ^ 64) .markClosed
  | markClosed (w : ℕ) : Goes w .markClosed (DevNode.markClosed w) .idle
  | terminalState (w : ℕ) : Goes w .idle w .terminal
  | terminalReturns (w : ℕ) : Goes w .terminal w .idle
  | tryRevoke : Goes 0 .idle (2 ^ 63) .removed
  | forceRevoke (w : ℕ) : Goes w .idle (w % 2 ^ 63 + 2 ^ 63) .forced

structure State (ι : Type) where
  word : ℕ
  place : ι → Place

variable {ι : Type} [DecidableEq ι]

/-- The runs whose calls of some kinds start only when permitted. -/
def machine (permitted : State ι → Place → Prop) : Machine (State ι) where
  init s := s = ⟨0, fun _ => .idle⟩
  step s s' := ∃ t w b, Goes s.word (s.place t) w b ∧ permitted s b ∧ s' = ⟨w, update s.place t b⟩

/-- No `terminal_state` of a revoked node, no revocation under a `terminal_state`, no forced one
between a `begin_activity` and its callback, and no `close` while the activities are at their
limit. -/
structure Careful (s : State ι) (b : Place) : Prop where
  terminal : b = .terminal → s.word < 2 ^ 63
  revoke : b.Revokes → ∀ u, s.place u ≠ .terminal
  force : b = .forced → ∀ u opens, s.place u ≠ .begun opens
  close : b = .close → s.word % 2 ^ 32 ≠ 2 ^ 32 - 1

section
variable {w w' o o' a a' : ℕ} {p b : Place}

theorem Goes.counts (h : Goes w p w' b) (hw : w < 2 ^ 64)
    (hword : w % 2 ^ 63 = 2 ^ 32 * o + a) (ha : a < 2 ^ 32) (ho : o < 2 ^ 31)
    (hpa : p.active ≤ a) (hpo : p.opens ≤ o) (hclose : b = .close → w % 2 ^ 32 ≠ 2 ^ 32 - 1)
    (ha' : a' + p.active = a + b.active) (ho' : o' + p.opens = o + b.opens) :
    w' % 2 ^ 63 = 2 ^ 32 * o' + a' ∧ a' < 2 ^ 32 ∧ o' < 2 ^ 31 ∧
      (b.Revokes → w' / 2 ^ 63 = 1) ∧ (¬ b.Revokes → w' / 2 ^ 63 = w / 2 ^ 63) := by
  cases h <;> simp [dropActivity, DevNode.markClosed] at * <;> (try split) <;> omega

theorem Goes.removes (h : Goes w p w' .removed) : w = 0 ∧ w' = 2 ^ 63 := by
  cases h
  exact ⟨rfl, rfl⟩

theorem Goes.stays (h : Goes w p w' b) (hw : w = 2 ^ 63) (ha : p.active = 0) (ho : p.opens = 0) :
    w' = 2 ^ 63 := by
  cases h <;> simp at * <;> omega

theorem Goes.guarded (h : Goes w p w' b) (hw : 2 ^ 63 ≤ w) (hb : b = .terminal → w < 2 ^ 63) :
    ¬ b.Unguarded := by
  cases h <;> simp at * <;> omega

theorem Goes.owes (h : Goes w p w' b) :
    (p.Owes ∧ ¬ b.Owes ↔ b.Closing ∧ ¬ p.Closing) ∧
      (¬ p.Owes ∧ b.Owes → p = .calling true) := by
  cases h <;> simp

theorem Goes.starts (h : Goes w p w' b) (hb : b.Running) (hp : ¬ p.Running) :
    p.Unguarded ∨ b = .terminal ∨ b.Closing := by
  cases h <;> simp at *

end

variable [Fintype ι] {s : State ι} {t : ι} {w : ℕ} {b : Place}

structure Inv (s : State ι) : Prop where
  fits : s.word < 2 ^ 64
  word : s.word % 2 ^ 63 = 2 ^ 32 * weight Place.opens s.place + weight Place.active s.place
  active : weight Place.active s.place < 2 ^ 32
  opens : weight Place.opens s.place < 2 ^ 31
  revoked : ∀ t, (s.place t).Revokes → 2 ^ 63 ≤ s.word
  removed : ∀ t, s.place t = .removed → s.word = 2 ^ 63
  guarded : 2 ^ 63 ≤ s.word → ∀ u, ¬ (s.place u).Unguarded

omit [DecidableEq ι] in
theorem Inv.quiet (h : Inv s) (hw : s.word % 2 ^ 63 = 0) (u : ι) :
    (s.place u).active = 0 ∧ (s.place u).opens = 0 := by
  have hword := h.word
  have hactive := le_weight Place.active s.place u
  have hopens := le_weight Place.opens s.place u
  omega

omit [DecidableEq ι] in
theorem Inv.revoke (h : Inv s) (hc : Careful s b) (hg : Goes s.word (s.place t) w b)
    (hb : b.Revokes) (u : ι) : ¬ (s.place u).Unguarded := by
  rintro (hu | ⟨opens, hu⟩)
  · exact hc.revoke hb u hu
  · obtain rfl | rfl := hb
    · have hquiet := (h.quiet (by simp [hg.removes.1]) u).1
      simp [hu] at hquiet
    · exact hc.force rfl u opens hu

theorem Inv.step (h : Inv s) (hg : Goes s.word (s.place t) w b) (hc : Careful s b) :
    Inv ⟨w, update s.place t b⟩ := by
  obtain ⟨hword, hactive, hopens, hset, hkept⟩ := hg.counts h.fits h.word h.active h.opens
    (le_weight _ _ t) (le_weight _ _ t) hc.close (weight_update _ s.place t b)
    (weight_update _ s.place t b)
  have hfits := h.fits
  have hrevokes : b.Revokes → 2 ^ 63 ≤ w := fun hb => by
    have := hset hb
    omega
  have hbit : b.Revokes ∨ (2 ^ 63 ≤ w ↔ 2 ^ 63 ≤ s.word) := by
    by_cases hb : b.Revokes
    · exact .inl hb
    · have := hkept hb
      exact .inr (by omega)
  refine ⟨?_, hword, hactive, hopens, fun u => ?_, fun u hu => ?_, fun hw => ?_⟩
  · change w < 2 ^ 64
    by_cases hb : b.Revokes
    · have := hset hb
      omega
    · have := hkept hb
      omega
  · refine update_elim Place.Revokes hrevokes fun hu => ?_
    exact hbit.elim hrevokes fun hiff => hiff.mpr (h.revoked u hu)
  · obtain ⟨-, rfl⟩ | ⟨-, hu⟩ := update_cases (· = Place.removed) hu
    · exact hg.removes.2
    · have hsame := h.removed u hu
      obtain ⟨ha, ho⟩ := h.quiet (by simp [hsame]) t
      exact hg.stays hsame ha ho
  · obtain hb | hiff := hbit
    · exact update_all (¬ Place.Unguarded ·) (by rcases hb with rfl | rfl <;> simp)
        (h.revoke hc hg hb)
    · exact update_all (¬ Place.Unguarded ·) (hg.guarded (hiff.mp hw) hc.terminal)
        (h.guarded (hiff.mp hw))

theorem inv_of_reachable (hs : (machine Careful).Reachable s) : Inv s := by
  refine hs.invariant ?_ ?_
  · rintro s rfl
    constructor <;> simp [weight]
  · rintro s s' h ⟨t, w, b, hg, hc, rfl⟩
    exact h.step hg hc

/-- A node that `remove_node` has revoked has no callback running. On one that `force_remove_owner`
has revoked only `close` starts, once for each `open` that has succeeded. The word counts the opens
and the activities. -/
theorem revoked_is_not_called (hs : (machine Careful).Reachable s) :
    (∀ t, s.place t = .removed → ∀ u, ¬ (s.place u).Running) ∧
      (∀ t, s.place t = .forced → ∀ u w b, Goes s.word (s.place u) w b → Careful s b →
        b.Running → ¬ (s.place u).Running → b.Closing) ∧
      (∀ u w b, Goes s.word (s.place u) w b →
        ((s.place u).Owes ∧ ¬ b.Owes ↔ b.Closing ∧ ¬ (s.place u).Closing) ∧
          (¬ (s.place u).Owes ∧ b.Owes → s.place u = .calling true)) ∧
      s.word < 2 ^ 64 ∧
      s.word % 2 ^ 63 = 2 ^ 32 * weight Place.opens s.place + weight Place.active s.place := by
  have h := inv_of_reachable hs
  refine ⟨fun t ht u hu => ?_, fun t ht u w b hg hc hb hu => ?_, fun u w b hg => hg.owes,
    h.fits, h.word⟩
  · have hguarded := h.guarded (h.revoked t (.inl ht)) u
    have hactive := (h.quiet (by simp [h.removed t ht]) u).1
    cases hp : s.place u <;> simp_all
  · have hrevoked := h.revoked t (.inr ht)
    obtain hstart | rfl | hclosing := hg.starts hb hu
    · exact absurd hstart (h.guarded hrevoked u)
    · have := hc.terminal rfl
      omega
    · exact hclosing

theorem revoked_is_not_called_example :
    ∃ s : State Bool, (machine Careful).Reachable s ∧ s.word % 2 ^ 63 = 1 ∧
      (s.place false).Owes ∧ ∀ w b, Goes s.word (s.place false) w b → Careful s b →
        b.Running → b.Closing := by
  have h₀ : (machine (ι := Bool) Careful).Reachable _ := .init rfl
  have h₁ := h₀.step ⟨false, _, _, .begin true (by decide) (by decide), by constructor <;> simp, rfl⟩
  have h₂ := h₁.step ⟨false, _, _, .call 1 true, by constructor <;> simp, rfl⟩
  have h₃ := h₂.step ⟨true, _, _, .forceRevoke 1, by constructor <;> simp, rfl⟩
  have h₄ := h₃.step ⟨false, _, _, .opened _, by constructor <;> simp, rfl⟩
  exact ⟨_, h₄, rfl, .inl rfl, fun w b hg hc hb =>
    (revoked_is_not_called h₄).2.1 true rfl false w b hg hc hb (by simp)⟩

/-- `terminal_state` calls the driver of a node that was removed. -/
theorem called_after_removal :
    ∃ s : State Bool, (machine fun _ _ => True).Reachable s ∧ s.place true = .removed ∧
      (s.place false).Running := by
  have h₀ : (machine (ι := Bool) fun _ _ => True).Reachable _ := .init rfl
  have h₁ := h₀.step ⟨true, _, _, .tryRevoke, trivial, rfl⟩
  have h₂ := h₁.step ⟨false, _, _, .terminalState _, trivial, rfl⟩
  exact ⟨_, h₂, rfl, trivial⟩

end Roanix.Fs.DevNode
