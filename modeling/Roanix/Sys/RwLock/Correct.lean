import Roanix.Lib.Machine

/-! The sleeping reader/writer lock of `sync/rwlock.rs`, one atomic operation a step. The writer
mutex and the `drained` event enter by their contracts: the mutex has at most one owner, and a wait
on the event returns at the latest once it is signalled. -/
namespace Roanix.Sys.RwLock
open Lib Function

/-- The top bit of the state word. -/
def WRITER : ℕ := 2 ^ 63

/-- Where a thread is; each place is named for what the thread does next. -/
inductive Place where
  | idle
  /-- `read`: load the state word. -/
  | readLoad
  /-- Test the word it has seen, and try to count itself. -/
  | readTest (seen : ℕ)
  /-- Wait for the writer to leave. -/
  | readGate
  | readUngate
  | reading
  /-- The last reader out, about to signal `drained`. -/
  | signalling
  /-- `write`: lock the writer mutex. -/
  | writeGate
  | writeReset
  /-- `fetch_or(WRITER)`. -/
  | writePublish
  | writeCheck
  /-- In `drained.wait`, or spinning. -/
  | writeWait
  | writing
  /-- The word is cleared, the mutex still held. -/
  | writeUngate
  /-- `try_write`. -/
  | tryGate
  | tryPublish
  | tryUngate
deriving DecidableEq, Repr

structure State (ι : Type) where
  word : ℕ
  /-- The owner of `writer`. -/
  gate : Option ι
  drained : Bool
  place : ι → Place

variable {ι : Type} [DecidableEq ι]

def State.new : State ι := ⟨0, none, false, fun _ => .idle⟩

namespace State

def goto (s : State ι) (t : ι) (place : Place) : State ι :=
  { s with place := Function.update s.place t place }

end State

open State in
/-- One atomic operation of one thread. A weak exchange may fail at any time; the mutex and the
event may make a thread wait, so that it takes no step. -/
inductive Step (t : ι) (s : State ι) : State ι → Prop
  | read (h : s.place t = .idle) : Step t s (s.goto t .readLoad)
  | load (h : s.place t = .readLoad) : Step t s (s.goto t (.readTest s.word))
  | readBlocked {seen : ℕ} (h : s.place t = .readTest seen) (hw : seen &&& WRITER ≠ 0) :
      Step t s (s.goto t .readGate)
  | gateForRead (h : s.place t = .readGate) (hg : s.gate = none) :
      Step t s ({ s with gate := some t }.goto t .readUngate)
  | ungateForRead (h : s.place t = .readUngate) :
      Step t s ({ s with gate := none }.goto t .readLoad)
  | acquireRead {seen : ℕ} (h : s.place t = .readTest seen) (hw : seen &&& WRITER = 0)
      (hover : seen < WRITER - 1) (heq : s.word = seen) :
      Step t s ({ s with word := seen + 1 }.goto t .reading)
  | retryRead {seen : ℕ} (h : s.place t = .readTest seen) (hw : seen &&& WRITER = 0)
      (hover : seen < WRITER - 1) : Step t s (s.goto t (.readTest s.word))
  | dropRead (h : s.place t = .reading) (hlast : s.word ≠ WRITER + 1) :
      Step t s ({ s with word := s.word - 1 }.goto t .idle)
  | dropLastRead (h : s.place t = .reading) (hlast : s.word = WRITER + 1) :
      Step t s ({ s with word := s.word - 1 }.goto t .signalling)
  | signal (h : s.place t = .signalling) : Step t s ({ s with drained := true }.goto t .idle)
  | write (h : s.place t = .idle) : Step t s (s.goto t .writeGate)
  | gateForWrite (h : s.place t = .writeGate) (hg : s.gate = none) :
      Step t s ({ s with gate := some t }.goto t .writeReset)
  | reset (h : s.place t = .writeReset) :
      Step t s ({ s with drained := false }.goto t .writePublish)
  | publish (h : s.place t = .writePublish) :
      Step t s ({ s with word := s.word ||| WRITER }.goto t .writeCheck)
  | drainedAlready (h : s.place t = .writeCheck) (hw : s.word = WRITER) :
      Step t s (s.goto t .writing)
  | sleep (h : s.place t = .writeCheck) (hw : s.word ≠ WRITER) : Step t s (s.goto t .writeWait)
  | wake (h : s.place t = .writeWait) : Step t s (s.goto t .writeCheck)
  | dropWrite (h : s.place t = .writing) : Step t s ({ s with word := 0 }.goto t .writeUngate)
  | ungateForWrite (h : s.place t = .writeUngate) :
      Step t s ({ s with gate := none }.goto t .idle)
  | tryWrite (h : s.place t = .idle) : Step t s (s.goto t .tryGate)
  | tryLock (h : s.place t = .tryGate) (hg : s.gate = none) :
      Step t s ({ s with gate := some t }.goto t .tryPublish)
  | tryLockFails (h : s.place t = .tryGate) : Step t s (s.goto t .idle)
  | tryPublish (h : s.place t = .tryPublish) (hw : s.word = 0) :
      Step t s ({ s with word := WRITER }.goto t .writing)
  | tryPublishFails (h : s.place t = .tryPublish) (hw : s.word ≠ 0) :
      Step t s (s.goto t .tryUngate)
  | tryUngate (h : s.place t = .tryUngate) : Step t s ({ s with gate := none }.goto t .idle)

def machine (ι : Type) [DecidableEq ι] : Machine (State ι) where
  init s := s = .new
  step s s' := ∃ t, Step t s s'
/-! Between the steps, the word counts the live read guards, with the top bit while a writer is
between publishing and dropping its guard. -/

namespace Place

def HoldsGate : Place → Prop
  | .readUngate | .writeReset | .writePublish | .writeCheck | .writeWait | .writing | .writeUngate
  | .tryPublish | .tryUngate => True
  | _ => False

/-- The thread has set the top bit and not yet cleared it. -/
def InWindow : Place → Prop
  | .writeCheck | .writeWait | .writing => True
  | _ => False

theorem InWindow.holdsGate {p : Place} (h : p.InWindow) : p.HoldsGate := by
  cases p <;> trivial

end Place

variable {ι : Type}

/-- The mutex belongs to the thread that is where an owner is. -/
abbrev GateOk (gate : Option ι) (place : ι → Place) : Prop := Sole gate Place.HoldsGate place

theorem not_inWindow {gate : Option ι} {place : ι → Place} {t : ι} (h : GateOk gate place)
    (ht : (place t).HoldsGate) (hw : ¬ (place t).InWindow) (u : ι) : ¬ (place u).InWindow := by
  intro hu
  have := h.unique ht hu.holdsGate
  subst this
  exact hw hu

variable [Fintype ι]

def readers (place : ι → Place) : ℕ := count (· = .reading) place

/-- The word counts the readers, with the top bit while a writer has closed the lock. -/
structure WordOk (word : ℕ) (place : ι → Place) : Prop where
  opened : (∀ t, ¬ (place t).InWindow) → word = readers place
  closed : ∀ t, (place t).InWindow → word = WRITER + readers place
  bound : readers place < WRITER
  exclusive : ∀ t, place t = .writing → readers place = 0

/-- No writer sleeps for nothing. -/
def AwakeOk (drained : Bool) (place : ι → Place) : Prop :=
  ∀ t, place t = .writeWait → readers place = 0 → drained = true ∨ ∃ u, place u = .signalling

structure Inv (s : State ι) : Prop where
  gate : GateOk s.gate s.place
  word : WordOk s.word s.place
  awake : AwakeOk s.drained s.place

theorem or_writer {r : ℕ} (h : r < WRITER) : r ||| WRITER = WRITER + r := by
  rw [Nat.or_comm]
  exact (Nat.two_pow_add_eq_or_of_lt h 1).symm

theorem writer_and {r : ℕ} (h : r < WRITER) : (WRITER + r) &&& WRITER ≠ 0 := by
  intro hzero
  have hbit := congrArg (Nat.testBit · 63) hzero
  simp only [Nat.testBit_and] at hbit
  unfold WRITER at *
  rw [Nat.testBit_two_pow_self, Nat.testBit_two_pow_add_eq, Nat.testBit_lt_two_pow h] at hbit
  cases hbit

theorem and_writer {r : ℕ} (h : r < WRITER) : r &&& WRITER = 0 := by
  apply Nat.eq_of_testBit_eq
  intro i
  unfold WRITER at *
  rw [Nat.testBit_and, Nat.testBit_two_pow, Nat.zero_testBit, Bool.and_eq_false_iff,
    decide_eq_false_iff_not]
  by_cases hi : 63 = i
  · subst hi
    exact .inl (Nat.testBit_lt_two_pow h)
  · exact .inr hi

section
variable {place : ι → Place}

theorem WordOk.open_of_and {word : ℕ} (h : WordOk word place) (hw : word &&& WRITER = 0) (t : ι) :
    ¬ (place t).InWindow := by
  intro ht
  rw [h.closed t ht] at hw
  exact writer_and h.bound hw

theorem WordOk.readers_le {word : ℕ} (h : WordOk word place) : readers place ≤ word := by
  by_cases hopen : ∃ t, (place t).InWindow
  · obtain ⟨t, ht⟩ := hopen
    exact h.closed t ht ▸ Nat.le_add_left _ _
  · exact (h.opened fun t ht => hopen ⟨t, ht⟩).ge

end

theorem inv_new : Inv (.new : State ι) := by
  have hcount : readers (fun _ : ι => Place.idle) = 0 := by
    apply count_eq_zero.mpr
    intro t ht
    cases ht
  constructor
  · intro t
    exact ⟨fun h => (by cases h), fun h => h.elim⟩
  · constructor
    · intro _
      exact hcount.symm
    · intro t ht
      exact ht.elim
    · change readers (fun _ : ι => Place.idle) < WRITER
      rw [hcount]
      decide
    · intro t ht
      cases ht
  · intro t ht
    cases ht

variable [DecidableEq ι] {word : ℕ} {drained : Bool} {place : ι → Place} {t : ι} {b : Place}

/-- What a thread at a place adds to the word. -/
def Place.share : Place → ℕ
  | .reading => 1
  | .writeCheck | .writeWait | .writing => WRITER
  | _ => 0

theorem Place.InWindow.share {p : Place} (h : p.InWindow) : p.share = WRITER ∧ p ≠ .reading := by
  cases p <;> first | exact h.elim | exact ⟨rfl, nofun⟩

theorem Place.share_of_open {p : Place} (h : ¬ p.InWindow) :
    p.share = if p = .reading then 1 else 0 := by
  cases p <;> first | exact absurd trivial h | rfl

theorem WordOk.move {gate gate' : Option ι} {word' : ℕ} (h : WordOk word place)
    (hgate : GateOk gate place) (hgate' : GateOk gate' (update place t b))
    (hword : word' + (place t).share = word + b.share)
    (hread : b = .reading → word < WRITER - 1 ∧ ∀ u, ¬ (place u).InWindow)
    (hwriting : b = .writing → readers place = 0) : WordOk word' (update place t b) := by
  have hcount := count_update (p := (· = Place.reading)) place t b
  change readers (update place t b) + _ = readers place + _ at hcount
  have hbefore (hothers : ∀ u, u ≠ t → ¬ (place u).InWindow) :
      word + (if place t = .reading then 1 else 0) = readers place + (place t).share := by
    by_cases ht : (place t).InWindow
    · rw [h.closed t ht, ht.share.1, if_neg ht.share.2]
      omega
    · rw [h.opened fun u hu => ?_, Place.share_of_open ht]
      obtain rfl | hut := eq_or_ne u t
      · exact ht hu
      · exact hothers u hut hu
  refine ⟨fun hopen => ?_, fun u hu => ?_, ?_, fun u hu => ?_⟩
  · have hb : ¬ b.InWindow := fun hb => hopen t (update_mover Place.InWindow hb)
    have := hbefore fun u hut hu => hopen u (update_other Place.InWindow hut hu)
    rw [Place.share_of_open hb] at hword
    omega
  · obtain ⟨rfl, hb⟩ | ⟨hut, hu'⟩ := update_cases Place.InWindow hu
    · have := hbefore fun v hvt hv =>
        hvt (hgate'.unique (update_other Place.HoldsGate hvt hv.holdsGate) hu.holdsGate)
      rw [if_neg hb.share.2] at hcount
      rw [hb.share.1] at hword
      omega
    · have ht : ¬ (place t).InWindow := fun ht => hut (hgate.unique hu'.holdsGate ht.holdsGate)
      have hb : ¬ b.InWindow := fun hb => hut (hgate'.unique hu.holdsGate
        (update_mover Place.HoldsGate hb.holdsGate))
      have := h.closed u hu'
      rw [Place.share_of_open ht, Place.share_of_open hb] at hword
      omega
  · have := h.bound
    by_cases hb : b = .reading
    · obtain ⟨hlt, hopen⟩ := hread hb
      have := h.opened hopen
      rw [if_pos hb] at hcount
      omega
    · rw [if_neg hb] at hcount
      omega
  · obtain ⟨-, hb⟩ | ⟨-, hu⟩ := update_cases (· = Place.writing) hu
    · have hzero := hwriting hb
      rw [if_neg (c := b = .reading) (by simp [hb])] at hcount
      omega
    · have := h.exclusive u hu
      rw [if_neg fun hb => (hread hb).2 u (hu ▸ trivial)] at hcount
      omega

theorem AwakeOk.stay (h : AwakeOk drained place) (hsig : place t ≠ .signalling)
    (hread : place t = .reading ↔ b = .reading) (hwait : b = .writeWait → readers place ≠ 0) :
    AwakeOk drained (update place t b) := by
  have hcount : readers (update place t b) = readers place := count_stay hread
  intro u hu hzero
  rw [hcount] at hzero
  obtain ⟨-, hu⟩ | ⟨-, hu⟩ := update_cases (· = Place.writeWait) hu
  · exact absurd hzero (hwait hu)
  · obtain hd | ⟨v, hv⟩ := h u hu hzero
    · exact .inl hd
    · exact .inr ⟨v, update_keep (· = Place.signalling) hv (absurd · hsig)⟩

theorem awakeOk_of_mover {gate : Option ι} (hgate : GateOk gate (update place t b))
    (hb : b.HoldsGate) (hw : b ≠ .writeWait) : AwakeOk drained (update place t b) := by
  intro u hu _
  have hholds : (update place t b u).HoldsGate := by
    rw [hu]
    trivial
  obtain rfl := hgate.unique hholds (update_mover Place.HoldsGate hb)
  exact absurd hu (update_mover (· ≠ Place.writeWait) hw)

/-! Exclusion and wake-ups, over every interleaving. -/
variable {s s' : State ι}

attribute [local simp] Place.HoldsGate Place.InWindow Place.share

theorem Inv.move (h : Inv s) {word : ℕ} {gate : Option ι} {drained : Bool}
    (hgate : GateOk gate (update s.place t b)) (hword : word + (s.place t).share = s.word + b.share)
    (hread : b = .reading → s.word < WRITER - 1 ∧ ∀ u, ¬ (s.place u).InWindow)
    (hwriting : b = .writing → readers s.place = 0)
    (hawake : AwakeOk drained (update s.place t b)) :
    Inv ⟨word, gate, drained, update s.place t b⟩ :=
  ⟨hgate, h.word.move h.gate hgate hword hread hwriting, hawake⟩

theorem Inv.step (h : Inv s) (hstep : Step t s s') : Inv s' := by
  cases hstep with
  | read ht | load ht | readBlocked ht _ | retryRead ht _ _ | write ht | wake ht | tryWrite ht
  | tryLockFails ht | tryPublishFails ht hw =>
    refine h.move (h.gate.stay ?_) ?_ ?_ ?_ (h.awake.stay ?_ ?_ ?_) <;> simp [ht]
  | gateForRead ht hg | gateForWrite ht hg | tryLock ht hg =>
    refine h.move (Sole.enter (hg ▸ h.gate) ?_) ?_ ?_ ?_ (h.awake.stay ?_ ?_ ?_) <;> simp [ht]
  | ungateForRead ht | ungateForWrite ht | tryUngate ht =>
    refine h.move (h.gate.leave ?_ ?_) ?_ ?_ ?_ (h.awake.stay ?_ ?_ ?_) <;> simp [ht]
  | acquireRead ht hw hover heq =>
    subst heq
    refine h.move (h.gate.stay (by simp [ht])) (by simp [ht])
      (fun _ => ⟨hover, h.word.open_of_and hw⟩) (by simp) fun _ _ hzero => ?_
    exact absurd hzero (count_pos_of (update_mover (· = Place.reading) rfl)).ne'
  | dropRead ht hlast =>
    have hpos : 0 < readers s.place := count_pos_of ht
    have hle := h.word.readers_le
    refine h.move (h.gate.stay (by simp [ht])) (by simp [ht]; omega) (by simp) (by simp) ?_
    -- a closed lock still has a reader, or this one would have been the last
    have hcount : readers (update s.place t .idle) + 1 = readers s.place := by
      simpa [readers, ht] using count_update (p := (· = .reading)) s.place t .idle
    intro u hu hzero
    have hu := of_update (· = Place.writeWait) (by simp) hu
    have hword := h.word.closed u (by rw [hu]; trivial)
    omega
  | dropLastRead ht hlast =>
    refine h.move (h.gate.stay (by simp [ht])) (by simp [ht, hlast]) (by simp) (by simp) ?_
    intro u _ _
    exact .inr ⟨t, update_mover (· = Place.signalling) rfl⟩
  | signal ht =>
    exact h.move (h.gate.stay (by simp [ht])) (by simp [ht]) (by simp) (by simp)
      fun _ _ _ => .inl rfl
  | reset ht =>
    have hgate := h.gate.stay (i := t) (a := .writePublish) (by simp [ht])
    exact h.move hgate (by simp [ht]) (by simp) (by simp) (awakeOk_of_mover hgate trivial (by simp))
  | publish ht =>
    have hopen := not_inWindow h.gate (t := t) (by simp [ht]) (by simp [ht])
    have hgate := h.gate.stay (i := t) (a := .writeCheck) (by simp [ht])
    have hor := or_writer (h.word.opened hopen ▸ h.word.bound)
    exact h.move hgate (by simp [ht, hor, Nat.add_comm]) (by simp) (by simp)
      (awakeOk_of_mover hgate trivial (by simp))
  | drainedAlready ht hw | sleep ht hw =>
    have hword := h.word.closed t (by rw [ht]; trivial)
    refine h.move (h.gate.stay ?_) ?_ ?_ ?_ (h.awake.stay ?_ ?_ ?_) <;> simp [ht]
    omega
  | dropWrite ht =>
    have hword := h.word.closed t (by rw [ht]; trivial)
    have hzero := h.word.exclusive t ht
    have hgate := h.gate.stay (i := t) (a := .writeUngate) (by simp [ht])
    exact h.move hgate (by simp [ht]; omega) (by simp) (by simp)
      (awakeOk_of_mover hgate trivial (by simp))
  | tryPublish ht hw =>
    have hopen := not_inWindow h.gate (t := t) (by simp [ht]) (by simp [ht])
    have hgate := h.gate.stay (i := t) (a := .writing) (by simp [ht])
    exact h.move hgate (by simp [ht, hw]) (by simp) (fun _ => (h.word.opened hopen).symm.trans hw)
      (awakeOk_of_mover hgate trivial (by simp))

theorem inv_of_reachable (h : (machine ι).Reachable s) : Inv s := by
  apply h.invariant
  · intro s hs
    rw [hs]
    exact inv_new
  · rintro s s' hs ⟨t, hstep⟩
    exact hs.step hstep

structure Correct (s : State ι) : Prop where
  writers : ∀ t u, s.place t = .writing → s.place u = .writing → t = u
  exclusive : ∀ t u, s.place t = .writing → s.place u ≠ .reading
  count : s.word % WRITER = readers s.place
  writer : s.word &&& WRITER ≠ 0 ↔ ∃ t, (s.place t).InWindow
  /-- No writer is left asleep. -/
  awake : ∀ t, s.place t = .writeWait → readers s.place = 0 →
    s.drained = true ∨ ∃ u, s.place u = .signalling
  /-- The store that drops a write guard erases no reader. -/
  cleared : ∀ t, s.place t = .writing → s.word = WRITER ∧ readers s.place = 0

omit [DecidableEq ι] in
theorem correct_of_inv (h : Inv s) : Correct s where
  writers := by
    intro t u ht hu
    apply h.gate.unique
    · rw [ht]
      trivial
    · rw [hu]
      trivial
  exclusive := by
    intro t u ht hu
    have hzero := h.word.exclusive t ht
    have hpos : 0 < readers s.place := count_pos_of hu
    omega
  count := by
    have hbound := h.word.bound
    by_cases hopen : ∃ t, (s.place t).InWindow
    · obtain ⟨t, ht⟩ := hopen
      rw [h.word.closed t ht, Nat.add_mod_left, Nat.mod_eq_of_lt hbound]
    · rw [h.word.opened fun t ht => hopen ⟨t, ht⟩, Nat.mod_eq_of_lt hbound]
  writer := by
    constructor
    · intro hbit
      by_contra hopen
      rw [h.word.opened fun t ht => hopen ⟨t, ht⟩] at hbit
      exact hbit (and_writer h.word.bound)
    · rintro ⟨t, ht⟩ hbit
      exact h.word.open_of_and hbit t ht
  awake := h.awake
  cleared := by
    intro t ht
    have hzero := h.word.exclusive t ht
    have hword := h.word.closed t (by rw [ht]; trivial)
    exact ⟨by omega, hzero⟩

theorem reader_of_step (h : Inv s) (hstep : Step t s s') (hclosed : ∃ u, (s.place u).InWindow)
    {u : ι} (hu : s'.place u = .reading) : s.place u = .reading := by
  obtain ⟨v, hv⟩ := hclosed
  cases hstep with
  | acquireRead ht hw hover heq =>
    subst heq
    exact absurd hv (h.word.open_of_and hw v)
  | _ => exact of_update (· = Place.reading) (by simp) hu

/-- In every reachable state the lock is exclusive, its word is exact and its writers are awake,
and while a writer has the lock closed no step lets a reader in. -/
theorem rwlock_correct (h : (machine ι).Reachable s) :
    Correct s ∧ ∀ s', (machine ι).step s s' → (∃ t, (s.place t).InWindow) →
      ∀ u, s'.place u = .reading → s.place u = .reading := by
  have hinv := inv_of_reachable h
  refine ⟨correct_of_inv hinv, ?_⟩
  rintro s' ⟨t, hstep⟩ hclosed u hu
  exact reader_of_step hinv hstep hclosed hu

theorem rwlock_correct_example :
    ∃ s : State (Fin 2), (machine (Fin 2)).Reachable s ∧ s.place 0 = .signalling ∧
      s.place 1 = .writeWait ∧ s.word = WRITER ∧ Correct s := by
  have h : (machine (Fin 2)).Reachable .new := .init rfl
  have h := h.step ⟨0, .read rfl⟩
  have h := h.step ⟨0, .load rfl⟩
  have h := h.step ⟨0, .acquireRead rfl rfl (by decide) rfl⟩
  have h := h.step ⟨1, .write rfl⟩
  have h := h.step ⟨1, .gateForWrite rfl rfl⟩
  have h := h.step ⟨1, .reset rfl⟩
  have h := h.step ⟨1, .publish rfl⟩
  have h := h.step ⟨1, .sleep rfl (by decide)⟩
  have h := h.step ⟨0, .dropLastRead rfl (by decide)⟩
  exact ⟨_, h, rfl, rfl, by decide, (rwlock_correct h).1⟩

end Roanix.Sys.RwLock
