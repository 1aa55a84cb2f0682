import Mathlib.Order.Interval.Finset.Nat
import Roanix.Dev.Tty.Input
import Roanix.Lib.Machine

/-! Flushing the echo queue (`flush_echo`). Calls of it exclude each other by the output lock, but
not the input side, which adds to the queue and clears it while a batch is being written. Bytes are
numbered in the order in which they were queued: they leave the queue at its front, so that it holds
the numbers from `first` up to `next`. -/
namespace Roanix.Dev.Tty.Echo
open Lib

def outputBatchSize : ℕ := 512

/-- Where the flush with the output lock is, with the start and the length of its batch. -/
inductive Flush where
  | idle
  | write (start count : ℕ)
  | pop (start count : ℕ)

structure State where
  first : ℕ
  next : ℕ
  flush : Flush
  /-- What successful writes were given; what flushes took off the queue; what else left it. -/
  written : List ℕ
  removed : Finset ℕ
  discarded : Finset ℕ

namespace State

def queueEcho (s : State) (count : ℕ) : State :=
  let first := min (s.first + (s.next - s.first + count - echoCapacity)) s.next
  { s with
    first := first
    next := s.next + count
    discarded := s.discarded ∪ .Ico s.first first }

def clear (s : State) : State :=
  { s with first := s.next, discarded := s.discarded ∪ .Ico s.first s.next }

def popFront (s : State) (count : ℕ) : State :=
  let first := min (s.first + count) s.next
  { s with
    first := first
    flush := .idle
    removed := s.removed ∪ .Ico s.first first }

end State

/-- Bytes are discarded only from states where it is permitted. -/
inductive Step (permitted : State → Prop) (s : State) : State → Prop
  | queue (count : ℕ) (h : s.next - s.first + count ≤ echoCapacity ∨ permitted s) :
      Step permitted s (s.queueEcho count)
  | clear (h : permitted s) : Step permitted s s.clear
  | copy (h : s.flush = .idle) (hne : s.first < s.next) : Step permitted s
      { s with flush := .write s.first (min outputBatchSize (s.next - s.first)) }
  /-- The backend would block, and is offered half of the batch. -/
  | halve {start count : ℕ} (h : s.flush = .write start count) (hcount : 1 < count) :
      Step permitted s { s with flush := .write start (count / 2) }
  | refuse {start count : ℕ} (h : s.flush = .write start count) :
      Step permitted s { s with flush := .idle }
  | accept {start count : ℕ} (h : s.flush = .write start count) : Step permitted s
      { s with flush := .pop start count, written := s.written ++ .range' start count }
  | pop {start count : ℕ} (h : s.flush = .pop start count) : Step permitted s (s.popFront count)

def machine (permitted : State → Prop) : Machine State where
  init s := s = ⟨0, 0, .idle, [], ∅, ∅⟩
  step s s' := Step permitted s s'

@[simp] def Flush.Fits (first next : ℕ) : Flush → Prop
  | .idle => True
  | .write start count | .pop start count => start = first ∧ first + count ≤ next

@[simp] def Flush.pending : Flush → ℕ
  | .pop _ count => count
  | _ => 0

structure Inv (s : State) : Prop where
  le : s.first ≤ s.next
  flush : s.flush.Fits s.first s.next
  sorted : s.written.Pairwise (· < ·)
  written : ∀ n, n ∈ s.written ↔ n ∈ s.removed ∨ s.first ≤ n ∧ n < s.first + s.flush.pending
  off : ∀ n, n < s.first ↔ n ∈ s.removed ∨ n ∈ s.discarded
  once : ∀ n ∈ s.removed, n ∉ s.discarded

variable {s s' : State}

theorem Inv.discard (h : Inv s) {first next : ℕ} (hfirst : s.first ≤ first ∧ first ≤ s.next)
    (hnext : s.next ≤ next) (hidle : first = s.first ∨ s.flush = .idle) :
    Inv { s with first, next, discarded := s.discarded ∪ .Ico s.first first } := by
  refine ⟨hfirst.2.trans hnext, ?_, h.sorted, fun n => ?_, fun n => ?_, fun n => ?_⟩
  · have := h.flush
    obtain rfl | hidle := hidle
    · cases hf : s.flush <;> simp_all <;> omega
    · simp [hidle]
  · have := h.written n
    obtain rfl | hidle := hidle
    · exact this
    · grind [Flush.pending]
  · grind [h.off n]
  · grind [h.off n, h.once n]

theorem Inv.step (h : Inv s) (hs : Step (fun s => s.flush = .idle) s s') : Inv s' := by
  have hle := h.le
  have hf := h.flush
  have hw := h.written
  cases hs with
  | queue count hp =>
    refine h.discard ⟨by omega, Nat.min_le_right _ _⟩ (Nat.le_add_right _ _) (hp.imp_left ?_)
    omega
  | clear hp => exact h.discard ⟨h.le, le_rfl⟩ le_rfl (.inr hp)
  | copy hp hne =>
    rw [hp] at hw
    refine { h with flush := ⟨rfl, ?_⟩, written := hw }
    change s.first + min _ _ ≤ s.next
    omega
  | halve hp hcount =>
    rw [hp] at hf hw
    refine { h with flush := ⟨hf.1, ?_⟩, written := hw }
    have := hf.2
    change s.first + _ ≤ s.next
    omega
  | refuse hp =>
    rw [hp] at hw
    exact { h with flush := trivial, written := hw }
  | @accept start count hp =>
    rw [hp] at hf hw
    obtain ⟨rfl, hfits⟩ := hf
    refine { h with flush := ⟨rfl, hfits⟩, sorted := ?_, written := fun n => ?_ }
    · refine List.pairwise_append.mpr ⟨h.sorted, List.pairwise_lt_range' 1, fun a ha b hb => ?_⟩
      have := List.mem_range'_1.mp hb
      grind [h.off a, Flush.pending]
    · grind [Flush.pending]
  | @pop start count hp =>
    rw [hp] at hf hw
    obtain ⟨rfl, hfits⟩ := hf
    unfold State.popFront
    rw [Nat.min_eq_left hfits]
    refine ⟨hfits, trivial, h.sorted, fun n => ?_, fun n => ?_, fun n => ?_⟩
    · grind [Flush.pending]
    · grind [h.off n]
    · grind [h.off n, h.once n]

theorem inv_of_reachable (h : (machine fun s => s.flush = .idle).Reachable s) : Inv s := by
  refine h.invariant ?_ fun _ _ hs hstep => hs.step hstep
  rintro _ rfl
  exact ⟨le_rfl, trivial, .nil, by simp, by simp, by simp⟩

/-- Writes are in the order of the queue and without repetition; what a flush removes was written,
and what was written is removed; the rest is queued or was discarded. -/
theorem echo_is_written_once (h : (machine fun s => s.flush = .idle).Reachable s) :
    s.written.Pairwise (· < ·) ∧ (∀ n ∈ s.removed, n ∈ s.written ∧ n < s.first) ∧
    (∀ n ∈ s.discarded, n ∉ s.written ∧ n < s.first) ∧
    (∀ n < s.next, s.first ≤ n ∨ n ∈ s.removed ∨ n ∈ s.discarded) ∧
    (s.flush = .idle → ∀ n ∈ s.written, n ∈ s.removed) := by
  have hinv := inv_of_reachable h
  refine ⟨hinv.sorted, fun n hn => ⟨(hinv.written n).mpr (.inl hn), (hinv.off n).mpr (.inl hn)⟩,
    fun n hn => ?_, fun n hn => ?_, fun hidle n hn => ?_⟩
  · grind [hinv.off n, hinv.written n, hinv.once n]
  · grind [hinv.off n]
  · have := (hinv.written n).mp hn
    rw [hidle] at this
    exact this.resolve_right (by simp)

theorem echo_is_written_once_example : ∃ s, (machine fun s => s.flush = .idle).Reachable s ∧
    0 ∈ s.removed ∧ 0 ∈ s.written :=
  have h₀ : (machine fun s => s.flush = .idle).Reachable ⟨0, 0, .idle, [], ∅, ∅⟩ := .init rfl
  have h₁ := h₀.step (.queue 1 (.inl (by decide)))
  have h₂ := h₁.step (.copy rfl (by decide))
  have h₃ := h₂.step (.accept rfl)
  have h₄ := h₃.step (.pop rfl)
  ⟨_, h₄, by decide, ((echo_is_written_once h₄).2.1 0 (by decide)).1⟩

/-- The queue is cleared during a write, and the next byte is taken for the one written. -/
theorem flush_removes_unwritten :
    ∃ s, (machine fun _ => True).Reachable s ∧ ∃ n ∈ s.removed, n ∉ s.written :=
  have h₀ : (machine fun _ => True).Reachable ⟨0, 0, .idle, [], ∅, ∅⟩ := .init rfl
  have h₁ := h₀.step (.queue 1 (.inr trivial))
  have h₂ := h₁.step (.copy rfl (by decide))
  have h₃ := h₂.step (.accept rfl)
  have h₄ := h₃.step (.clear trivial)
  have h₅ := h₄.step (.queue 1 (.inr trivial))
  have h₆ := h₅.step (.pop rfl)
  ⟨_, h₆, 1, by decide, by decide⟩

end Roanix.Dev.Tty.Echo
