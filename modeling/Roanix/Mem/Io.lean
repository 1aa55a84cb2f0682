import Mathlib.Data.Option.Basic
import Roanix.Lib.Splice

/-! Transfers between user buffers and kernel memory. Which addresses cannot be pinned when a copy
reaches them is left open, so a copy may fail after any of its pages. -/
namespace Roanix.Mem.Io
open Lib (slice splice)

variable {s : IoSink} {fuel length offset : ℕ} {data source : List UInt8}

def pageSize : ℕ := 4096

def windowLength (total offset maximum : ℕ) : Option ℕ :=
  if offset ≤ total then some (min maximum (total - offset)) else none

/-- What the two wrappers share: a kernel slice, or a user range that starts at an address. -/
structure Buffer where
  bytes : List UInt8
  user : Option ℕ
  /-- The addresses at which `pin_user_page` fails. -/
  faults : ℕ → Bool

namespace Buffer

variable {b : Buffer} {maximum n offset : ℕ}

def len (b : Buffer) : ℕ := b.bytes.length

/-- `PinnedWindow::resolve` for a user range, by the length of the window. -/
def resolve (b : Buffer) (offset maximum : ℕ) : Option ℕ :=
  match b.user with
  | none => some maximum
  | some address =>
    if b.faults (address + offset) then none
    else some (min maximum (pageSize - (address + offset) % pageSize))

def window (b : Buffer) (offset maximum : ℕ) : Option ℕ :=
  match windowLength b.len offset maximum with
  | none => none
  | some 0 => some 0
  | some maximum => b.resolve offset maximum

theorem resolve_spec (h : b.resolve offset maximum = some n) :
    n ≤ maximum ∧ (maximum ≠ 0 → n ≠ 0) := by
  unfold resolve at h
  split at h
  · cases h
    exact ⟨Nat.le_refl _, id⟩
  · next address _ =>
    split_ifs at h
    cases h
    have hlt := Nat.mod_lt (address + offset) (show 0 < pageSize by decide)
    omega

/-- A window is within what was asked for and within the buffer, and is empty only if it must be. -/
theorem window_spec (h : b.window offset maximum = some n) :
    n ≤ maximum ∧ offset + n ≤ b.len ∧ (n = 0 → maximum = 0 ∨ offset = b.len) := by
  unfold window windowLength at h
  split_ifs at h with hle
  split at h
  · cases h
  · next hzero =>
    cases h
    rw [Option.some.injEq] at hzero
    omega
  · next m hzero hm =>
    rw [Option.some.injEq] at hm
    obtain ⟨hn, hpos⟩ := resolve_spec h
    omega

def Accessible (b : Buffer) : Prop :=
  ∀ address, b.user = some address → ∀ i < b.len, b.faults (address + i) = false

theorem window_eq_none (hin : offset < b.len) (h : b.window offset maximum = none) :
    ¬ b.Accessible := by
  intro haccess
  unfold window windowLength at h
  rw [if_pos (Nat.le_of_lt hin)] at h
  split at h
  · next hnone => cases hnone
  · cases h
  · unfold resolve at h
    split at h
    · cases h
    · next address haddress =>
      rw [haccess address haddress offset hin] at h
      cases h

end Buffer

abbrev IoSource := Buffer

abbrev IoSink := Buffer

/-- The loop of `load`. The fuel is the number of bytes left, since no window is empty. -/
def IoSource.loadLoop (s : IoSource) : ℕ → ℕ → ℕ → Option (List UInt8)
  | 0, _, _ => some []
  | fuel + 1, offset, length =>
    if length = 0 then some []
    else
      match s.window offset length with
      | none | some 0 => none
      | some count =>
        (loadLoop s fuel (offset + count) (length - count)).map (slice s.bytes offset count ++ ·)

def IoSource.load (s : IoSource) (offset length : ℕ) : Option (List UInt8) :=
  if offset + length ≤ s.len then s.loadLoop length offset length else none

def IoSink.copyFromSlice (s : IoSink) (offset : ℕ) (source : List UInt8) : IoSink :=
  { s with bytes := splice s.bytes offset source }

/-- The loop of `store`, and whether it reached the end. -/
def IoSink.storeLoop : ℕ → IoSink → ℕ → List UInt8 → Bool × IoSink
  | 0, s, _, _ => (true, s)
  | fuel + 1, s, offset, source =>
    if source = [] then (true, s)
    else
      match s.window offset source.length with
      | none | some 0 => (false, s)
      | some count =>
        storeLoop fuel (s.copyFromSlice offset (source.take count)) (offset + count)
          (source.drop count)

def IoSink.store (s : IoSink) (offset : ℕ) (source : List UInt8) : Bool × IoSink :=
  if offset + source.length ≤ s.len then IoSink.storeLoop source.length s offset source
  else (false, s)

theorem IoSource.loadLoop_eq {s : IoSource} (hfuel : length ≤ fuel)
    (h : s.loadLoop fuel offset length = some data) : data = slice s.bytes offset length := by
  induction fuel generalizing offset length data with
  | zero =>
    obtain rfl : length = 0 := by omega
    exact (Option.some.inj h).symm
  | succ fuel ih =>
    unfold loadLoop at h
    split_ifs at h with hzero
    · rw [hzero]
      exact (Option.some.inj h).symm
    split at h
    · cases h
    · cases h
    · next count hne hw =>
      obtain ⟨hmax, -, -⟩ := Buffer.window_spec hw
      obtain ⟨rest, hrest, rfl⟩ := Option.map_eq_some_iff.mp h
      have hpos : count ≠ 0 := fun hz => hne (by rw [hz])
      rw [ih (by omega) hrest, ← Lib.slice_append, Nat.add_sub_cancel' hmax]

theorem IoSource.load_eq {s : IoSource} (h : s.load offset length = some data) :
    data = slice s.bytes offset length ∧ offset + length ≤ s.len := by
  unfold load at h
  split_ifs at h with hfit
  exact ⟨loadLoop_eq (Nat.le_refl _) h, hfit⟩

theorem IoSink.len_copyFromSlice (h : offset + source.length ≤ s.len) :
    (s.copyFromSlice offset source).len = s.len :=
  Lib.length_splice h

theorem IoSink.accessible_copyFromSlice (h : offset + source.length ≤ s.len) :
    (s.copyFromSlice offset source).Accessible ↔ s.Accessible := by
  unfold Buffer.Accessible
  rw [len_copyFromSlice h]
  rfl

theorem IoSink.copyFromSlice_nil (s : IoSink) (offset : ℕ) : s.copyFromSlice offset [] = s := by
  unfold copyFromSlice
  rw [Lib.splice_nil]

theorem IoSink.copyFromSlice_append {a b : List UInt8} (h : offset + (a ++ b).length ≤ s.len) :
    (s.copyFromSlice offset a).copyFromSlice (offset + a.length) b =
      s.copyFromSlice offset (a ++ b) := by
  simp only [copyFromSlice, Lib.splice_splice h]

/-- However a copy ends, what it stored is the start of the source, and all of it if it succeeds. -/
theorem IoSink.storeLoop_spec (hfuel : source.length ≤ fuel) (hfit : offset + source.length ≤ s.len) :
    ∃ k ≤ source.length,
      (storeLoop fuel s offset source).2 = s.copyFromSlice offset (source.take k) ∧
        ((storeLoop fuel s offset source).1 = true → k = source.length) := by
  have hnone : s = s.copyFromSlice offset (source.take 0) := (s.copyFromSlice_nil offset).symm
  induction fuel generalizing s offset source with
  | zero =>
    exact ⟨0, Nat.zero_le _, hnone, fun _ => by omega⟩
  | succ fuel ih =>
    unfold storeLoop
    split_ifs with hempty
    · exact ⟨0, Nat.zero_le _, hnone, fun _ => by rw [hempty, List.length_nil]⟩
    split
    · exact ⟨0, Nat.zero_le _, hnone, fun h => by cases h⟩
    · exact ⟨0, Nat.zero_le _, hnone, fun h => by cases h⟩
    · next count hne hw =>
      obtain ⟨hmax, -, -⟩ := Buffer.window_spec hw
      have hpos : count ≠ 0 := fun hz => hne (by rw [hz])
      have htake : (source.take count).length = count := List.length_take_of_le hmax
      have hdrop : (source.drop count).length = source.length - count := List.length_drop
      have hlen : (s.copyFromSlice offset (source.take count)).len = s.len :=
        len_copyFromSlice (by omega)
      obtain ⟨k, hk, hstored, hall⟩ := @ih (s.copyFromSlice offset (source.take count)) (offset + count)
        (source.drop count) (by omega) (by omega) (copyFromSlice_nil _ _).symm
      refine ⟨count + k, by omega, ?_, fun h => ?_⟩
      · rw [hstored, List.take_add]
        have hl : offset + (source.take count ++ (source.drop count).take k).length ≤ s.len := by
          rw [← List.take_add, List.length_take]
          omega
        have happend := copyFromSlice_append hl
        rwa [htake] at happend
      · have := hall h
        omega

theorem IoSink.store_spec (s : IoSink) (offset : ℕ) (source : List UInt8) :
    ∃ k ≤ source.length, (s.store offset source).2 = s.copyFromSlice offset (source.take k) ∧
      ((s.store offset source).1 = true → k = source.length ∧ offset + source.length ≤ s.len) := by
  unfold store
  split_ifs with hfit
  · obtain ⟨k, hk, hstored, hall⟩ := storeLoop_spec (Nat.le_refl _) hfit
    exact ⟨k, hk, hstored, fun h => ⟨hall h, hfit⟩⟩
  · exact ⟨0, Nat.zero_le _, (s.copyFromSlice_nil offset).symm, fun h => by cases h⟩

theorem IoSink.store_eq {s' : IoSink} (h : s.store offset source = (true, s')) :
    s' = s.copyFromSlice offset source ∧ offset + source.length ≤ s.len := by
  obtain ⟨k, -, hstored, hall⟩ := s.store_spec offset source
  rw [h] at hstored hall
  obtain ⟨rfl, hfit⟩ := hall rfl
  rw [List.take_length] at hstored
  exact ⟨hstored, hfit⟩

end Roanix.Mem.Io
