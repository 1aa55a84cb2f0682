import Mathlib.Data.UInt

/-! Cells with a length, as their history tells them: what was last written at a place since that
place was last beyond the end, or zero. -/
namespace Roanix.Lib.File
variable {α : Type}

inductive Event (α : Type) where
  | write (offset : ℕ) (data : List α)
  | poke (offset : ℕ) (data : List α)
  | resize (length : ℕ)
deriving DecidableEq, Repr

namespace Event

/-- The cell that an event puts at a place. -/
def stored : Event α → ℕ → Option α
  | .write offset data, i => if offset ≤ i then data[i - offset]? else none
  | .poke offset data, i => if offset ≤ i then data[i - offset]? else none
  | .resize _, _ => none

/-- The length after an event; writing nothing does not extend. -/
def length (before : ℕ) : Event α → ℕ
  | .write offset data => if data = [] then before else max before (offset + data.length)
  | .poke _ _ => before
  | .resize n => n

theorem stored_write_of_lt {offset i : ℕ} (data : List α) (h : i < offset) :
    (write offset data).stored i = none := by
  simp only [stored, if_neg (show ¬ offset ≤ i by omega)]

theorem stored_write_of_ge {offset i : ℕ} (data : List α) (h : offset + data.length ≤ i) :
    (write offset data).stored i = none := by
  simp only [stored, if_pos (show offset ≤ i by omega)]
  exact List.getElem?_eq_none (by omega)

theorem le_length_write (before offset : ℕ) (data : List α) :
    before ≤ (write offset data).length before := by
  simp only [length]
  split_ifs <;> omega

theorem end_le_length_write (before offset : ℕ) {data : List α} (h : data ≠ []) :
    offset + data.length ≤ (write offset data).length before := by
  simp only [length, if_neg h]
  omega

/-- The cells after an event; what was beyond the end comes into sight as zero. -/
def cell [Zero α] (before : ℕ) (cells : ℕ → α) (e : Event α) (i : ℕ) : α :=
  match e.stored i with
  | some a => a
  | none => if before ≤ i then 0 else cells i

end Event

def lengthOf : List (Event α) → ℕ
  | [] => 0
  | e :: rest => e.length (lengthOf rest)

variable [Zero α]

def visible : List (Event α) → ℕ → α
  | [], _ => 0
  | e :: rest, i => e.cell (lengthOf rest) (visible rest) i

/-- One event takes the cells and the length to new ones. -/
structure Follows (e : Event α) (before : ℕ) (cells : ℕ → α) (after : ℕ) (cells' : ℕ → α) :
    Prop where
  length : after = e.length before
  cell : ∀ i < after, cells' i = e.cell before cells i

/-- Cells and length are what a history tells. -/
structure Shows (extent : ℕ) (cells : ℕ → α) (history : List (Event α)) : Prop where
  length : extent = lengthOf history
  cell : ∀ i < extent, cells i = visible history i

variable {e : Event α} {before middle after : ℕ} {cells cells' cells'' : ℕ → α}
  {history : List (Event α)}

theorem Shows.step (h : Shows before cells history) (hf : Follows e before cells after cells') :
    Shows after cells' (e :: history) := by
  constructor
  · rw [hf.length, h.length]
    rfl
  · intro i hi
    rw [hf.cell i hi]
    unfold visible Event.cell
    cases e.stored i with
    | some a => rfl
    | none =>
      simp only [← h.length]
      split_ifs with hle
      · rfl
      · exact h.cell i (by omega)

theorem Shows.same (h : Shows before cells history) (hc : ∀ i < before, cells' i = cells i) :
    Shows before cells' history :=
  ⟨h.length, fun i hi => (hc i hi).trans (h.cell i hi)⟩

theorem follows_write_nil (offset : ℕ) (h : ∀ i < before, cells' i = cells i) :
    Follows (.write offset []) before cells before cells' := by
  constructor
  · rfl
  · intro i hi
    rw [h i hi]
    unfold Event.cell
    rw [show (Event.write offset ([] : List α)).stored i = none by simp [Event.stored]]
    exact (if_neg (by omega)).symm

theorem Follows.write_append {offset : ℕ} {data more : List α}
    (h : Follows (.write offset data) before cells middle cells')
    (h' : Follows (.write (offset + data.length) more) middle cells' after cells'') :
    Follows (.write offset (data ++ more)) before cells after cells'' := by
  have hlen : after = (Event.write offset (data ++ more)).length before := by
    rw [h'.length, h.length]
    unfold Event.length
    by_cases hdata : data = [] <;> by_cases hmore : more = [] <;> simp [hdata, hmore]
    omega
  have hbefore : before ≤ middle := by
    rw [h.length]
    exact Event.le_length_write before offset data
  refine ⟨hlen, ?_⟩
  intro i hi
  rw [h'.cell i hi]
  unfold Event.cell
  by_cases hlo : i < offset + data.length
  · -- the second write leaves the first one alone
    rw [Event.stored_write_of_lt more hlo]
    have hsame : (Event.write offset (data ++ more)).stored i =
        (Event.write offset data).stored i := by
      simp only [Event.stored]
      split_ifs with hle
      · exact List.getElem?_append_left (by omega)
      · rfl
    rw [hsame]
    by_cases hmid : middle ≤ i
    · -- then the first write was empty and ends no later
      obtain rfl : data = [] := by
        by_contra hne
        have := Event.end_le_length_write before offset hne
        rw [← h.length] at this
        omega
      have hnone : (Event.write offset ([] : List α)).stored i = none := by simp [Event.stored]
      simp only [hnone, if_pos hmid, if_pos (Nat.le_trans hbefore hmid)]
    · simp only [if_neg hmid]
      rw [h.cell i (by omega)]
      rfl
  · have hstored : (Event.write offset (data ++ more)).stored i =
        (Event.write (offset + data.length) more).stored i := by
      simp only [Event.stored, if_pos (show offset ≤ i by omega),
        if_pos (show offset + data.length ≤ i by omega)]
      rw [List.getElem?_append_right (by omega)]
      congr 1
      omega
    rw [hstored]
    cases hmore : (Event.write (offset + data.length) more).stored i with
    | some a => rfl
    | none =>
      by_cases hmid : middle ≤ i
      · simp only [if_pos hmid, if_pos (Nat.le_trans hbefore hmid)]
      · simp only [if_neg hmid]
        rw [h.cell i (by omega)]
        unfold Event.cell
        rw [Event.stored_write_of_ge data (by omega)]

end Roanix.Lib.File
