import Roanix.Mem.Addr

/-! The memory windows of PCI functions: registers that firmware left unassigned are given space from
the window of the bridge while the functions are scanned. -/
namespace Roanix.Driver.Pci
open Mem

/-- `QEMU_VIRT_MMIO_START` and `QEMU_VIRT_MMIO_END`; other targets have no such window. -/
structure Window where
  start : ℕ
  stop : ℕ
  riscv : Bool

/-- What `probe_bar` reads: a base address register and the one above it, as they are and after all
ones were written. -/
structure Register where
  low : BitVec 32
  high : BitVec 32
  lowMask : BitVec 32
  highMask : BitVec 32
  deriving DecidableEq

structure Bar where
  base : ℕ
  size : ℕ
  deriving DecidableEq

def Bar.stop (b : Bar) : ℕ := b.base + b.size

def Bar.Apart (a b : Bar) : Prop := a.stop ≤ b.base ∨ b.stop ≤ a.base

namespace Register

def wide (r : Register) : Bool := r.low &&& 6 == 4

def base (r : Register) : ℕ :=
  (r.low &&& ~~~15).toNat + if r.wide then r.high.toNat * 2 ^ 32 else 0

def size (r : Register) : ℕ :=
  let high := if r.wide then r.highMask.toNat else 2 ^ 32 - 1
  (2 ^ 64 - ((r.lowMask &&& ~~~15).toNat + high * 2 ^ 32)) % 2 ^ 64

end Register

/-- The start of the range, and `next_mmio` after it. -/
def allocateMmio (w : Window) (next size : ℕ) : Option (ℕ × ℕ) :=
  if w.riscv ∧ IsPowerOfTwo size then do
    let sum ← checkedAdd next (size - 1)
    let start := alignDown sum size
    let stop ← checkedAdd start size
    if w.stop < stop then none else return (start, stop)
  else none

/-- `next_mmio` after a range that firmware assigned. -/
def advance (w : Window) (next : ℕ) (bar : Bar) : ℕ :=
  if w.riscv ∧ w.start ≤ bar.base ∧ bar.base < w.stop then max next (min bar.stop u64Max) else next

def probeBar (w : Window) (next : ℕ) (r : Register) : Option (Bar × ℕ) :=
  if r.low &&& 1 ≠ 0 ∨ ¬ IsPowerOfTwo r.size then none
  else if r.base = 0 then
    (allocateMmio w next r.size).map fun (start, stop) => (⟨start, r.size⟩, stop)
  else some (⟨r.base, r.size⟩, advance w next ⟨r.base, r.size⟩)

/-- The loop of `publish_function`, which skips the upper half of a wide register. -/
def probeBars (w : Window) (skip : Bool) (next : ℕ) : List Register → List (Register × Bar) × ℕ
  | [] => ([], next)
  | r :: rest =>
    if skip then probeBars w false next rest
    else match probeBar w next r with
      | none => probeBars w false next rest
      | some (bar, next) =>
        let (bars, next) := probeBars w r.wide next rest
        ((r, bar) :: bars, next)

/-- A function that the scan finds; an error of its device builder ends the scan. -/
structure Function where
  registers : List Register
  publishes : Bool

/-- The registers published, with their ranges, in scan order. -/
def enumerate (w : Window) (next : ℕ) : List Function → List (Register × Bar)
  | [] => []
  | f :: rest =>
    let (bars, next) := probeBars w false next f.registers
    if f.publishes then bars ++ enumerate w next rest else []

/-- One register after another, each with the cursor before it. -/
inductive Scan (w : Window) : ℕ → List (Register × Bar) → Prop
  | nil {next : ℕ} : Scan w next []
  | cons {next next' : ℕ} {r : Register} {bar : Bar} {l : List (Register × Bar)}
      (hbar : probeBar w next r = some (bar, next')) (h : Scan w next' l) :
      Scan w next ((r, bar) :: l)

variable {w : Window} {next next' size : ℕ} {r : Register} {bar : Bar} {l : List (Register × Bar)}

theorem scan_probeBars {rs : List Register} {skip : Bool}
    (h : Scan w (probeBars w skip next rs).2 l) :
    Scan w next ((probeBars w skip next rs).1 ++ l) := by
  induction rs generalizing skip next with
  | nil => exact h
  | cons r rs ih =>
    unfold probeBars at h ⊢
    split_ifs at h ⊢ with hskip
    · exact ih h
    · cases hbar : probeBar w next r with
      | none =>
        rw [hbar] at h
        exact ih h
      | some result =>
        rw [hbar] at h
        exact .cons hbar (ih h)

theorem scan_enumerate {fs : List Function} : Scan w next (enumerate w next fs) := by
  induction fs generalizing next with
  | nil => exact .nil
  | cons f fs ih =>
    unfold enumerate
    dsimp only
    split_ifs
    · exact scan_probeBars ih
    · exact .nil

structure Taken (w : Window) (bar : Bar) : Prop where
  riscv : w.riscv
  pos : 0 < bar.size
  aligned : bar.size ∣ bar.base
  stop_le : bar.stop ≤ w.stop
  stop_lt : bar.stop < 2 ^ 64

theorem allocateMmio_spec {start stop : ℕ} (h : allocateMmio w next size = some (start, stop)) :
    Taken w ⟨start, size⟩ ∧ next ≤ start ∧ stop = start + size := by
  unfold allocateMmio at h
  split_ifs at h with hpow
  obtain ⟨sum, hsum, h⟩ := Option.bind_eq_some_iff.mp h
  obtain ⟨stop', hstop, h⟩ := Option.bind_eq_some_iff.mp h
  split_ifs at h with hout
  cases h
  obtain ⟨rfl, hlt⟩ := checkedAdd_eq_some.mp hsum
  obtain ⟨rfl, hlt'⟩ := checkedAdd_eq_some.mp hstop
  obtain ⟨hdvd, hle, -⟩ := alignUp_spec hpow.2 (by omega) hlt
  exact ⟨⟨hpow.1, hpow.2.pos, hdvd, Nat.le_of_not_lt hout, hlt'⟩, hle, rfl⟩

theorem le_advance : next ≤ advance w next bar := by
  unfold advance
  split_ifs
  · exact le_max_left _ _
  · exact le_rfl

theorem probeBar_spec (h : probeBar w next r = some (bar, next')) :
    next ≤ next' ∧ (r.base = 0 → Taken w bar ∧ next ≤ bar.base ∧ next' = bar.stop) ∧
      (r.base ≠ 0 → bar = ⟨r.base, r.size⟩ ∧ next' = advance w next bar) := by
  unfold probeBar at h
  split_ifs at h with hskip hzero
  · obtain ⟨⟨start, stop⟩, halloc, heq⟩ := Option.map_eq_some_iff.mp h
    cases heq
    obtain ⟨htaken, hle, rfl⟩ := allocateMmio_spec halloc
    exact ⟨by omega, fun _ => ⟨htaken, hle, rfl⟩, fun hne => absurd hzero hne⟩
  · cases h
    exact ⟨le_advance, fun hz => absurd hz hzero, fun _ => ⟨rfl, rfl⟩⟩

theorem Scan.taken (h : Scan w next l) {p : Register × Bar} (hp : p ∈ l) (hzero : p.1.base = 0) :
    Taken w p.2 ∧ next ≤ p.2.base := by
  induction h with
  | nil => cases hp
  | cons hbar _ ih =>
    obtain ⟨hle, halloc, -⟩ := probeBar_spec hbar
    rcases List.mem_cons.mp hp with rfl | hp
    · exact ⟨(halloc hzero).1, (halloc hzero).2.1⟩
    · exact ⟨(ih hp).1, hle.trans (ih hp).2⟩

/-- Where the ranges of firmware meet the window they are found before any that is taken from it, and
none of them reaches into it from below. -/
structure Early (w : Window) (l : List (Register × Bar)) : Prop where
  order : l.Pairwise fun p q => p.1.base = 0 → q.1.base ≠ 0 →
    q.2.stop ≤ w.start ∨ w.stop ≤ q.2.base
  below : ∀ p ∈ l, p.1.base ≠ 0 → p.2.base < w.start → p.2.stop ≤ w.start

def qemuVirt : Window := ⟨0x40000000, 0x80000000, true⟩

def register (base : BitVec 32) : Register := ⟨base, 0, 0xfffff000, 0⟩

end Roanix.Driver.Pci
