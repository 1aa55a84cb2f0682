import Roanix.Dev.Tty.Process
import Roanix.Lib.Machine

/-! Runs of a terminal: chunks of input, reads in either mode, changes of the settings at any time,
flushes, and what the output side does to the same state. -/
namespace Roanix.Dev.Tty
open Lib

variable {s : TtyState}

inductive Op where
  | input (chunk : List UInt8)
  | readCanonical (room : ℕ) (nonblocking : Bool)
  | readRaw (length before minimum : ℕ) (timeout nonblocking : Bool)
  | applyTermios (termios : Termios)
  | flushInput
  | flushEcho (count : ℕ)
  | clearEcho
  | stopOutput (stopped : Bool)
  | hangUp (hungUp : Bool)
  | reset (code : UInt32)

def Op.run : Op → TtyState → TtyState
  | .input chunk, s => (processInput chunk s).state
  | .readCanonical room nonblocking, s => (Tty.readCanonical room nonblocking s).2
  | .readRaw length before minimum timeout nonblocking, s =>
    (Tty.readRaw length before minimum timeout nonblocking s).2
  | .applyTermios t, s => Tty.applyTermios t s
  | .flushInput, s => Tty.flushInput s
  | .flushEcho count, s => { s with echo := s.echo.drop count }
  | .clearEcho, s => { s with echo := [] }
  | .stopOutput stopped, s => { s with outputStopped := stopped }
  | .hangUp hungUp, s => { s with hungUp := hungUp }
  | .reset code, _ => .new code

def Meets (s : TtyState) : Op → Prop
  | .input chunk => plainInput s = false → MeetsInput chunk ⟨s, 0, false⟩
  | _ => True

def machine : Machine TtyState where
  init s := ∃ code, s = .new code
  step s s' := ∃ op : Op, s' = op.run s

def boundedMachine : Machine TtyState where
  init s := ∃ code, s = .new code
  step s s' := ∃ op, Meets s op ∧ s' = op.run s

theorem Ok.new (code : UInt32) : Ok (.new code) := ⟨rfl, Nat.zero_le _, le_rfl⟩

theorem Ok.run (hs : Ok s) (op : Op) (hm : Meets s op) : Ok (op.run s) := by
  cases op with
  | input chunk => exact hs.processInput hm
  | readCanonical room nonblocking => exact hs.readCanonical room nonblocking
  | readRaw length before minimum timeout nonblocking => exact hs.readRaw _ _ _ _ _
  | applyTermios t => exact hs.applyTermios t
  | flushInput => exact (Ok.clear s).of_same ⟨rfl, rfl, rfl⟩
  | flushEcho count | clearEcho | stopOutput stopped | hangUp hungUp =>
    exact hs.of_same ⟨rfl, rfl, rfl⟩
  | reset code => exact .new code

theorem Ok.of_reachable (hs : boundedMachine.Reachable s) : Ok s := by
  refine hs.invariant ?_ ?_
  · rintro _ ⟨code, rfl⟩
    exact .new code
  · rintro s _ hok ⟨op, hm, rfl⟩
    exact hok.run op hm

/-- In every run whose erases find a delimited available part, bytes are counted, the limits hold, and
no such erase touches what readers may already take. -/
theorem input_queue_invariant {s : TtyState} (hs : boundedMachine.Reachable s) :
    s.inputBytes = s.input.countP InputItem.isByte ∧
    s.input.length ≤ inputCapacity ∧
    s.canonicalReady ≤ s.input.length ∧
    ∀ byte, erasing byte ⟨s, 0, false⟩ → Delimited s.termios s →
      s.input.take s.canonicalReady <+: (processInputByte byte ⟨s, 0, false⟩).state.input := by
  have hok := Ok.of_reachable hs
  refine ⟨hok.bytes, hok.capacity, hok.ready, ?_⟩
  intro byte herase hd
  obtain ⟨b, e, q, herases, hsame, heq⟩ := erasing_spec herase
  obtain ⟨n, rest, herased, hleft⟩ := edit_erased s.termios b herases q
  have hle := herased.ready_le (hd.of_same hsame)
  obtain ⟨removed, hinput, -, -⟩ := herased
  rw [hsame.input] at hinput
  rw [hsame.canonicalReady] at hle
  rw [heq, hleft.input, hinput, List.take_append_of_le_length hle]
  exact List.take_prefix _ _

theorem input_queue_invariant_example : ∃ s, boundedMachine.Reachable s ∧
    s.input = [.byte 97, .byte 10] ∧ s.canonicalReady = 2 ∧
    s.inputBytes = s.input.countP InputItem.isByte := by
  have hrun : boundedMachine.Reachable _ :=
    .step (.init ⟨b9600, rfl⟩) ⟨.input [97, 98, 0x7f, 10], fun _ => by decide, rfl⟩
  exact ⟨_, hrun, rfl, rfl, (input_queue_invariant hrun).1⟩

def rawTermios : Termios := { Termios.default with inputFlags := 0, localFlags := 0 }

theorem currentLineStart_replicate (t : Termios) {item : InputItem} (h : isDelimiter t item = false)
    (n : ℕ) : currentLineStart t (List.replicate n item) = 0 := by
  rw [currentLineStart, List.length_eq_zero_iff, List.rdropWhile_eq_nil_iff]
  intro item' hitem
  rw [(List.mem_replicate.mp hitem).2, h]
  rfl

theorem eraseLastCharacter_concat (t : Termios) (byte : UInt8) (input : List InputItem)
    (hd : isDelimiter t (.byte byte) = false) (hu : has t.inputFlags iutf8 = false) :
    (eraseLastCharacter t (input ++ [.byte byte])).1 = 1 ∧
      (eraseLastCharacter t (input ++ [.byte byte])).2.2 = input := by
  have hrev : (input ++ [InputItem.byte byte]).reverse = .byte byte :: input.reverse := by
    rw [List.reverse_append, List.reverse_singleton, List.singleton_append]
  unfold eraseLastCharacter
  rw [hrev]
  simp only [hd, hu, Bool.false_and, Bool.false_eq_true, if_false, List.reverse_reverse, and_self]

def letters (n : ℕ) : TtyState :=
  { TtyState.new b9600 with
    termios := Termios.default
    input := List.replicate n (.byte 97)
    inputBytes := n }

theorem letters_reachable {n : ℕ} (hn : n ≤ inputCapacity) : machine.Reachable (letters n) := by
  have hraw : machine.Reachable (applyTermios rawTermios (.new b9600)) :=
    .step (.init ⟨b9600, rfl⟩) ⟨.applyTermios rawTermios, rfl⟩
  have hfill : (processInput (List.replicate n 97) (applyTermios rawTermios (.new b9600))).state =
      { TtyState.new b9600 with
        termios := rawTermios
        input := List.replicate n (.byte 97)
        inputBytes := n
        canonicalReady := n } := by
    have htake : (List.replicate n (97 : UInt8)).take inputCapacity = List.replicate n 97 :=
      List.take_of_length_le (by rwa [List.length_replicate])
    have hplain : plainInput (applyTermios rawTermios (.new b9600)) = true := by decide
    rw [processInput, if_pos hplain]
    simp only [applyTermios, recalculateCanonicalReady, TtyState.new, List.length_nil, Nat.sub_zero,
      htake, List.map_replicate, List.nil_append, List.length_replicate, Nat.zero_add]
  have hfilled := Machine.Reachable.step hraw ⟨.input (List.replicate n 97), rfl⟩
  have hcanonical := Machine.Reachable.step hfilled ⟨.applyTermios Termios.default, rfl⟩
  have hletters : applyTermios Termios.default
      (processInput (List.replicate n 97) (applyTermios rawTermios (.new b9600))).state =
      letters n := by
    have hmode : has Termios.default.localFlags icanon = true := by decide
    have hstart := currentLineStart_replicate Termios.default
      (show isDelimiter Termios.default (.byte 97) = false from by decide) n
    rw [hfill]
    simp only [applyTermios, recalculateCanonicalReady, hmode, hstart]
    rfl
  exact hletters ▸ hcanonical

theorem processInput_accept {byte : UInt8} (ht : s.termios = Termios.default)
    (htranslate : translate Termios.default byte = some byte)
    (hspecial : special Termios.default byte ⟨s, 0, false⟩ = (some byte, ⟨s, 0, false⟩)) :
    (processInput [byte] s).state = accept Termios.default byte s := by
  have hplain : plainInput s = false := by
    have hlocal : has Termios.default.localFlags (isig ||| icanon ||| echo ||| echonl ||| iexten) =
      true := by decide
    rw [plainInput, ht, hlocal, Bool.not_true, Bool.and_false, Bool.false_and]
  rw [processInput, hplain, if_neg (by decide), List.foldl_cons, List.foldl_nil, processInputByte]
  rw [ht, htranslate]
  dsimp only
  rw [hspecial]

def fullLine (n : ℕ) (echo : List UInt8) : TtyState :=
  { letters n with
    input := (letters n).input ++ [.byte 97]
    inputBytes := n + 1
    canonicalReady := n + 1
    echo := echo }

theorem processInput_letters {n : ℕ} (hn : n + 1 = inputCapacity) :
    ∃ echo, (processInput [97] (letters n)).state = fullLine n echo := by
  have hlen : (letters n).input.length = n := List.length_replicate
  have henqueue : enqueue (.byte 97) (letters n) = fullLine n [] := by
    rw [enqueue, if_neg (by omega)]
    dsimp only [pushInput]
    rw [List.length_append, hlen, if_pos (by simp [hn])]
    rfl
  have hecho : has Termios.default.localFlags echo = true := by decide
  obtain ⟨shown, hshown⟩ := echoInput_echo Termios.default 97 (fullLine n [])
  rw [processInput_accept rfl (by decide) rfl, accept, henqueue]
  rw [hecho, Bool.true_or, if_pos rfl, hshown]
  exact ⟨shown, rfl⟩

theorem processInput_fullLine (n : ℕ) (shown : List UInt8) :
    (processInput [0x7f] (fullLine n shown)).state.input.length = n ∧
      (processInput [0x7f] (fullLine n shown)).state.canonicalReady = n + 1 := by
  have hedit : (processInput [0x7f] (fullLine n shown)).state =
      edit Termios.default 0x7f .erase (fullLine n shown) := by
    have herase : editOf Termios.default 0x7f = some .erase := by decide
    rw [processInput_accept rfl (by decide) rfl, accept, herase]
  obtain ⟨hone, hrest⟩ := eraseLastCharacter_concat Termios.default 97 (letters n).input (by decide)
    (by decide)
  have hlen : (letters n).input.length = n := List.length_replicate
  have hecho : has Termios.default.localFlags echoe = true := by decide
  have hsame := rubOut_same (eraseLastCharacter Termios.default (fullLine n shown).input).2.1
    (erasedTo (fullLine n shown) (eraseLastCharacter Termios.default (fullLine n shown).input).1
      (eraseLastCharacter Termios.default (fullLine n shown).input).2.2)
  rw [hedit, edit]
  dsimp only
  rw [if_pos (by rw [fullLine, hone]; decide), if_pos hecho, hsame.input, hsame.canonicalReady]
  exact ⟨(congrArg List.length hrest).trans hlen, rfl⟩

/-- A queue that fills up without a delimiter is made available as a whole, and the next erase takes
its last byte from there. -/
theorem input_queue_invariant_fails : ∃ s, machine.Reachable s ∧
    s.input.length < s.canonicalReady := by
  obtain ⟨n, hn⟩ : ∃ n, n + 1 = inputCapacity := ⟨4095, rfl⟩
  obtain ⟨shown, hfilled⟩ := processInput_letters hn
  have hfull : machine.Reachable (fullLine n shown) :=
    .step (letters_reachable (by omega)) ⟨.input [97], hfilled.symm⟩
  obtain ⟨hlen, hready⟩ := processInput_fullLine n shown
  refine ⟨_, .step hfull ⟨.input [0x7f], rfl⟩, ?_⟩
  dsimp only [Op.run]
  omega

/-! A chunk in raw mode is taken as its bytes one by one would be, and a quoted byte as it is. -/
open List
variable {t : Termios} {chunk : List UInt8} {byte : UInt8} {p : Pass}

def inputReady (s : TtyState) : Bool :=
  if has s.termios.localFlags icanon then s.canonicalReady ≠ 0 else s.inputBytes ≠ 0

/-- The loop of `process_input_generation`. -/
def processBytes (chunk : List UInt8) (s : TtyState) : Pass :=
  chunk.foldl (fun p byte => processInputByte byte p) ⟨s, 0, false⟩

/-- The loop is followed by a signal for the readers. -/
def Pass.wakes (p : Pass) : Bool := p.state.interrupted || inputReady p.state

def accepted (chunk : List UInt8) (s : TtyState) : List UInt8 :=
  chunk.take (inputCapacity - s.input.length)

def wakes (chunk : List UInt8) (s : TtyState) : Bool :=
  if plainInput s then accepted chunk s ≠ [] else (processBytes chunk s).wakes

def bellLine : TtyState :=
  { letters inputCapacity with
    termios := { rawTermios with inputFlags := imaxbel }
    canonicalReady := inputCapacity }

def stripped (t : Termios) (byte : UInt8) : UInt8 :=
  if has t.inputFlags istrip then byte &&& 0x7f else byte

/-- Neither end-of-line translation nor flow control is for the byte. -/
def Passes (s : TtyState) (byte : UInt8) : Prop :=
  has s.termios.controlFlags cread = true ∧
  (byte = 13 → has s.termios.inputFlags (igncr ||| icrnl) = false) ∧
  (byte = 10 → has s.termios.inputFlags inlcr = false) ∧
  (has s.termios.inputFlags ixon = true → controlMatches s.termios vstop byte = false ∧
    controlMatches s.termios vstart byte = false ∧
    (s.outputStopped = true → has s.termios.inputFlags ixany = false))

end Roanix.Dev.Tty
