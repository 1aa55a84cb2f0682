import Mathlib.Algebra.Order.Group.Nat
import Roanix.Dev.Tty.Input

/-! What each function of the line discipline does to the input queue, and what a received byte does,
phase by phase. -/
namespace Roanix.Dev.Tty
open List

variable {s s' : TtyState} {t : Termios} {byte : UInt8} {item : InputItem}

/-- Bytes are counted, the queue is within its limit, and the part made available is within the
queue. -/
structure Ok (s : TtyState) : Prop where
  bytes : s.inputBytes = s.input.countP InputItem.isByte
  capacity : s.input.length ≤ inputCapacity
  ready : s.canonicalReady ≤ s.input.length

structure Same (s s' : TtyState) : Prop where
  input : s'.input = s.input
  inputBytes : s'.inputBytes = s.inputBytes
  canonicalReady : s'.canonicalReady = s.canonicalReady

theorem Same.refl (s : TtyState) : Same s s := ⟨rfl, rfl, rfl⟩

theorem Same.trans {s'' : TtyState} (h : Same s s') (h' : Same s' s'') : Same s s'' :=
  ⟨h'.input.trans h.input, h'.inputBytes.trans h.inputBytes,
    h'.canonicalReady.trans h.canonicalReady⟩

theorem Ok.of_same (hs : Ok s) (h : Same s s') : Ok s' where
  bytes := by rw [h.inputBytes, h.input, hs.bytes]
  capacity := by rw [h.input]; exact hs.capacity
  ready := by rw [h.canonicalReady, h.input]; exact hs.ready

theorem queueEcho_echo (bytes : List UInt8) (s : TtyState) :
    ∃ echo, queueEcho bytes s = { s with echo := echo } := by
  unfold queueEcho
  split_ifs
  · exact ⟨s.echo, rfl⟩
  · exact ⟨_, rfl⟩

theorem echoInput_echo (t : Termios) (byte : UInt8) (s : TtyState) :
    ∃ echo, echoInput t byte s = { s with echo := echo } := by
  unfold echoInput echoControl
  split_ifs <;> exact queueEcho_echo _ s

theorem queueEcho_same (bytes : List UInt8) (s : TtyState) : Same s (queueEcho bytes s) := by
  obtain ⟨echo, heq⟩ := queueEcho_echo bytes s
  exact heq ▸ ⟨rfl, rfl, rfl⟩

theorem echoInput_same (t : Termios) (byte : UInt8) (s : TtyState) : Same s (echoInput t byte s) := by
  obtain ⟨echo, heq⟩ := echoInput_echo t byte s
  exact heq ▸ ⟨rfl, rfl, rfl⟩

theorem echoed_same (t : Termios) (byte : UInt8) (s : TtyState) : Same s (echoed t byte s) := by
  unfold echoed
  split_ifs
  · exact echoInput_same t byte s
  · exact .refl s

theorem rubOut_same (columns : ℕ) (s : TtyState) : Same s (rubOut columns s) := by
  induction columns generalizing s with
  | zero => exact .refl s
  | succ columns ih => exact (queueEcho_same _ s).trans (ih _)

theorem echoAll_same (t : Termios) (bytes : List UInt8) (s : TtyState) :
    Same s (bytes.foldl (fun s byte => echoInput t byte s) s) := by
  induction bytes generalizing s with
  | nil => exact .refl s
  | cons byte bytes ih => exact (echoInput_same t byte s).trans (ih _)

section Queue

theorem Ok.push (hs : Ok s) (hroom : s.input.length < inputCapacity) (item : InputItem) :
    Ok (pushInput item s) where
  bytes := by
    simp only [pushInput, countP_append, countP_singleton, ← hs.bytes]
    split_ifs <;> rfl
  capacity := by
    simp only [pushInput, length_append, length_singleton]
    omega
  ready := by
    have := hs.ready
    simp only [pushInput, length_append]
    omega

theorem countP_dropLast (input : List InputItem) :
    input.dropLast.countP InputItem.isByte =
      if input.getLast?.any InputItem.isByte then input.countP InputItem.isByte - 1
      else input.countP InputItem.isByte := by
  cases input using reverseRecOn with
  | nil => rfl
  | append_singleton input item =>
    simp only [dropLast_concat, getLast?_concat, Option.any_some, countP_append,
      countP_singleton]
    split_ifs <;> omega

theorem Ok.enqueue (hs : Ok s) (item : InputItem) : Ok (enqueue item s) := by
  unfold Tty.enqueue
  dsimp only
  split_ifs with hfull hmode hbell
  · -- the available part is set to the whole queue below, so only the count matters here
    have hlen : (popBack s).input.length = s.input.length - 1 := length_dropLast
    have hcap := hs.capacity
    have hpop : Ok { popBack s with canonicalReady := 0 } := by
      refine ⟨?_, ?_, Nat.zero_le _⟩
      · simp only [popBack, countP_dropLast, hs.bytes]
      · simp only [hlen]
        omega
    have hpush := hpop.push (by simp only [hlen]; simp only [inputCapacity] at *; omega) item
    exact { hpush with ready := le_rfl }
  · exact hs.of_same (queueEcho_same _ s)
  · exact hs
  · exact { hs.push (Nat.lt_of_not_le hfull) item with ready := le_rfl }
  · exact hs.push (Nat.lt_of_not_le hfull) item

theorem Ok.pop (hs : Ok s) (h : popInput s = some (item, s')) : Ok s' := by
  unfold popInput at h
  split at h
  · cases h
  · next item' rest hinput =>
    cases h
    have hbytes := hs.bytes
    have hcap := hs.capacity
    have hready := hs.ready
    rw [hinput, length_cons] at hcap hready
    rw [hinput, countP_cons] at hbytes
    refine ⟨?_, ?_, ?_⟩
    · dsimp only
      split_ifs at hbytes ⊢ <;> omega
    · dsimp only
      omega
    · dsimp only
      omega

theorem Ok.clear (s : TtyState) : Ok (clearInput s) := ⟨rfl, Nat.zero_le _, le_rfl⟩

theorem Ok.applyTermios (hs : Ok s) (t : Termios) : Ok (applyTermios t s) where
  bytes := hs.bytes
  capacity := hs.capacity
  ready := by
    simp only [Tty.applyTermios, recalculateCanonicalReady]
    split_ifs
    · exact (List.rdropWhile_prefix _ _).length_le
    · exact le_rfl

theorem Ok.readLine (hs : Ok s) (room : ℕ) : Ok (readLine room s).2 := by
  induction room generalizing s with
  | zero => exact hs
  | succ room ih =>
    unfold Tty.readLine
    split
    · exact hs
    · next hpop => exact hs.pop hpop
    · next hpop =>
      split_ifs
      · exact hs.pop hpop
      · exact ih (hs.pop hpop)

theorem Ok.popEof (hs : Ok s) : Ok (popEof s) := by
  unfold Tty.popEof
  split_ifs
  · split
    · next hpop => exact hs.pop hpop
    · exact hs
  · exact hs

theorem Ok.readCanonical (hs : Ok s) (room : ℕ) (nonblocking : Bool) :
    Ok (readCanonical room nonblocking s).2 := by
  unfold Tty.readCanonical
  split_ifs
  · exact hs.of_same ⟨rfl, rfl, rfl⟩
  · dsimp only
    split_ifs
    · exact (hs.readLine room).popEof
    · exact hs.readLine room
  · exact hs
  · exact hs
  · exact hs

theorem Ok.readBytes (hs : Ok s) (fuel room : ℕ) : Ok (readBytes fuel room s).2 := by
  induction fuel generalizing s room with
  | zero => exact hs
  | succ fuel ih =>
    unfold Tty.readBytes
    split_ifs
    · exact hs
    split
    · exact hs
    · next hpop => exact ih (hs.pop hpop) room
    · next hpop => exact ih (hs.pop hpop) _

theorem Ok.readRaw (hs : Ok s) (length before minimum : ℕ) (timeout nonblocking : Bool) :
    Ok (readRaw length before minimum timeout nonblocking s).2 := by
  unfold Tty.readRaw
  dsimp only
  split_ifs
  · exact hs
  · exact hs.of_same ⟨rfl, rfl, rfl⟩
  all_goals exact hs.readBytes _ _

end Queue

section Erase
variable {input rest : List InputItem} {n m : ℕ}

/-- The last `n` items are gone, and none of them was a delimiter. -/
def Erased (t : Termios) (input : List InputItem) (n : ℕ) (rest : List InputItem) : Prop :=
  ∃ removed, input = rest ++ removed ∧ removed.length = n ∧
    ∀ item ∈ removed, isDelimiter t item = false

theorem Erased.refl (t : Termios) (input : List InputItem) : Erased t input 0 input :=
  ⟨[], (append_nil _).symm, rfl, fun _ h => by cases h⟩

theorem Erased.more {rest' : List InputItem} (h : Erased t input n rest.reverse)
    (hrest : rest = item :: rest') (hitem : isDelimiter t item = false) :
    Erased t input (n + 1) rest'.reverse := by
  obtain ⟨removed, rfl, rfl, hall⟩ := h
  refine ⟨item :: removed, ?_, rfl, forall_mem_cons.mpr ⟨hitem, hall⟩⟩
  rw [hrest, reverse_cons, append_assoc, singleton_append]

theorem isByte_of_not_delimiter (h : isDelimiter t item = false) : item.isByte = true := by
  cases item with
  | byte value => rfl
  | eof => cases h

theorem discardLoop_erased (h : Erased t input n rest.reverse) :
    Erased t input (discardLoop t rest n).1 (discardLoop t rest n).2.reverse := by
  induction rest generalizing n with
  | nil => exact h
  | cons item rest ih =>
    unfold discardLoop
    split_ifs with hdelim hbyte
    · exact h
    · exact ih (h.more rfl (Bool.not_eq_true _ ▸ hdelim))
    · exact absurd (isByte_of_not_delimiter (Bool.not_eq_true _ ▸ hdelim)) hbyte

theorem discardCurrentLine_erased (t : Termios) (input : List InputItem) :
    Erased t input (discardCurrentLine t input).1 (discardCurrentLine t input).2 := by
  have hstart : Erased t input 0 input.reverse.reverse := by
    rw [reverse_reverse]
    exact .refl t input
  exact discardLoop_erased hstart

theorem eraseContinuation_erased (h : Erased t input n rest.reverse) (byte : UInt8) :
    Erased t input (eraseContinuation t rest byte n).2.1
      (eraseContinuation t rest byte n).2.2.reverse := by
  induction rest generalizing n byte with
  | nil => exact h
  | cons item rest ih =>
    cases item with
    | eof => exact h
    | byte previous =>
      unfold eraseContinuation
      split_ifs with hdelim hlast
      · exact h
      · exact h.more rfl (Bool.not_eq_true _ ▸ hdelim)
      · exact ih (h.more rfl (Bool.not_eq_true _ ▸ hdelim)) previous

theorem eraseLastCharacter_erased (t : Termios) (input : List InputItem) :
    Erased t input (eraseLastCharacter t input).1 (eraseLastCharacter t input).2.2 := by
  unfold eraseLastCharacter
  split
  · next byte rest hrev =>
    have hstart : Erased t input 0 (InputItem.byte byte :: rest).reverse := by
      rw [← hrev, reverse_reverse]
      exact .refl t input
    by_cases hdelim : isDelimiter t (.byte byte) = true
    · rw [if_pos hdelim]
      exact .refl t input
    have hfirst : Erased t input 1 rest.reverse :=
      hstart.more rfl (Bool.not_eq_true _ ▸ hdelim)
    rw [if_neg hdelim]
    dsimp only
    split
    · exact eraseContinuation_erased hfirst byte
    · exact hfirst
  · exact .refl t input

theorem popWhile_erased {p : InputItem → Bool} (hp : ∀ item, p item → isDelimiter t item = false)
    (h : Erased t input n rest.reverse) :
    Erased t input (popWhile p rest n).1 (popWhile p rest n).2.reverse := by
  induction rest generalizing n with
  | nil => exact h
  | cons item rest ih =>
    unfold popWhile
    split_ifs with hitem
    · exact ih (h.more rfl (hp item hitem))
    · exact h

theorem wordByte_not_delimiter (white : Bool) (h : wordByte t white item) :
    isDelimiter t item = false := by
  unfold wordByte at h
  rw [Bool.and_eq_true, Bool.not_eq_true'] at h
  exact h.1

theorem eraseWord_erased (t : Termios) (input : List InputItem) :
    Erased t input (eraseWord t input).1 (eraseWord t input).2 := by
  have hstart : Erased t input 0 input.reverse.reverse := by
    rw [reverse_reverse]
    exact .refl t input
  exact popWhile_erased (fun _ => wordByte_not_delimiter false)
    (popWhile_erased (fun _ => wordByte_not_delimiter true) hstart)

/-- The available part of the queue is empty or ends with a delimiter. -/
def Delimited (t : Termios) (s : TtyState) : Prop :=
  s.canonicalReady = 0 ∨ (s.input[s.canonicalReady - 1]?).any (isDelimiter t)

instance (t : Termios) (s : TtyState) : Decidable (Delimited t s) :=
  inferInstanceAs (Decidable (_ ∨ _))

theorem Erased.ready_le (h : Erased t s.input n rest) (hd : Delimited t s) :
    s.canonicalReady ≤ rest.length := by
  obtain ⟨removed, hinput, -, hall⟩ := h
  rcases hd with hzero | hlast
  · rw [hzero]
    exact Nat.zero_le _
  by_contra hlt
  obtain ⟨item, hitem, hdelim⟩ := (Option.any_eq_true _ _).mp hlast
  rw [hinput, getElem?_append_right (by omega)] at hitem
  rw [hall item (mem_of_getElem? hitem)] at hdelim
  cases hdelim

theorem Ok.erase (hs : Ok s) (hd : Delimited t s) (h : Erased t s.input n rest) :
    Ok (erasedTo s n rest) where
  bytes := by
    obtain ⟨removed, hinput, rfl, hall⟩ := h
    have hbytes := hs.bytes
    have hremoved : removed.countP InputItem.isByte = removed.length :=
      countP_eq_length.mpr fun item hitem => isByte_of_not_delimiter (hall item hitem)
    rw [hinput, countP_append, hremoved] at hbytes
    simp only [erasedTo, hbytes, Nat.add_sub_cancel]
  capacity := by
    obtain ⟨removed, hinput, -, -⟩ := h
    have hcap := hs.capacity
    rw [hinput, length_append] at hcap
    exact (Nat.le_add_right _ _).trans hcap
  ready := h.ready_le hd

end Erase

def Edit.erases : Edit → Bool
  | .erase | .kill | .eraseWord => true
  | .reprint | .endOfFile => false

/-- The byte gets through to canonical editing and erases. -/
def erasing (byte : UInt8) (p : Pass) : Bool :=
  match translate p.state.termios byte with
  | none => false
  | some byte =>
    match special p.state.termios byte p with
    | (none, _) => false
    | (some byte, _) => (editOf p.state.termios byte).any Edit.erases

/-- Each byte that erases finds an available part that ends with a delimiter. -/
def MeetsInput : List UInt8 → Pass → Prop
  | [], _ => True
  | byte :: rest, p =>
    (erasing byte p → Delimited p.state.termios p.state) ∧ MeetsInput rest (processInputByte byte p)

instance MeetsInput.decidable : ∀ chunk p, Decidable (MeetsInput chunk p)
  | [], _ => inferInstanceAs (Decidable True)
  | byte :: rest, p =>
    have := MeetsInput.decidable rest (processInputByte byte p)
    inferInstanceAs (Decidable (_ ∧ _))

section Phases

/-- A phase leaves a sound queue, and an untouched one if it hands the byte on. -/
structure Keeps (phase : UInt8 → Phase) : Prop where
  ok : ∀ byte p, Ok p.state → Ok (phase byte p).2.state
  same : ∀ byte p b q, phase byte p = (some b, q) → Same p.state q.state

theorem Keeps.andThen {first next : UInt8 → Phase} (hf : Keeps first) (hn : Keeps next) :
    Keeps (andThen first next) where
  ok byte p hp := by
    have hfirst := hf.ok byte p hp
    unfold Tty.andThen
    split
    · next heq =>
      rw [heq] at hfirst
      exact hfirst
    · next heq =>
      rw [heq] at hfirst
      exact hn.ok _ _ hfirst
  same byte p b q h := by
    unfold Tty.andThen at h
    split at h
    · cases h
    · next heq => exact (hf.same _ _ _ _ heq).trans (hn.same _ _ _ _ h)

theorem resume_same (t : Termios) (byte : UInt8) (p : Pass) :
    Same p.state (resume t byte p).2.state := by
  unfold resume
  split_ifs <;> exact ⟨rfl, rfl, rfl⟩

theorem flowControl_same (t : Termios) (byte : UInt8) (p : Pass) :
    Same p.state (flowControl t byte p).2.state := by
  unfold flowControl
  split_ifs
  · exact .refl _
  · exact ⟨rfl, rfl, rfl⟩
  · exact .refl _
  · exact resume_same t byte p
  · exact resume_same t byte p

theorem keeps_flowControl (t : Termios) : Keeps (flowControl t) where
  ok byte p hp := hp.of_same (flowControl_same t byte p)
  same byte p b q h := by
    have hsame := flowControl_same t byte p
    rw [h] at hsame
    exact hsame

theorem keeps_literal (t : Termios) : Keeps (literal t) where
  ok byte p hp := by
    have hclear : Ok { p.state with literalNext := false } := hp.of_same ⟨rfl, rfl, rfl⟩
    have hset : Ok { p.state with literalNext := true } := hp.of_same ⟨rfl, rfl, rfl⟩
    unfold literal
    split_ifs
    · exact (hclear.enqueue _).of_same (echoInput_same t byte _)
    · exact hset.of_same (queueEcho_same _ _)
    · exact hset.of_same (echoInput_same t byte _)
    · exact hset
    · exact hp
  same byte p b q h := by
    unfold literal at h
    split_ifs at h <;> cases h
    exact .refl _

theorem setLocalFlags_same (f : UInt32 → UInt32) (s : TtyState) : Same s (setLocalFlags f s) :=
  ⟨rfl, rfl, rfl⟩

theorem keeps_discard (t : Termios) : Keeps (discard t) where
  ok byte p hp := by
    have hcleared : Ok { p.state with echo := [] } := hp.of_same ⟨rfl, rfl, rfl⟩
    have hechoed := hcleared.of_same (echoed_same t byte _)
    unfold discard
    split_ifs
    · exact hechoed.of_same (setLocalFlags_same (· ||| flusho) _)
    · exact (hp.of_same (setLocalFlags_same _ _)).of_same (echoed_same t byte _)
    · exact hp
  same byte p b q h := by
    unfold discard at h
    split_ifs at h <;> cases h
    exact .refl _

theorem keeps_raise (t : Termios) : Keeps (raise t) where
  ok byte p hp := by
    unfold raise
    split
    · exact hp
    · refine Ok.of_same ?_ (echoed_same t byte _)
      split_ifs
      · exact hp.of_same ⟨rfl, rfl, rfl⟩
      · exact (Ok.clear p.state).of_same ⟨rfl, rfl, rfl⟩
  same byte p b q h := by
    unfold raise at h
    split at h
    · cases h
      exact .refl _
    · cases h

theorem keeps_special (t : Termios) : Keeps (special t) :=
  (keeps_flowControl t).andThen <| (keeps_literal t).andThen <|
    (keeps_discard t).andThen (keeps_raise t)

end Phases

section Edit
variable {e : Edit}

theorem edit_erased (t : Termios) (byte : UInt8) (he : e.erases) (s : TtyState) :
    ∃ n rest, Erased t s.input n rest ∧ Same (erasedTo s n rest) (edit t byte e s) := by
  cases e with
  | erase =>
    unfold edit
    dsimp only
    split_ifs with hsome hecho
    · exact ⟨_, _, eraseLastCharacter_erased t s.input, rubOut_same _ _⟩
    · exact ⟨_, _, eraseLastCharacter_erased t s.input, echoed_same _ _ _⟩
    · exact ⟨0, s.input, .refl t s.input, ⟨rfl, rfl, rfl⟩⟩
  | kill =>
    refine ⟨_, _, discardCurrentLine_erased t s.input, ?_⟩
    unfold edit
    dsimp only
    split_ifs
    · exact rubOut_same _ _
    · exact echoInput_same _ _ _
    · exact .refl _
  | eraseWord =>
    refine ⟨_, _, eraseWord_erased t s.input, ?_⟩
    unfold edit
    dsimp only
    split_ifs
    · exact rubOut_same _ _
    · exact .refl _
  | reprint | endOfFile => cases he

theorem Ok.edit (hs : Ok s) (hd : e.erases → Delimited t s) : Ok (edit t byte e s) := by
  by_cases he : e.erases
  · obtain ⟨n, rest, herased, hsame⟩ := edit_erased t byte he s
    exact (hs.erase (hd he) herased).of_same hsame
  · cases e with
    | reprint =>
      exact hs.of_same (((echoInput_same t byte s).trans (echoInput_same t 10 _)).trans
        (echoAll_same t _ _))
    | endOfFile => exact hs.enqueue _
    | erase | kill | eraseWord => exact absurd rfl he

theorem Ok.accept (hs : Ok s) (hd : (editOf t byte).any Edit.erases → Delimited t s) :
    Ok (accept t byte s) := by
  unfold Tty.accept
  split
  · next e heq =>
    rw [heq, Option.any_some] at hd
    exact hs.edit hd
  · dsimp only
    split_ifs
    · exact (hs.enqueue _).of_same (echoInput_same t byte _)
    · exact hs.enqueue _

theorem Delimited.of_same (hd : Delimited t s) (h : Same s s') : Delimited t s' := by
  unfold Delimited
  rw [h.canonicalReady, h.input]
  exact hd

theorem erasing_spec {p : Pass} (h : erasing byte p = true) :
    ∃ b e q, e.erases ∧ Same p.state q ∧
      (Tty.processInputByte byte p).state = edit p.state.termios b e q := by
  unfold erasing at h
  unfold Tty.processInputByte
  cases htranslate : translate p.state.termios byte with
  | none =>
    rw [htranslate] at h
    cases h
  | some b =>
    rw [htranslate] at h
    rcases heq : special p.state.termios b p with ⟨_ | b', q⟩
    · simp only [heq, Bool.false_eq_true] at h
    · simp only [heq] at h
      obtain ⟨e, he, herases⟩ := (Option.any_eq_true _ _).mp h
      refine ⟨b', e, q.state, herases, (keeps_special _).same _ _ _ _ heq, ?_⟩
      simp only [htranslate, heq, accept, he]

theorem Ok.processInputByte {p : Pass} (hp : Ok p.state)
    (hd : erasing byte p → Delimited p.state.termios p.state) :
    Ok (processInputByte byte p).state := by
  cases herase : erasing byte p with
  | true =>
    obtain ⟨b, e, q, -, hsame, heq⟩ := erasing_spec herase
    rw [heq]
    exact (hp.of_same hsame).edit fun _ => (hd herase).of_same hsame
  | false =>
    unfold erasing at herase
    unfold Tty.processInputByte
    dsimp only
    split
    · exact hp
    · next b htranslate =>
      have hspecial := (keeps_special p.state.termios).ok b p hp
      rw [htranslate] at herase
      dsimp only at herase
      split
      · next heq =>
        rw [heq] at hspecial
        exact hspecial
      · next b' q heq =>
        rw [heq] at hspecial herase
        dsimp only at herase
        exact Ok.accept hspecial fun he => by
          rw [he] at herase
          cases herase

end Edit

theorem Ok.foldInput {chunk : List UInt8} {p : Pass} (hp : Ok p.state) (hm : MeetsInput chunk p) :
    Ok (chunk.foldl (fun p byte => Tty.processInputByte byte p) p).state := by
  induction chunk generalizing p with
  | nil => exact hp
  | cons byte chunk ih => exact ih (hp.processInputByte hm.1) hm.2

theorem Ok.processInput {chunk : List UInt8} (hs : Ok s)
    (hm : plainInput s = false → MeetsInput chunk ⟨s, 0, false⟩) :
    Ok (processInput chunk s).state := by
  unfold Tty.processInput
  split_ifs with hplain
  · have hcap := hs.capacity
    have hbytes : ∀ bytes : List UInt8,
        (bytes.map InputItem.byte).countP InputItem.isByte = bytes.length := by
      intro bytes
      rw [List.countP_map]
      exact List.countP_eq_length.mpr fun _ _ => rfl
    refine ⟨?_, ?_, le_rfl⟩
    · dsimp only
      rw [List.countP_append, hbytes, hs.bytes]
    · dsimp only
      rw [List.length_append, List.length_map, List.length_take]
      omega
  · exact Ok.foldInput hs (hm (Bool.not_eq_true _ ▸ hplain))

end Roanix.Dev.Tty
