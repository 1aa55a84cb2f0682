import Mathlib.Data.List.DropRight

/-! The terminal line discipline: settings, the input queue and the echo queue, what a received byte
does, and what a read takes. A byte goes through the phases of `process_input_byte` in the source's
order; a phase that returns early consumes it. Every function here runs under the state lock; the two
events only wake sleepers and are left out. -/
namespace Roanix.Dev.Tty

def inputCapacity : ℕ := 4096
def echoCapacity : ℕ := 4096

def vintr : Fin 32 := 0
def vquit : Fin 32 := 1
def verase : Fin 32 := 2
def vkill : Fin 32 := 3
def veof : Fin 32 := 4
def vmin : Fin 32 := 6
def vstart : Fin 32 := 8
def vstop : Fin 32 := 9
def vsusp : Fin 32 := 10
def veol : Fin 32 := 11
def vreprint : Fin 32 := 12
def vdiscard : Fin 32 := 13
def vwerase : Fin 32 := 14
def vlnext : Fin 32 := 15
def veol2 : Fin 32 := 16

def istrip : UInt32 := 0o000040
def inlcr : UInt32 := 0o000100
def igncr : UInt32 := 0o000200
def icrnl : UInt32 := 0o000400
def ixon : UInt32 := 0o002000
def ixany : UInt32 := 0o004000
def imaxbel : UInt32 := 0o020000
def iutf8 : UInt32 := 0o040000

def opost : UInt32 := 0o000001
def onlcr : UInt32 := 0o000004

def cs8 : UInt32 := 0o000060
def cread : UInt32 := 0o000200
def clocal : UInt32 := 0o004000
def cbaud : UInt32 := 0o010017
def b9600 : UInt32 := 13

def isig : UInt32 := 0o000001
def icanon : UInt32 := 0o000002
def echo : UInt32 := 0o000010
def echoe : UInt32 := 0o000020
def echok : UInt32 := 0o000040
def echonl : UInt32 := 0o000100
def noflsh : UInt32 := 0o000200
def echoctl : UInt32 := 0o001000
def echoke : UInt32 := 0o004000
def flusho : UInt32 := 0o010000
def iexten : UInt32 := 0o100000

def sigint : UInt64 := 2
def sigquit : UInt64 := 3
def sigtstp : UInt64 := 20

def has (flags mask : UInt32) : Bool := flags &&& mask ≠ 0

def hasAll (flags mask : UInt32) : Bool := flags &&& mask = mask

structure Termios where
  inputFlags : UInt32
  outputFlags : UInt32
  controlFlags : UInt32
  localFlags : UInt32
  control : Fin 32 → UInt8

def Termios.default : Termios where
  inputFlags := icrnl ||| ixon
  outputFlags := opost ||| onlcr
  controlFlags := cread ||| cs8 ||| clocal ||| b9600
  localFlags := isig ||| icanon ||| echo ||| echoe ||| echok ||| echoctl ||| echoke ||| iexten
  control i :=
    match i with
    | 0 => 3
    | 1 => 28
    | 2 => 0x7f
    | 3 => 21
    | 4 => 4
    | 6 => 1
    | 8 => 17
    | 9 => 19
    | 10 => 26
    | 12 => 18
    | 13 => 15
    | 14 => 23
    | 15 => 22
    | _ => 0

/-- `Termios::with_baud`, by the code that the table has for the baud. -/
def Termios.withBaud (code : UInt32) : Termios :=
  { Termios.default with controlFlags := (Termios.default.controlFlags &&& ~~~cbaud) ||| code }

inductive InputItem where
  | byte (value : UInt8)
  | eof
deriving DecidableEq, Repr

def InputItem.isByte : InputItem → Bool
  | .byte _ => true
  | .eof => false

/-- The fields of `TtyState` that the input side works on. -/
structure TtyState where
  termios : Termios
  input : List InputItem
  echo : List UInt8
  canonicalReady : ℕ
  inputBytes : ℕ
  literalNext : Bool
  outputStopped : Bool
  interrupted : Bool
  hungUp : Bool

/-- The state that `Tty::new` and a last close set up. -/
def TtyState.new (code : UInt32) : TtyState :=
  ⟨Termios.withBaud code, [], [], 0, 0, false, false, false, false⟩

def controlMatches (t : Termios) (index : Fin 32) (byte : UInt8) : Bool :=
  t.control index ≠ 0 && byte = t.control index

def isDelimiter (t : Termios) : InputItem → Bool
  | .eof => true
  | .byte byte =>
    byte = 10 || controlMatches t veol byte ||
      (has t.localFlags iexten && controlMatches t veol2 byte)

def isControl (byte : UInt8) : Bool :=
  (byte < 32 && !(byte = 10 || byte = 9)) || byte = 0x7f

section Echo

def queueEcho (bytes : List UInt8) (s : TtyState) : TtyState :=
  if has s.termios.localFlags flusho then s
  else
    { s with echo := s.echo.drop (s.echo.length + bytes.length - echoCapacity) ++ bytes }

def echoControl (byte : UInt8) : TtyState → TtyState :=
  queueEcho [94, if byte = 0x7f then 63 else byte ^^^ 0x40]

def echoInput (t : Termios) (byte : UInt8) : TtyState → TtyState :=
  if byte = 10 then
    if hasAll t.outputFlags (opost ||| onlcr) then queueEcho [13, 10] else queueEcho [10]
  else if isControl byte && has t.localFlags echoctl then echoControl byte
  else queueEcho [byte]

def rubOut : ℕ → TtyState → TtyState
  | 0, s => s
  | columns + 1, s => rubOut columns (queueEcho [8, 32, 8] s)

end Echo

section Queue

def pushInput (item : InputItem) (s : TtyState) : TtyState :=
  { s with
    inputBytes := if item.isByte then s.inputBytes + 1 else s.inputBytes
    input := s.input ++ [item] }

def popInput (s : TtyState) : Option (InputItem × TtyState) :=
  match s.input with
  | [] => none
  | item :: rest =>
    some (item,
      { s with
        input := rest
        canonicalReady := s.canonicalReady - 1
        inputBytes := if item.isByte then s.inputBytes - 1 else s.inputBytes })

def clearInput (s : TtyState) : TtyState :=
  { s with input := [], canonicalReady := 0, inputBytes := 0, literalNext := false }

def currentLineStart (t : Termios) (input : List InputItem) : ℕ :=
  (input.rdropWhile fun item => !isDelimiter t item).length

def recalculateCanonicalReady (s : TtyState) : TtyState :=
  { s with
    canonicalReady :=
      if has s.termios.localFlags icanon then currentLineStart s.termios s.input
      else s.input.length }

/-- The last item, made room for by a full queue. -/
def popBack (s : TtyState) : TtyState :=
  { s with
    inputBytes := if s.input.getLast?.any InputItem.isByte then s.inputBytes - 1 else s.inputBytes
    input := s.input.dropLast }

def enqueue (item : InputItem) (s : TtyState) : TtyState :=
  if s.input.length ≥ inputCapacity then
    if isDelimiter s.termios item && has s.termios.localFlags icanon then
      let s := pushInput item (popBack s)
      { s with canonicalReady := s.input.length }
    else if has s.termios.inputFlags imaxbel then queueEcho [7] s
    else s
  else
    let delimiter := isDelimiter s.termios item
    let s := pushInput item s
    if !has s.termios.localFlags icanon || delimiter || s.input.length = inputCapacity then
      { s with canonicalReady := s.input.length }
    else s

end Queue

section Erase

/-! The items are taken from the back, so the loops run over the reversed queue. Each returns the
number of bytes it erased and the rest. -/

def discardLoop (t : Termios) : List InputItem → ℕ → ℕ × List InputItem
  | [], removed => (removed, [])
  | item :: rest, removed =>
    if isDelimiter t item then (removed, item :: rest)
    else discardLoop t rest (if item.isByte then removed + 1 else removed)

def discardCurrentLine (t : Termios) (input : List InputItem) : ℕ × List InputItem :=
  let (removed, rest) := discardLoop t input.reverse 0
  (removed, rest.reverse)

/-- The loop over the bytes of one UTF-8 character, with the byte and the number erased last. -/
def eraseContinuation (t : Termios) : List InputItem → UInt8 → ℕ → UInt8 × ℕ × List InputItem
  | .byte previous :: rest, byte, erased =>
    if isDelimiter t (.byte previous) then (byte, erased, .byte previous :: rest)
    else if previous &&& 0xc0 ≠ 0x80 then (previous, erased + 1, rest)
    else eraseContinuation t rest previous (erased + 1)
  | input, byte, erased => (byte, erased, input)

/-- The number of bytes erased, the columns they took and the rest of the queue. -/
def eraseLastCharacter (t : Termios) (input : List InputItem) : ℕ × ℕ × List InputItem :=
  match input.reverse with
  | .byte byte :: rest =>
    if isDelimiter t (.byte byte) then (0, 0, input)
    else
      let (byte, erased, rest) :=
        if has t.inputFlags iutf8 && byte &&& 0xc0 = 0x80 then eraseContinuation t rest byte 1
        else (byte, 1, rest)
      (erased, if isControl byte && has t.localFlags echoctl then 2 else 1, rest.reverse)
  | _ => (0, 0, input)

/-- `u8::is_ascii_whitespace`. -/
def isWhitespace (byte : UInt8) : Bool :=
  byte = 9 || byte = 10 || byte = 12 || byte = 13 || byte = 32

def wordByte (t : Termios) (white : Bool) (item : InputItem) : Bool :=
  !isDelimiter t item &&
    match item with
    | .byte byte => isWhitespace byte == white
    | .eof => false

def popWhile (p : InputItem → Bool) : List InputItem → ℕ → ℕ × List InputItem
  | [], erased => (erased, [])
  | item :: rest, erased =>
    if p item then popWhile p rest (erased + 1) else (erased, item :: rest)

def eraseWord (t : Termios) (input : List InputItem) : ℕ × List InputItem :=
  let (erased, rest) := popWhile (wordByte t true) input.reverse 0
  let (erased, rest) := popWhile (wordByte t false) rest erased
  (erased, rest.reverse)

end Erase

/-- The locked state with what the loop over a chunk collects. -/
structure Pass where
  state : TtyState
  signals : UInt64
  flushOutput : Bool

abbrev Phase := Pass → Option UInt8 × Pass

def translate (t : Termios) (byte : UInt8) : Option UInt8 :=
  if !has t.controlFlags cread then none
  else
    let byte := if has t.inputFlags istrip then byte &&& 0x7f else byte
    if byte = 13 && has t.inputFlags igncr then none
    else if byte = 13 && has t.inputFlags icrnl then some 10
    else if byte = 10 && has t.inputFlags inlcr then some 13
    else some byte

/-- The start character, or any character where `IXANY` is set, resumes output. -/
def resume (t : Termios) (byte : UInt8) : Phase := fun p =>
  if controlMatches t vstart byte || (p.state.outputStopped && has t.inputFlags ixany) then
    (if controlMatches t vstart byte then none else some byte,
      { p with state := { p.state with outputStopped := false } })
  else (some byte, p)

def flowControl (t : Termios) (byte : UInt8) : Phase := fun p =>
  if !has t.inputFlags ixon then (some byte, p)
  else if controlMatches t vstop byte then
    if !p.state.outputStopped then
      (none, { p with state := { p.state with outputStopped := true } })
    else if !controlMatches t vstart byte then (none, p)
    else resume t byte p
  else resume t byte p

/-- The byte after `VLNEXT` is taken as it is. -/
def literal (t : Termios) (byte : UInt8) : Phase := fun p =>
  if p.state.literalNext then
    (none, { p with
      state := echoInput t byte (enqueue (.byte byte) { p.state with literalNext := false }) })
  else if has t.localFlags iexten && controlMatches t vlnext byte then
    let s := { p.state with literalNext := true }
    (none, { p with
      state :=
        if has t.localFlags echo then
          if has t.localFlags echoe then queueEcho [94, 8] s else echoInput t byte s
        else s })
  else (some byte, p)

def echoed (t : Termios) (byte : UInt8) (s : TtyState) : TtyState :=
  if has t.localFlags echo then echoInput t byte s else s

def setLocalFlags (f : UInt32 → UInt32) (s : TtyState) : TtyState :=
  { s with termios := { s.termios with localFlags := f s.termios.localFlags } }

def discard (t : Termios) (byte : UInt8) : Phase := fun p =>
  if has t.localFlags iexten && controlMatches t vdiscard byte then
    if !has p.state.termios.localFlags flusho then
      (none, { p with
        state := setLocalFlags (· ||| flusho) (echoed t byte { p.state with echo := [] })
        flushOutput := true })
    else (none, { p with state := echoed t byte (setLocalFlags (· &&& ~~~flusho) p.state) })
  else (some byte, p)

def signalOf (t : Termios) (byte : UInt8) : Option UInt64 :=
  if !has t.localFlags isig then none
  else if controlMatches t vintr byte then some sigint
  else if controlMatches t vquit byte then some sigquit
  else if controlMatches t vsusp byte then some sigtstp
  else none

def raise (t : Termios) (byte : UInt8) : Phase := fun p =>
  match signalOf t byte with
  | none => (some byte, p)
  | some signal =>
    let s := if has t.localFlags noflsh then p.state else { clearInput p.state with echo := [] }
    (none,
      { state := echoed t byte { s with outputStopped := false, interrupted := true }
        signals := p.signals ||| (1 <<< signal)
        flushOutput := p.flushOutput || !has t.localFlags noflsh })

inductive Edit where
  | erase
  | kill
  | eraseWord
  | reprint
  | endOfFile
deriving DecidableEq, Repr

/-- The editing that a byte asks for, in the source's order of tests. -/
def editOf (t : Termios) (byte : UInt8) : Option Edit :=
  if !has t.localFlags icanon then none
  else if controlMatches t verase byte then some .erase
  else if controlMatches t vkill byte then some .kill
  else if has t.localFlags iexten && controlMatches t vwerase byte then some .eraseWord
  else if hasAll t.localFlags (iexten ||| echo) && controlMatches t vreprint byte then some .reprint
  else if controlMatches t veof byte then some .endOfFile
  else none

def erasedTo (s : TtyState) (erased : ℕ) (input : List InputItem) : TtyState :=
  { s with input := input, inputBytes := s.inputBytes - erased }

def edit (t : Termios) (byte : UInt8) : Edit → TtyState → TtyState
  | .erase, s =>
    let (erased, columns, input) := eraseLastCharacter t s.input
    if erased ≠ 0 then
      let s := erasedTo s erased input
      if has t.localFlags echoe then rubOut columns s else echoed t byte s
    else s
  | .kill, s =>
    let (erased, input) := discardCurrentLine t s.input
    let s := erasedTo s erased input
    if hasAll t.localFlags (echo ||| echoe ||| echoke) then rubOut erased s
    else if hasAll t.localFlags (echo ||| echok) then echoInput t 10 s
    else s
  | .eraseWord, s =>
    let (erased, input) := eraseWord t s.input
    let s := erasedTo s erased input
    if has t.localFlags echoe then rubOut erased s else s
  | .reprint, s =>
    ((s.input.drop (currentLineStart t s.input)).filterMap fun item =>
        match item with
        | .byte byte => some byte
        | .eof => none).foldl (fun s byte => echoInput t byte s) (echoInput t 10 (echoInput t byte s))
  | .endOfFile, s => enqueue .eof s

/-- A byte that no special phase consumed: editing, or data. -/
def accept (t : Termios) (byte : UInt8) (s : TtyState) : TtyState :=
  match editOf t byte with
  | some e => edit t byte e s
  | none =>
    let s := enqueue (.byte byte) s
    if has t.localFlags echo || (byte = 10 && has t.localFlags echonl) then echoInput t byte s else s

def andThen (first : UInt8 → Phase) (next : UInt8 → Phase) (byte : UInt8) : Phase := fun p =>
  match first byte p with
  | (none, p) => (none, p)
  | (some byte, p) => next byte p

def special (t : Termios) : UInt8 → Phase :=
  andThen (flowControl t) (andThen (literal t) (andThen (discard t) (raise t)))

def processInputByte (byte : UInt8) (p : Pass) : Pass :=
  let t := p.state.termios
  match translate t byte with
  | none => p
  | some byte =>
    match special t byte p with
    | (none, p) => p
    | (some byte, p) => { p with state := accept t byte p.state }

/-- The settings under which a chunk is taken as it is. -/
def plainInput (s : TtyState) : Bool :=
  has s.termios.controlFlags cread &&
    !has s.termios.inputFlags (istrip ||| inlcr ||| igncr ||| icrnl ||| ixon) &&
    !has s.termios.localFlags (isig ||| icanon ||| echo ||| echonl ||| iexten) && !s.literalNext

/-- The locked part of `process_input_generation`, for a generation that is still current. -/
def processInput (chunk : List UInt8) (s : TtyState) : Pass :=
  if plainInput s then
    let accepted := chunk.take (inputCapacity - s.input.length)
    let input := s.input ++ accepted.map .byte
    { state := { s with
        input := input
        inputBytes := s.inputBytes + accepted.length
        canonicalReady := input.length }
      signals := 0
      flushOutput := false }
  else chunk.foldl (fun p byte => processInputByte byte p) ⟨s, 0, false⟩

/-- How one pass of a read ends: with bytes, with an error, or asleep with the bytes it has. -/
inductive ReadResult where
  | done (bytes : List UInt8)
  | interrupted
  | wouldBlock
  | waits (bytes : List UInt8)
deriving DecidableEq, Repr

def readLine : ℕ → TtyState → List UInt8 × TtyState
  | 0, s => ([], s)
  | room + 1, s =>
    match popInput s with
    | none => ([], s)
    | some (.eof, s) => ([], s)
    | some (.byte byte, s) =>
      if isDelimiter s.termios (.byte byte) then ([byte], s)
      else
        let (bytes, s) := readLine room s
        (byte :: bytes, s)

/-- A line that ends exactly at the end of the buffer takes its end-of-file mark with it. -/
def popEof (s : TtyState) : TtyState :=
  if s.input.head? = some .eof ∧ s.canonicalReady ≠ 0 then
    match popInput s with
    | some (_, s) => s
    | none => s
  else s

/-- A pass of `read_canonical` into a buffer of `room` bytes. -/
def readCanonical (room : ℕ) (nonblocking : Bool) (s : TtyState) : ReadResult × TtyState :=
  if s.interrupted then (.interrupted, { s with interrupted := false })
  else if s.canonicalReady ≠ 0 then
    let (bytes, s) := readLine room s
    (.done bytes, if bytes.length = room then popEof s else s)
  else if s.hungUp then (.done [], s)
  else if nonblocking then (.wouldBlock, s)
  else (.waits [], s)

/-- The popping loop of `read_raw`; the fuel is the length of the queue. -/
def readBytes : ℕ → ℕ → TtyState → List UInt8 × TtyState
  | 0, _, s => ([], s)
  | fuel + 1, room, s =>
    if room = 0 then ([], s)
    else
      match popInput s with
      | none => ([], s)
      | some (.eof, s) => readBytes fuel room s
      | some (.byte byte, s) =>
        let (bytes, s) := readBytes fuel (room - 1) s
        (byte :: bytes, s)

/-- A pass of `read_raw` with `before` bytes read by earlier passes of the call. `minimum` and
whether there is a timeout were taken from the settings when the call began. -/
def readRaw (length before minimum : ℕ) (timeout nonblocking : Bool) (s : TtyState) :
    ReadResult × TtyState :=
  if s.interrupted then
    if before ≠ 0 then (.done [], s) else (.interrupted, { s with interrupted := false })
  else
    let (bytes, s) := readBytes s.input.length (length - before) s
    let read := before + bytes.length
    if read = length ∨ minimum ≠ 0 ∧ minimum ≤ read ∨ minimum = 0 ∧ read ≠ 0 ∨
        s.hungUp ∧ s.inputBytes = 0 then (.done bytes, s)
    else if nonblocking then (if read = 0 then .wouldBlock else .done bytes, s)
    else if minimum = 0 ∧ !timeout then (.done bytes, s)
    else (.waits bytes, s)

/-- The locked part of `apply_termios`. -/
def applyTermios (t : Termios) (s : TtyState) : TtyState :=
  recalculateCanonicalReady { s with termios := t }

def flushInput (s : TtyState) : TtyState := { clearInput s with interrupted := false }

end Roanix.Dev.Tty
