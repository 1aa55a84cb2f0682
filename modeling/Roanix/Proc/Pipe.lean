import Roanix.Lib.Machine
import Roanix.Mem.Io

/-! Anonymous byte pipes. One pass of the loop of `read` or `write` is one section of the state lock;
a pass that goes to sleep is followed by another one of the same call, at any later time. -/
namespace Roanix.Proc.Pipe
open List
open Lib (slice)
open Mem.Io

variable {buffer : List UInt8} {count front : ℕ} {sink sink' : IoSink} {source : IoSource}
  {e : PipeEnd} {p p' : PipeState} {r : Option (Except PipeError ℕ)}

def capacity : ℕ := 64 * 1024

def atomicLimit : ℕ := 4096

/-- The size of the array through which `write` copies. -/
def stagingLength : ℕ := 1024

inductive PipeError where
  | badDescriptor
  | tryAgain
  | brokenPipe
  | fault
deriving DecidableEq, Repr

inductive Direction where
  | read
  | write
deriving DecidableEq, Repr

/-- The locked state, with the two events that are set and reset under its lock. -/
structure PipeState where
  buffer : List UInt8
  readerOpen : Bool
  writerOpen : Bool
  readable : Bool
  writable : Bool
deriving DecidableEq, Repr

structure PipeEnd where
  direction : Direction
  nonblocking : Bool
deriving DecidableEq, Repr

def PipeState.new : PipeState := ⟨[], true, true, false, true⟩

/-- Whether the one shared end of a direction still exists. -/
def PipeState.isOpen (p : PipeState) : Direction → Bool
  | .read => p.readerOpen
  | .write => p.writerOpen

/-- Stores `count` buffered bytes from the two slices of the ring, of which the first has `front`
bytes. -/
def copyOut (buffer : List UInt8) (front count : ℕ) (sink : IoSink) : Bool × IoSink :=
  let fromFront := min (buffer.take front).length count
  match sink.store 0 ((buffer.take front).take fromFront) with
  | (false, sink) => (false, sink)
  | (true, sink) =>
    if fromFront < count then sink.store fromFront ((buffer.drop front).take (count - fromFront))
    else (true, sink)

/-- The copying loop of `write`; no result is a fault before the first byte. -/
def copyIn (source : IoSource) (count : ℕ) : ℕ → ℕ → List UInt8 → Option (ℕ × List UInt8)
  | 0, copied, buffer => some (copied, buffer)
  | fuel + 1, copied, buffer =>
    if copied < count then
      match source.window copied (min (count - copied) stagingLength) with
      | none => if copied ≠ 0 then some (copied, buffer) else none
      | some 0 => some (copied, buffer)
      | some length =>
        copyIn source count fuel (copied + length) (buffer ++ slice source.bytes copied length)
    else some (copied, buffer)

namespace PipeEnd

/-- A pass of `read`; without a result the call sleeps. -/
def read (e : PipeEnd) (front : ℕ) (p : PipeState) (sink : IoSink) :
    PipeState × IoSink × Option (Except PipeError ℕ) :=
  if e.direction ≠ .read then (p, sink, some (.error .badDescriptor))
  else if sink.len = 0 then (p, sink, some (.ok 0))
  else if p.buffer ≠ [] then
    let count := min sink.len p.buffer.length
    match copyOut p.buffer front count sink with
    | (false, sink) => (p, sink, some (.error .fault))
    | (true, sink) =>
      let rest := p.buffer.drop count
      ({ p with buffer := rest, readable := p.readable && !rest.isEmpty, writable := true }, sink,
        some (.ok count))
  else if !p.writerOpen then (p, sink, some (.ok 0))
  else if e.nonblocking then (p, sink, some (.error .tryAgain))
  else ({ p with readable := false }, sink, none)

/-- A pass of `write`; without a result the call sleeps. -/
def write (e : PipeEnd) (p : PipeState) (source : IoSource) : PipeState × Option (Except PipeError ℕ) :=
  if e.direction ≠ .write then (p, some (.error .badDescriptor))
  else if source.len = 0 then (p, some (.ok 0))
  else if !p.readerOpen then (p, some (.error .brokenPipe))
  else
    let available := capacity - p.buffer.length
    let atomic := decide (source.len ≤ atomicLimit)
    if available ≠ 0 ∧ (!atomic ∨ source.len ≤ available) then
      let count := min available source.len
      match copyIn source count count 0 p.buffer with
      | none => (p, some (.error .fault))
      | some (copied, buffer) =>
        ({ p with
            buffer := buffer
            readable := true
            writable := p.writable && buffer.length ≠ capacity },
          some (.ok copied))
    else if e.nonblocking then (p, some (.error .tryAgain))
    else ({ p with writable := false }, none)

end PipeEnd

def PipeState.drop (p : PipeState) : Direction → PipeState
  | .read => { p with readerOpen := false, writable := true }
  | .write => { p with writerOpen := false, readable := true }

/-- A call that returned, with the pipe in its last pass. -/
inductive Event where
  | read (before : PipeState) (sink : IoSink) (result : Except PipeError ℕ)
  | write (before after : PipeState) (source : IoSource) (result : Except PipeError ℕ)

namespace Event

def returned : Event → List UInt8
  | .read _ sink (.ok n) => sink.bytes.take n
  | _ => []

def accepted : Event → List UInt8
  | .write before after _ _ => after.buffer.drop before.buffer.length
  | _ => []

end Event

/-- The log has the calls in the order of their last sections. -/
structure State where
  pipe : PipeState
  log : List Event

namespace State

def returned (s : State) : List UInt8 := s.log.flatMap Event.returned

def accepted (s : State) : List UInt8 := s.log.flatMap Event.accepted

def read (s : State) (e : PipeEnd) (front : ℕ) (sink : IoSink) : State :=
  match e.read front s.pipe sink with
  | (pipe, _, none) => { s with pipe }
  | (pipe, sink, some result) => ⟨pipe, s.log ++ [.read s.pipe sink result]⟩

def write (s : State) (e : PipeEnd) (source : IoSource) : State :=
  match e.write s.pipe source with
  | (pipe, none) => { s with pipe }
  | (pipe, some result) => ⟨pipe, s.log ++ [.write s.pipe pipe source result]⟩

end State

/-- Any caller makes a pass on an end that exists, or the last reference to an end is dropped. -/
inductive Step (s : State) : State → Prop
  | read (e : PipeEnd) (front : ℕ) (sink : IoSink) (h : s.pipe.isOpen e.direction = true) :
      Step s (s.read e front sink)
  | write (e : PipeEnd) (source : IoSource) (h : s.pipe.isOpen e.direction = true) :
      Step s (s.write e source)
  | drop (d : Direction) (h : s.pipe.isOpen d = true) : Step s { s with pipe := s.pipe.drop d }

def machine : Lib.Machine State where
  init s := s = ⟨.new, []⟩
  step := Step

theorem copyOut_eq (hcount : count ≤ buffer.length)
    (h : copyOut buffer front count sink = (true, sink')) :
    sink' = sink.copyFromSlice 0 (buffer.take count) ∧ count ≤ sink.len := by
  have hfront : (buffer.take front).length = min front buffer.length := length_take
  generalize hfrom : min (buffer.take front).length count = fromFront at h
  have hfirst : (buffer.take front).take fromFront = buffer.take fromFront := by
    rw [take_take]
    congr 1
    omega
  have hlen : (buffer.take fromFront).length = fromFront := length_take_of_le (by omega)
  unfold copyOut at h
  simp only [hfrom, hfirst] at h
  split at h
  · cases h
  · next sink₁ hstore =>
    obtain ⟨rfl, hfit⟩ := IoSink.store_eq hstore
    split_ifs at h with hlt
    · -- the ring wraps, and the second slice goes where the first ended
      obtain rfl : front = fromFront := by omega
      obtain ⟨rfl, hfit'⟩ := IoSink.store_eq h
      have hrest : ((buffer.drop front).take (count - front)).length = count - front := by
        rw [length_take, length_drop]
        omega
      have htake : buffer.take front ++ (buffer.drop front).take (count - front) =
          buffer.take count := by
        rw [← take_add]
        congr 1
        omega
      rw [IoSink.len_copyFromSlice hfit] at hfit'
      have happend := IoSink.copyFromSlice_append (show 0 +
        (buffer.take front ++ (buffer.drop front).take (count - front)).length ≤ sink.len by
          rw [length_append]
          omega)
      rw [hlen, Nat.zero_add, htake] at happend
      exact ⟨happend, by omega⟩
    · cases h
      obtain rfl : fromFront = count := by omega
      exact ⟨rfl, by omega⟩

theorem copyIn_eq {fuel copied n : ℕ} {buffer' : List UInt8} (hcopied : copied ≤ count)
    (h : copyIn source count fuel copied buffer = some (n, buffer')) :
    copied ≤ n ∧ n ≤ count ∧ buffer' = buffer ++ slice source.bytes copied (n - copied) := by
  have hstop : ∀ {c : ℕ} {b : List UInt8}, c ≤ count → some (c, b) = some (n, buffer') →
      c ≤ n ∧ n ≤ count ∧ buffer' = b ++ slice source.bytes c (n - c) := by
    intro c b hc h
    cases h
    rw [Nat.sub_self, Lib.slice_zero, append_nil]
    exact ⟨le_rfl, hc, rfl⟩
  induction fuel generalizing copied buffer with
  | zero => exact hstop hcopied h
  | succ fuel ih =>
    unfold copyIn at h
    split at h
    · split at h
      · split_ifs at h
        exact hstop hcopied h
      · exact hstop hcopied h
      · next length hne hw =>
        obtain ⟨hmax, -, -⟩ := Buffer.window_spec hw
        obtain ⟨hle, hn, rfl⟩ := ih (by omega) h
        refine ⟨by omega, hn, ?_⟩
        rw [append_assoc, ← Lib.slice_append]
        congr 2
        omega
    · exact hstop hcopied h

/-- What a pass of `read` can do: it takes the oldest bytes and delivers just those, or it takes
nothing. -/
theorem PipeEnd.read_cases (h : e.read front p sink = (p', sink', r)) :
    (∃ n, r = some (.ok n) ∧ p.buffer = sink'.bytes.take n ++ p'.buffer ∧
      (n = 0 → sink'.len ≠ 0 → p.writerOpen = false ∧ p.buffer = [])) ∨
    (∀ n, r ≠ some (.ok n)) ∧ p'.buffer = p.buffer := by
  unfold read at h
  dsimp only at h
  split_ifs at h with hdir hlen hbuffer hwriter hnon
  · cases h
    exact .inr ⟨nofun, rfl⟩
  · cases h
    exact .inl ⟨0, rfl, rfl, fun _ hne => absurd hlen hne⟩
  · split at h
    · cases h
      exact .inr ⟨nofun, rfl⟩
    · next sink₁ hcopy =>
      cases h
      obtain ⟨rfl, hfit⟩ := copyOut_eq (Nat.min_le_right _ _) hcopy
      have htake : (p.buffer.take (min sink.len p.buffer.length)).length =
          min sink.len p.buffer.length := length_take_of_le (Nat.min_le_right _ _)
      have hdelivered := Lib.slice_splice (show 0 +
        (p.buffer.take (min sink.len p.buffer.length)).length ≤ sink.bytes.length by
          rw [htake, Nat.zero_add]
          exact hfit)
      rw [htake] at hdelivered
      refine .inl ⟨_, rfl, ?_, fun hzero => ?_⟩
      · exact ((congrArg (· ++ _) hdelivered).trans (take_append_drop _ _)).symm
      · have := length_pos_iff.mpr hbuffer
        omega
  · cases h
    refine .inl ⟨0, rfl, rfl, fun _ _ => ⟨?_, ?_⟩⟩
    · simpa using hwriter
    · simpa using hbuffer
  · cases h
    exact .inr ⟨nofun, rfl⟩
  · cases h
    exact .inr ⟨nofun, rfl⟩

/-- What a pass of `write` can do: it adds the start of its source, as much as it reports and as
fits, or it adds nothing. -/
theorem PipeEnd.write_cases (h : e.write p source = (p', r)) :
    (∃ n ≤ source.len, r = some (.ok n) ∧ p'.buffer = p.buffer ++ source.bytes.take n ∧
      (n = 0 ∨ p.buffer.length + n ≤ capacity)) ∨
    (∀ n, r ≠ some (.ok n)) ∧ p'.buffer = p.buffer ∧
      (r = some (.error .brokenPipe) → p.readerOpen = false) := by
  unfold write at h
  dsimp only at h
  split_ifs at h with hdir hlen hreader hroom hnon
  · cases h
    exact .inr ⟨nofun, rfl, nofun⟩
  · cases h
    exact .inl ⟨0, Nat.zero_le _, rfl, (append_nil _).symm, .inl rfl⟩
  · cases h
    exact .inr ⟨nofun, rfl, fun _ => by simpa using hreader⟩
  · split at h
    · cases h
      exact .inr ⟨nofun, rfl, nofun⟩
    · next copied buffer hcopy =>
      cases h
      obtain ⟨-, hle, rfl⟩ := copyIn_eq (Nat.zero_le _) hcopy
      exact .inl ⟨copied, by omega, rfl, rfl, .inr (by omega)⟩
  · cases h
    exact .inr ⟨nofun, rfl, nofun⟩
  · cases h
    exact .inr ⟨nofun, rfl, nofun⟩

def Event.Ok : Event → Prop
  | .read before sink result =>
    result = .ok 0 → sink.len ≠ 0 → before.writerOpen = false ∧ before.buffer = []
  | .write before after source (.ok n) =>
    n ≤ source.len ∧ after.buffer = before.buffer ++ source.bytes.take n
  | .write before after _ (.error e) =>
    after.buffer = before.buffer ∧ (e = .brokenPipe → before.readerOpen = false)

structure Inv (s : State) : Prop where
  stream : s.accepted = s.returned ++ s.pipe.buffer
  bounded : s.pipe.buffer.length ≤ capacity
  events : ∀ e ∈ s.log, e.Ok

variable {s s' : State}

theorem Inv.quiet (h : Inv s) (hp : p.buffer = s.pipe.buffer) : Inv { s with pipe := p } where
  stream := by rw [hp]; exact h.stream
  bounded := by rw [hp]; exact h.bounded
  events := h.events

theorem Inv.log (h : Inv s) {e : Event} (he : e.Ok)
    (hbytes : s.pipe.buffer ++ e.accepted = e.returned ++ p.buffer)
    (hbounded : p.buffer.length ≤ capacity) : Inv ⟨p, s.log ++ [e]⟩ where
  stream := by
    have haccepted : State.accepted ⟨p, s.log ++ [e]⟩ = s.accepted ++ e.accepted := by
      simp [State.accepted]
    have hreturned : State.returned ⟨p, s.log ++ [e]⟩ = s.returned ++ e.returned := by
      simp [State.returned]
    rw [haccepted, hreturned, h.stream, append_assoc, append_assoc, hbytes]
  bounded := hbounded
  events := forall_mem_append.mpr ⟨h.events, forall_mem_singleton.mpr he⟩

theorem Inv.read (h : Inv s) (e : PipeEnd) (front : ℕ) (sink : IoSink) :
    Inv (s.read e front sink) := by
  unfold State.read
  split
  · next pipe sink' hread =>
    obtain ⟨n, hr, -⟩ | ⟨-, hp⟩ := PipeEnd.read_cases hread
    · cases hr
    · exact h.quiet hp
  · next pipe sink' result hread =>
    obtain ⟨n, hr, hbytes, hzero⟩ | ⟨hr, hp⟩ := PipeEnd.read_cases hread
    · cases hr
      refine h.log (fun hn => hzero (Except.ok.inj hn)) ((append_nil _).trans hbytes) ?_
      have hlen := congrArg length hbytes
      rw [length_append] at hlen
      have := h.bounded
      omega
    · cases result with
      | ok n => exact absurd rfl (hr n)
      | error err =>
        exact h.log nofun ((append_nil _).trans hp.symm) (hp ▸ h.bounded)

theorem Inv.write (h : Inv s) (e : PipeEnd) (source : IoSource) : Inv (s.write e source) := by
  unfold State.write
  split
  · next pipe hwrite =>
    obtain ⟨n, -, hr, -⟩ | ⟨-, hp, -⟩ := PipeEnd.write_cases hwrite
    · cases hr
    · exact h.quiet hp
  · next pipe result hwrite =>
    obtain ⟨n, hn, hr, hp, hroom⟩ | ⟨hr, hp, hbroken⟩ := PipeEnd.write_cases hwrite
    · cases hr
      have hlen : (source.bytes.take n).length = n := length_take_of_le hn
      refine h.log ⟨hn, hp⟩ ?_ ?_
      · simp only [Event.accepted, Event.returned, hp, drop_left, nil_append]
      · rw [hp, length_append]
        have := h.bounded
        omega
    · cases result with
      | ok n => exact absurd rfl (hr n)
      | error err =>
        refine h.log ⟨hp, fun he => hbroken (by rw [he])⟩ ?_ (hp ▸ h.bounded)
        simp only [Event.accepted, Event.returned, hp, drop_length, nil_append,
          append_nil]

theorem inv_of_reachable (h : machine.Reachable s) : Inv s := by
  refine h.invariant ?_ ?_
  · intro s hs
    obtain rfl : s = _ := hs
    exact ⟨rfl, Nat.zero_le _, nofun⟩
  · intro s s' hs hstep
    cases hstep with
    | read e front sink _ => exact hs.read e front sink
    | write e source _ => exact hs.write e source
    | drop d _ => cases d <;> exact hs.quiet rfl

/-- The bytes of a source that a result of `write` stands for. -/
def reported (source : IoSource) : Except PipeError ℕ → List UInt8
  | .ok n => source.bytes.take n
  | .error _ => []

structure Correct (s : State) : Prop where
  /-- The bytes that were read are the first ones that were written; the others wait in order. -/
  stream : s.accepted = s.returned ++ s.pipe.buffer
  bounded : s.pipe.buffer.length ≤ capacity
  /-- A call that writes accepts the number of bytes that it reports, from the start of its source,
  and a call that fails accepts none. -/
  accepts : ∀ before after source result, .write before after source result ∈ s.log →
    (Event.write before after source result).accepted = reported source result
  reports : ∀ before after source n, .write before after source (.ok n) ∈ s.log →
    (Event.write before after source (.ok n)).accepted.length = n
  /-- A small write that reports its whole length stands in one piece in the stream. -/
  contiguous : ∀ earlier later before after source,
    s.log = earlier ++ .write before after source (.ok source.len) :: later →
    source.len ≤ atomicLimit →
    s.accepted = earlier.flatMap Event.accepted ++ source.bytes ++ later.flatMap Event.accepted
  /-- The end of the stream is reported only after the last write end is gone. -/
  eof : ∀ before sink, .read before sink (.ok 0) ∈ s.log → sink.len ≠ 0 →
    before.isOpen .write = false ∧ before.buffer = []
  broken : ∀ before after source, .write before after source (.error .brokenPipe) ∈ s.log →
    before.isOpen .read = false

theorem Event.Ok.accepted_eq {before after : PipeState} {result : Except PipeError ℕ}
    (h : (Event.write before after source result).Ok) :
    (Event.write before after source result).accepted = reported source result := by
  cases result with
  | ok n => simp only [Event.accepted, reported, h.2, drop_left]
  | error e => simp only [Event.accepted, reported, h.1, drop_length]

theorem pipe_stream (h : machine.Reachable s) : Correct s := by
  have hinv := inv_of_reachable h
  refine ⟨hinv.stream, hinv.bounded, ?_, ?_, ?_, ?_, ?_⟩
  · intro before after source result hmem
    exact (hinv.events _ hmem).accepted_eq
  · intro before after source n hmem
    have hok := hinv.events _ hmem
    rw [hok.accepted_eq]
    exact length_take_of_le hok.1
  · intro earlier later before after source hlog _
    have hok := hinv.events (.write before after source (.ok source.len)) (by rw [hlog]; simp)
    have hall : reported source (.ok source.len) = source.bytes := take_length
    rw [State.accepted, hlog, flatMap_append, flatMap_cons, hok.accepted_eq, hall,
      append_assoc]
  · intro before sink hmem hne
    exact hinv.events _ hmem rfl hne
  · intro before after source hmem
    exact (hinv.events _ hmem).2 rfl

theorem pipe_stream_example :
    ∃ s, machine.Reachable s ∧ s.returned = [1, 2] ∧ s.pipe.buffer = [] ∧
      s.log.length = 5 ∧ Correct s := by
  let reader : PipeEnd := ⟨.read, false⟩
  let writer : PipeEnd := ⟨.write, false⟩
  let one : IoSink := ⟨[0], none, fun _ => false⟩
  let s₀ : State := ⟨.new, []⟩
  let s₁ := s₀.write writer ⟨[1, 2], none, fun _ => false⟩
  let s₂ := s₁.read reader 1 ⟨[0, 0], some 0, fun address => address = 1⟩
  let s₃ := s₂.read reader 1 one
  let s₄ : State := { s₃ with pipe := s₃.pipe.drop .write }
  let s₅ := s₄.read reader 1 one
  let s₆ := s₅.read reader 1 one
  have h : machine.Reachable s₀ := .init rfl
  have h : machine.Reachable s₁ := h.step (.write writer _ rfl)
  have h : machine.Reachable s₂ := h.step (.read reader 1 _ (by decide))
  have h : machine.Reachable s₃ := h.step (.read reader 1 one (by decide))
  have h : machine.Reachable s₄ := h.step (.drop .write (by decide))
  have h : machine.Reachable s₅ := h.step (.read reader 1 one (by decide))
  have h : machine.Reachable s₆ := h.step (.read reader 1 one (by decide))
  exact ⟨s₆, h, by decide, by decide, by decide, pipe_stream h⟩

/-- The events of a pipe: bytes that wait are signaled, and writers wait only while there are some. -/
structure PipeState.Awake (p : PipeState) : Prop where
  readable : p.buffer ≠ [] → p.readable = true
  writable : p.writable = false → p.buffer ≠ [] ∧ p.readerOpen = true

theorem PipeEnd.awake_read (h : p.Awake) (front : ℕ) (sink : IoSink) :
    (e.read front p sink).1.Awake := by
  unfold PipeEnd.read
  dsimp only
  split_ifs with hdir hlen hbuffer hwriter hnon
  · exact h
  · exact h
  · split
    · exact h
    · refine ⟨fun hrest => ?_, nofun⟩
      simpa [h.readable hbuffer] using hrest
  · exact h
  · exact h
  · exact ⟨fun hne => absurd hne hbuffer, h.writable⟩

theorem PipeEnd.awake_write (h : p.Awake) (source : IoSource) :
    (e.write p source).1.Awake := by
  unfold PipeEnd.write
  dsimp only
  split_ifs with hdir hlen hreader hroom hnon
  · exact h
  · exact h
  · exact h
  · split
    · exact h
    · next copied buffer hcopy =>
      obtain ⟨-, -, rfl⟩ := copyIn_eq (Nat.zero_le _) hcopy
      refine ⟨fun _ => rfl, fun hfull => ⟨?_, by simpa using hreader⟩⟩
      rw [Bool.and_eq_false_iff] at hfull
      obtain hw | hlen := hfull
      · exact append_ne_nil_of_left_ne_nil (h.writable hw).1 _
      · refine ne_nil_of_length_pos ?_
        simp only [ne_eq, decide_not, Bool.not_eq_false', decide_eq_true_eq] at hlen
        rw [hlen]
        decide
  · exact h
  · refine ⟨h.readable, fun _ => ⟨?_, by simpa using hreader⟩⟩
    -- An empty buffer has room for any write that must stay in one piece.
    intro hnil
    rw [hnil] at hroom
    refine hroom ⟨by decide, ?_⟩
    by_cases hatomic : source.len ≤ atomicLimit
    · exact .inr (hatomic.trans (by decide))
    · simp [hatomic]

theorem State.pipe_read (s : State) (e : PipeEnd) (front : ℕ) (sink : IoSink) :
    (s.read e front sink).pipe = (e.read front s.pipe sink).1 := by
  unfold State.read
  split <;> simp [*]

theorem State.pipe_write (s : State) (e : PipeEnd) (source : IoSource) :
    (s.write e source).pipe = (e.write s.pipe source).1 := by
  unfold State.write
  split <;> simp [*]

/-- Readers sleep only while no byte waits and writers only while some do, so that never both sleep; a
writer is not left asleep once the last reader is gone. -/
theorem pipe_never_stalls (h : machine.Reachable s) : s.pipe.Awake ∧
    (s.pipe.readable = true ∨ s.pipe.writable = true) := by
  have hawake : s.pipe.Awake := by
    refine h.invariant (I := fun s => s.pipe.Awake) ?_ ?_
    · intro s hs
      obtain rfl : s = _ := hs
      exact ⟨nofun, nofun⟩
    · intro s s' hs hstep
      cases hstep with
      | read e front sink _ =>
        rw [State.pipe_read]
        exact PipeEnd.awake_read hs front sink
      | write e source _ =>
        rw [State.pipe_write]
        exact PipeEnd.awake_write hs source
      | drop d _ =>
        cases d with
        | read => exact ⟨hs.readable, nofun⟩
        | write => exact ⟨fun _ => rfl, hs.writable⟩
  refine ⟨hawake, ?_⟩
  by_cases hw : s.pipe.writable = true
  · exact .inr hw
  · exact .inl (hawake.readable (hawake.writable (by simpa using hw)).1)

theorem pipe_never_stalls_example :
    ((⟨.new, []⟩ : State).write ⟨.write, false⟩ ⟨[1], none, fun _ => false⟩).pipe.readable = true :=
  (pipe_never_stalls ((Lib.Machine.Reachable.init rfl).step (.write _ _ rfl))).1.readable (by decide)

end Roanix.Proc.Pipe
