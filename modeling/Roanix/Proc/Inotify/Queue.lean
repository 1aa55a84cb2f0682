import Roanix.Proc.Inotify.Basic

/-! The record queue: what is counted, when the overflow record is in it, and what a read takes. -/
namespace Roanix.Proc.InotifyM
open Lib Lib.Act List
open Mem.Io

variable {κ : Type} [LinearOrder κ] {s : Inotify κ} {wd : ℤ} {mask cookie : UInt32}
  {name : Option (List UInt8)}
variable {record : Record} {s' : Inotify κ} {rest : List Record}

@[simp] theorem length_toNeBytes (x : UInt32) : (toNeBytes x).length = 4 := rfl

@[simp] theorem fromNeBytes_toNeBytes (x : UInt32) : fromNeBytes (toNeBytes x) = x := by
  have hx := x.toNat_lt
  apply UInt32.toNat_inj.mp
  simp only [toNeBytes, fromNeBytes, UInt8.toNat_ofNat', UInt32.toNat_ofNat']
  omega

theorem name_le_padded (name : Option (List UInt8)) :
    (name.getD []).length ≤ paddedNameLength name := by
  unfold paddedNameLength
  cases name with
  | none => exact Nat.zero_le _
  | some name =>
    simp only [Option.getD_some, Option.elim_some]
    omega

@[simp] theorem length_encodeRecord (wd : ℤ) (mask cookie : UInt32)
    (name : Option (List UInt8)) :
    (encodeRecord wd mask cookie name).length = eventHeaderSize + paddedNameLength name := by
  have := name_le_padded name
  simp only [encodeRecord, length_append, length_toNeBytes, length_replicate,
    eventHeaderSize]
  omega

@[simp] theorem eventMask_encodeRecord (wd : ℤ) (mask cookie : UInt32)
    (name : Option (List UInt8)) : eventMask (encodeRecord wd mask cookie name) = mask := by
  have hmask : ((encodeRecord wd mask cookie name).drop 4).take 4 = toNeBytes mask := rfl
  rw [eventMask, hmask, fromNeBytes_toNeBytes]

/-- The record carries the overflow bit, which is all that `read` looks at. -/
def IsOverflow (record : Record) : Prop := eventMask record &&& inQOverflow ≠ 0

instance : DecidablePred IsOverflow := fun _ => inferInstanceAs (Decidable (_ ≠ _))

theorem isOverflow_encodeRecord :
    IsOverflow (encodeRecord wd mask cookie name) ↔ mask &&& inQOverflow ≠ 0 := by
  rw [IsOverflow, eventMask_encodeRecord]

theorem isOverflow_overflowRecord : IsOverflow overflowRecord :=
  isOverflow_encodeRecord.mpr (by decide)

theorem length_overflowRecord : overflowRecord.length = eventHeaderSize := by
  rfl

/-- The bytes are those of the queue, and the latch is set exactly while the overflow record is
queued. -/
structure QueueOk (s : Inotify κ) : Prop where
  header : ∀ record ∈ s.queue, eventHeaderSize ≤ record.length
  bytes : s.queuedBytes = (s.queue.map List.length).sum
  bound : s.queuedBytes ≤ maxQueueBytes + if s.overflowed then eventHeaderSize else 0
  latch : s.queue.filter IsOverflow = if s.overflowed then [overflowRecord] else []

theorem QueueOk.overflow_queued (hs : QueueOk s) (ho : s.overflowed = true) :
    overflowRecord ∈ s.queue := by
  have hlatch := hs.latch
  rw [if_pos ho] at hlatch
  exact (mem_filter.mp (hlatch ▸ mem_singleton_self overflowRecord)).1

theorem QueueOk.header_push (hs : QueueOk s) (h : eventHeaderSize ≤ record.length) :
    ∀ r ∈ s.queue ++ [record], eventHeaderSize ≤ r.length :=
  forall_mem_append.mpr ⟨hs.header, forall_mem_singleton.mpr h⟩

theorem queueRecord_cases (wd : ℤ) (mask cookie : UInt32) (name : Option (List UInt8))
    (s : Inotify κ) :
    (s.overflowed = true ∧ queueRecord wd mask cookie name s = s) ∨
    (s.overflowed = false ∧ queueRecord wd mask cookie name s =
      { s with
        overflowed := true
        queuedBytes := s.queuedBytes + overflowRecord.length
        queue := s.queue ++ [overflowRecord] }) ∨
    (s.queuedBytes + (encodeRecord wd mask cookie name).length ≤ maxQueueBytes ∧
      queueRecord wd mask cookie name s =
      { s with
        queuedBytes := s.queuedBytes + (encodeRecord wd mask cookie name).length
        queue := s.queue ++ [encodeRecord wd mask cookie name] }) := by
  unfold queueRecord
  rw [length_encodeRecord]
  split_ifs with hfull ho
  · exact .inl ⟨ho, rfl⟩
  · exact .inr (.inl ⟨Bool.not_eq_true _ ▸ ho, rfl⟩)
  · exact .inr (.inr ⟨Nat.le_of_not_gt hfull, rfl⟩)

theorem QueueOk.queueRecord (hs : QueueOk s) (hmask : mask &&& inQOverflow = 0) :
    QueueOk (queueRecord wd mask cookie name s) := by
  have hbytes := hs.bytes
  have hbound := hs.bound
  have hlatch := hs.latch
  obtain ⟨-, he⟩ | ⟨ho, he⟩ | ⟨hfit, he⟩ := queueRecord_cases wd mask cookie name s
  · rw [he]
    exact hs
  · rw [he]
    rw [ho] at hbound hlatch
    refine ⟨?_, ?_, ?_, ?_⟩
    · exact hs.header_push (Nat.le_of_eq length_overflowRecord.symm)
    · simp only [map_append, sum_append, ← hbytes, map_cons, map_nil,
        sum_singleton]
    · rw [length_overflowRecord]
      simpa using hbound
    · simp [filter_append, hlatch, isOverflow_overflowRecord]
  · have hplain : ¬ IsOverflow (encodeRecord wd mask cookie name) :=
      fun h => isOverflow_encodeRecord.mp h hmask
    rw [he]
    refine ⟨?_, ?_, Nat.le_add_right_of_le hfit, ?_⟩
    · refine hs.header_push ?_
      rw [length_encodeRecord]
      exact Nat.le_add_right _ _
    · simp only [map_append, sum_append, ← hbytes, map_cons, map_nil,
        sum_singleton]
    · simp [filter_append, hlatch, hplain]

/-- A call with these events to report queued them in this order. If it lost any, the overflow
record is in the queue, so that no loss is silent. -/
structure Queued (s : Inotify κ) (events : List Record) (s' : Inotify κ) : Prop where
  grows : s.queue <+: s'.queue
  all : s'.queue = s.queue ++ events ∨ overflowRecord ∈ s'.queue

theorem Queued.of_eq (h : s'.queue = s.queue) : Queued s [] s' where
  grows := h ▸ prefix_rfl
  all := .inl (by rw [h, append_nil])

theorem Queued.trans {s'' : Inotify κ} {events events' : List Record} (h : Queued s events s')
    (h' : Queued s' events' s'') : Queued s (events ++ events') s'' where
  grows := h.grows.trans h'.grows
  all := by
    rcases h.all with hall | hlost
    · rcases h'.all with hall' | hlost'
      · exact .inl (by rw [hall', hall, append_assoc])
      · exact .inr hlost'
    · exact .inr (h'.grows.subset hlost)

theorem QueueOk.queued (hs : QueueOk s) :
    Queued s [encodeRecord wd mask cookie name] (InotifyM.queueRecord wd mask cookie name s) := by
  obtain ⟨ho, he⟩ | ⟨-, he⟩ | ⟨-, he⟩ := queueRecord_cases wd mask cookie name s
  · rw [he]
    exact ⟨prefix_rfl, .inr (hs.overflow_queued ho)⟩
  · rw [he]
    exact ⟨prefix_append _ _, .inr (mem_append_right _ (mem_singleton_self _))⟩
  · rw [he]
    exact ⟨prefix_append _ _, .inl rfl⟩

theorem queueRecord_frame (wd : ℤ) (mask cookie : UInt32) (name : Option (List UInt8))
    (s : Inotify κ) :
    (queueRecord wd mask cookie name s).watches = s.watches ∧
      (queueRecord wd mask cookie name s).byKey = s.byKey ∧
      (queueRecord wd mask cookie name s).nextWatch = s.nextWatch ∧
      (queueRecord wd mask cookie name s).nonblocking = s.nonblocking := by
  obtain ⟨-, he⟩ | ⟨-, he⟩ | ⟨-, he⟩ := queueRecord_cases wd mask cookie name s <;>
    rw [he] <;> exact ⟨rfl, rfl, rfl, rfl⟩

theorem QueueOk.popFront (hs : QueueOk s) (hq : s.queue = record :: rest) :
    QueueOk (popFront record rest s) := by
  have hbytes := hs.bytes
  have hbound := hs.bound
  have hlatch := hs.latch
  have hheader : ∀ r ∈ rest, eventHeaderSize ≤ r.length := fun r hr =>
    hs.header r (hq ▸ mem_cons_of_mem _ hr)
  rw [hq, map_cons, sum_cons] at hbytes
  rw [hq, filter_cons] at hlatch
  by_cases hover : IsOverflow record
  · -- the record that leaves is the one that the latch stands for
    rw [if_pos (decide_eq_true hover)] at hlatch
    have ho : s.overflowed = true := by
      by_contra ho
      rw [if_neg ho] at hlatch
      cases hlatch
    rw [if_pos ho] at hlatch hbound
    obtain ⟨rfl, hrest⟩ := cons.inj hlatch
    rw [length_overflowRecord] at hbytes
    have hclear : (InotifyM.popFront overflowRecord rest s).overflowed = false :=
      show (if IsOverflow overflowRecord then false else s.overflowed) = false from
        if_pos isOverflow_overflowRecord
    refine ⟨hheader, ?_, ?_, ?_⟩
    · simp only [InotifyM.popFront, length_overflowRecord]
      omega
    · rw [hclear]
      simp only [InotifyM.popFront, length_overflowRecord]
      omega
    · rw [hclear]
      exact hrest
  · rw [if_neg (by simpa using hover)] at hlatch
    have hkeep : (InotifyM.popFront record rest s).overflowed = s.overflowed := if_neg hover
    refine ⟨hheader, ?_, ?_, ?_⟩
    · simp only [InotifyM.popFront]
      omega
    · rw [hkeep]
      exact (Nat.sub_le _ _).trans hbound
    · rw [hkeep]
      exact hlatch

/-- What a read leaves of an instance: the records it did not deliver, and all else as it was. -/
structure Took (s : Inotify κ) (front : List Record) (s' : Inotify κ) : Prop where
  queue : s.queue = front ++ s'.queue
  ok : QueueOk s → QueueOk s'
  watches : s'.watches = s.watches
  byKey : s'.byKey = s.byKey
  nextWatch : s'.nextWatch = s.nextWatch

theorem Took.nil (s : Inotify κ) : Took s [] s := ⟨rfl, id, rfl, rfl, rfl⟩

theorem Took.cons {front : List Record} (hq : s.queue = record :: rest)
    (h : Took (popFront record rest s) front s') : Took s (record :: front) s' where
  queue := by rw [hq, cons_append, ← h.queue]; rfl
  ok hs := h.ok (hs.popFront hq)
  watches := h.watches
  byKey := h.byKey
  nextWatch := h.nextWatch

/-- The loop delivers a number of whole records from the front. Bytes of one more record may follow
them in the buffer if its copy failed, but they are not counted. -/
theorem deliver_spec {records : List Record} (written : ℕ) (sink : IoSink)
    (hq : s.queue = records) (hw : written ≤ sink.len) :
    ∃ front extra sink' s', Took s front s' ∧
      sink' = sink.copyFromSlice written (front.flatten ++ extra) ∧
      written + (front.flatten ++ extra).length ≤ sink.len ∧
      ((deliver records written sink s = (true, written + front.flatten.length, sink', s')) ∨
        (deliver records written sink s = (false, written + front.flatten.length, sink', s') ∧
          extra = [] ∧ ∀ record ∈ s'.queue.head?,
            sink.len < written + front.flatten.length + record.length)) := by
  have hnothing : sink = sink.copyFromSlice written ([].flatten ++ []) :=
    (sink.copyFromSlice_nil written).symm
  induction records generalizing s written sink with
  | nil =>
    refine ⟨[], [], sink, s, .nil s, hnothing, hw, .inr ⟨rfl, rfl, ?_⟩⟩
    rw [hq]
    exact fun record h => by cases h
  | cons record rest ih =>
    unfold deliver
    split_ifs with hfit
    · refine ⟨[], [], sink, s, .nil s, hnothing, hw, .inr ⟨rfl, rfl, ?_⟩⟩
      rw [hq]
      exact fun r h => Option.some.inj h ▸ hfit
    obtain ⟨k, hk, hstored, -⟩ := sink.store_spec written record
    split
    · next sink' heq =>
      rw [heq] at hstored
      have hlen : (record.take k).length = k := length_take_of_le hk
      refine ⟨[], record.take k, sink', s, .nil s, hstored, ?_, .inl rfl⟩
      rw [flatten_nil, nil_append]
      omega
    · next sink' heq =>
      obtain ⟨rfl, hroom⟩ := IoSink.store_eq heq
      have hlen := IoSink.len_copyFromSlice hroom
      obtain ⟨front, extra, sink', s', htook, hsink, hin, hres⟩ :=
        @ih (popFront record rest s) (written + record.length)
          (sink.copyFromSlice written record) rfl (by omega) (IoSink.copyFromSlice_nil _ _).symm
      have hflat : (record :: front).flatten ++ extra = record ++ (front.flatten ++ extra) := by
        rw [flatten_cons, append_assoc]
      have hsum : written + (record :: front).flatten.length =
          written + record.length + front.flatten.length := by
        rw [flatten_cons, length_append, Nat.add_assoc]
      have hall : written + (record ++ (front.flatten ++ extra)).length ≤ sink.len := by
        rw [length_append]
        omega
      refine ⟨record :: front, extra, sink', s', htook.cons hq, ?_, ?_, ?_⟩
      · rw [hsink, hflat, IoSink.copyFromSlice_append hall]
      · rw [hflat]
        exact hall
      · rw [hsum]
        rwa [hlen] at hres

/-- What a read does to the queue: it takes the whole records whose bytes it says it wrote, and
none at all unless it returns a length. -/
theorem read_spec (hs : QueueOk s) (sink : IoSink) :
    ∃ front, Took s front (read sink s).2.2 ∧
      match (read sink s).1 with
      | .done n => front ≠ [] ∧ n = front.flatten.length ∧
          slice (read sink s).2.1.bytes 0 n = front.flatten
      | _ => front = [] := by
  unfold read
  split
  · refine ⟨[], .nil s, ?_⟩
    cases s.nonblocking <;> rfl
  next first rest hq =>
  split_ifs with hfit
  · exact ⟨[], .nil s, rfl⟩
  obtain ⟨front, extra, sink', s', htook, hsink, hin, hres⟩ :=
    deliver_spec 0 sink hq (Nat.zero_le _)
  rw [Nat.zero_add] at hin hres
  have hbytes : slice sink'.bytes 0 front.flatten.length = front.flatten := by
    rw [hsink]
    exact Lib.slice_splice_append (by rwa [Nat.zero_add])
  -- a record is never empty, so no bytes means no record
  have hnone : front.flatten.length = 0 → front = [] := by
    intro hzero
    cases front with
    | nil => rfl
    | cons record front =>
      have := hs.header record (htook.queue ▸ mem_cons_self)
      rw [flatten_cons, length_append] at hzero
      simp only [eventHeaderSize] at this
      omega
  refine ⟨front, ?_⟩
  rcases hres with hres | ⟨hres, -, hnext⟩
  · rw [hres]
    dsimp only
    split_ifs with hzero
    · exact ⟨htook, hnone hzero.2⟩
    · exact ⟨htook, fun hf => hzero ⟨rfl, by rw [hf]; rfl⟩, rfl, hbytes⟩
  · rw [hres]
    dsimp only
    refine ⟨htook, fun hf => ?_, rfl, hbytes⟩
    -- the first record was found to fit
    have hqueue := htook.queue
    rw [hf, nil_append, hq] at hqueue
    have := hnext first (by rw [← hqueue]; rfl)
    rw [hf, flatten_nil, length_nil] at this
    omega

/-- What a record tells. A name is a part of a path. -/
@[ext] structure Event where
  wd : ℤ
  mask : UInt32
  cookie : UInt32
  name : Option (List UInt8)
  wd_bounds : -2 ^ 31 ≤ wd ∧ wd < 2 ^ 31
  name_zero : 0 ∉ name.getD []
  padded_lt : paddedNameLength name < 2 ^ 32

namespace Event
variable {e e' : Event} {rest rest' : List UInt8}

def encode (e : Event) : Record := encodeRecord e.wd e.mask e.cookie e.name

theorem ofInt_wd (h : UInt32.ofInt e.wd = UInt32.ofInt e'.wd) : e.wd = e'.wd := by
  have hw := congrArg UInt32.toNat h
  have := e.wd_bounds
  have := e'.wd_bounds
  simp only [UInt32.ofInt, UInt32.toNat_ofNat'] at hw
  omega

theorem ofNat_padded (h : UInt32.ofNat (paddedNameLength e.name) =
    UInt32.ofNat (paddedNameLength e'.name)) : paddedNameLength e.name = paddedNameLength e'.name := by
  have hn := congrArg UInt32.toNat h
  have := e.padded_lt
  have := e'.padded_lt
  simp only [UInt32.toNat_ofNat'] at hn
  omega

theorem takeWhile_padded (e : Event) (n : ℕ) :
    (e.name.getD [] ++ replicate n 0).takeWhile (· ≠ 0) = e.name.getD [] := by
  have hname : ∀ b ∈ e.name.getD [], decide (b ≠ 0) = true := fun b hb =>
    decide_eq_true fun hz => e.name_zero (hz ▸ hb)
  rw [takeWhile_append_of_pos hname]
  cases n <;> simp [replicate_succ]

/-- A record says where it ends. -/
theorem encode_unique (h : e.encode ++ rest = e'.encode ++ rest') : e = e' ∧ rest = rest' := by
  have hinj : Function.Injective toNeBytes := Function.LeftInverse.injective fromNeBytes_toNeBytes
  have hle := name_le_padded e.name
  have hle' := name_le_padded e'.name
  simp only [encode, encodeRecord, append_assoc] at h
  obtain ⟨hwd, h⟩ := append_inj h rfl
  obtain ⟨hmask, h⟩ := append_inj h rfl
  obtain ⟨hcookie, h⟩ := append_inj h rfl
  obtain ⟨hpad, h⟩ := append_inj h rfl
  have hpad := ofNat_padded (hinj hpad)
  rw [← append_assoc, ← append_assoc] at h
  obtain ⟨hname, hrest⟩ := append_inj h (by simp only [length_append, length_replicate]; omega)
  have hname : e.name.getD [] = e'.name.getD [] := by
    rw [← e.takeWhile_padded, hname, takeWhile_padded]
  refine ⟨Event.ext (ofInt_wd (hinj hwd)) (hinj hmask) (hinj hcookie) ?_, hrest⟩
  unfold paddedNameLength at hpad
  cases hn : e.name <;> cases hn' : e'.name <;> simp_all

end Event

/-- No two lists of events give a reader the same bytes. -/
theorem records_unique : Function.Injective fun events : List Event => events.flatMap Event.encode := by
  intro events
  induction events with
  | nil =>
    intro events' h
    cases events' with
    | nil => rfl
    | cons e' events' => cases h
  | cons e events ih =>
    intro events' h
    cases events' with
    | nil => cases h
    | cons e' events' =>
      obtain ⟨rfl, hrest⟩ := Event.encode_unique h
      rw [ih hrest]

end Roanix.Proc.InotifyM
