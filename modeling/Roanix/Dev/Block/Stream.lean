import Roanix.Dev.Block.Bytes

/-! Transfers of any length: a read delivers batches into windows of a caller's buffer, a write
gathers batches from one. Each reports how far it came. -/
namespace Roanix.Dev.Block
open List
open Lib (Act slice splice)
open Lib.Act
open Mem.Io
variable {env : Env} {b : BlockDevice} {d d' d'' : Disk}

def Trouble (d d' : Disk) : Prop := d.failures < d'.failures ∨ d.refused < d'.refused

/-- The contents stayed; only the log of the device changed. -/
structure Kept (b : BlockDevice) (d d' : Disk) : Prop where
  ok : d'.Ok b
  bytes_eq : d'.bytes = d.bytes
  failures : d.failures ≤ d'.failures
  refused : d.refused ≤ d'.refused

theorem Mixed.eq {old mid : List UInt8} (h : Mixed old old mid) : mid = old := by
  apply ext_getElem?
  intro i
  rcases h i with h | h <;> exact h

theorem Became.kept (h : Became b d d' d.bytes) : Kept b d d' :=
  ⟨h.ok, h.bytes_eq, h.failures.ge, h.refused.ge⟩

theorem Failed.kept (h : Failed b d d' d.bytes) : Kept b d d' ∧ Trouble d d' := by
  rcases h with h | h
  · exact ⟨⟨h.ok, h.bytes_eq, h.failures.ge, h.refused.le⟩, .inr h.refused⟩
  · exact ⟨⟨h.ok, h.mixed.eq, h.failures.le, h.refused.ge⟩, .inl h.failures⟩

theorem Kept.trans (h : Kept b d d') (h' : Kept b d' d'') : Kept b d d'' :=
  ⟨h'.ok, h'.bytes_eq.trans h.bytes_eq, h.failures.trans h'.failures, h.refused.trans h'.refused⟩

theorem Kept.trouble (h : Kept b d d') (h' : Trouble d' d'') : Trouble d d'' :=
  h'.imp h.failures.trans_lt h.refused.trans_lt

@[simp] theorem wp_onDisk {α : Type} {T : Panic → Prop} (m : BlockM α)
    (Q : Except Error α → Delivery → Prop) (E : FsError → Delivery → Prop) (s : Delivery) :
    wp T (onDisk m) Q E s = wp T m (fun a disk => Q (.ok a) { s with disk })
      (fun e disk => Q (.error e) { s with disk }) s.disk := by
  unfold onDisk
  rw [wp_zoom, wp_attempt]

/-- How a batch ends in the caller's buffer. -/
structure Delivered (data : List UInt8) (done : ℕ) (s s' : Delivery) (k : ℕ) : Prop where
  disk_eq : s'.disk = s.disk
  within : k ≤ data.length
  sink_eq : s'.sink = s.sink.copyFromSlice done (data.take k)

theorem Delivered.next {data : List UInt8} {done count k : ℕ} {s s' : Delivery}
    (hcount : count ≤ data.length) (hfit : done + data.length ≤ s.sink.len)
    (h : Delivered (data.drop count) (done + count)
      { s with sink := s.sink.copyFromSlice done (data.take count) } s' k) :
    Delivered data done s s' (count + k) where
  disk_eq := h.disk_eq
  within := by
    have := h.within
    rw [length_drop] at this
    omega
  sink_eq := by
    have htake : (data.take count).length = count := length_take_of_le hcount
    have hall : done + (data.take count ++ (data.drop count).take k).length ≤ s.sink.len := by
      rw [← take_add, length_take]
      omega
    have happend := IoSink.copyFromSlice_append hall
    rw [htake, ← take_add] at happend
    exact h.sink_eq.trans happend

theorem deliver_spec {data : List UInt8} {fuel done copied : ℕ} {s : Delivery}
    (hfuel : data.length - copied ≤ fuel) (hcopied : copied ≤ data.length)
    (hfit : done + (data.length - copied) ≤ s.sink.len) (hdone : copied ≤ done)
    (hword : done + (data.length - copied) < 2 ^ 64) :
    wp (fun _ => False) (deliver data fuel done copied)
      (fun r s' => ∃ k, Delivered (data.drop copied) done s s' k ∧
        match r with
        | .next n => n = done + k ∧ k = data.length - copied
        | .return n => n = done + k ∧ n ≠ 0 ∧ ¬ s.sink.Accessible)
      (fun _ s' => s' = s ∧ done = 0 ∧ ¬ s.sink.Accessible) s := by
  have hnone : Delivered (data.drop copied) done s s 0 :=
    ⟨rfl, Nat.zero_le _, (s.sink.copyFromSlice_nil done).symm⟩
  induction fuel generalizing done copied s with
  | zero => exact ⟨0, hnone, rfl, by omega⟩
  | succ fuel ih =>
    unfold deliver
    split
    · next hlt =>
      rw [wp_bind, wp_get]
      split
      · next hw =>
        have haccess := Buffer.window_eq_none (by omega) hw
        split_ifs with hzero
        · exact ⟨0, hnone, rfl, hzero, haccess⟩
        · exact ⟨rfl, not_not.mp hzero, haccess⟩
      · next hw =>
        obtain ⟨-, -, hempty⟩ := Buffer.window_spec hw
        omega
      · next count hne hw =>
        obtain ⟨hmax, -, -⟩ := Buffer.window_spec hw
        have hpos : count ≠ 0 := fun hz => hne (by rw [hz])
        have hlen : (data.drop copied).length = data.length - copied := length_drop
        have hstored : done + ((data.drop copied).take count).length ≤ s.sink.len := by
          rw [length_take_of_le (by omega)]
          omega
        have hlen' := IoSink.len_copyFromSlice hstored
        simp only [wp_bind, wp_set]
        rw [wp_add (by omega), wp_add (by omega)]
        refine wp_imp (@ih (done + count) (copied + count)
          { s with sink := s.sink.copyFromSlice done ((data.drop copied).take count) } (by omega)
          (by omega) (by dsimp only; omega) (by omega) (by omega)
          ⟨rfl, Nat.zero_le _, (IoSink.copyFromSlice_nil _ _).symm⟩) ?_ ?_
        · rintro r s' ⟨k, hk, hr⟩
          rw [← drop_drop] at hk
          refine ⟨count + k, hk.next (by omega) (by omega), ?_⟩
          cases r with
          | next n => exact ⟨by omega, by omega⟩
          | «return» n =>
            obtain ⟨hn, hn0, haccess⟩ := hr
            exact ⟨by omega, hn0, mt (IoSink.accessible_copyFromSlice hstored).mpr haccess⟩
        · rintro _ s' ⟨-, hzero, -⟩
          omega
    · exact ⟨0, hnone, rfl, by omega⟩

/-- What a read has put in the caller's buffer: `n` bytes of the device from `offset` on. -/
structure Read (b : BlockDevice) (offset done : ℕ) (s s' : Delivery) (n : ℕ) : Prop where
  kept : Kept b s.disk s'.disk
  sink_eq : s'.sink = s.sink.copyFromSlice done (slice s.disk.bytes offset n)

def Interrupted (s s' : Delivery) : Prop := Trouble s.disk s'.disk ∨ ¬ s.sink.Accessible

section Read
variable {offset done k n : ℕ} {s s' s'' : Delivery}

theorem Read.zero (h : Kept b s.disk s'.disk) (hsink : s'.sink = s.sink) :
    Read b offset done s s' 0 where
  kept := h
  sink_eq := by
    rw [hsink]
    exact (s.sink.copyFromSlice_nil done).symm

theorem Delivered.read {disk : Disk} (hdisk : Kept b s.disk disk)
    (h : Delivered (slice s.disk.bytes offset n) done { s with disk } s' k) :
    Read b offset done s s' k where
  kept := h.disk_eq ▸ hdisk
  sink_eq := by
    have hk : k ≤ n := h.within.trans (length_take_le _ _)
    rw [h.sink_eq]
    unfold slice
    rw [take_take, Nat.min_eq_left hk]

theorem Read.trans (h : Read b offset done s s' k)
    (h' : Read b (offset + k) (done + k) s' s'' n)
    (hfit : done + (k + n) ≤ s.sink.len) (hin : offset + (k + n) ≤ s.disk.bytes.length) :
    Read b offset done s s'' (k + n) where
  kept := h.kept.trans h'.kept
  sink_eq := by
    have hk : (slice s.disk.bytes offset k).length = k := Lib.length_slice (by omega)
    have hn : (slice s.disk.bytes (offset + k) n).length = n := Lib.length_slice (by omega)
    have hall : done + (slice s.disk.bytes offset k ++
        slice s.disk.bytes (offset + k) n).length ≤ s.sink.len := by
      rw [length_append]
      omega
    have happend := IoSink.copyFromSlice_append hall
    rw [hk, ← Lib.slice_append] at happend
    rw [h'.sink_eq, h.kept.bytes_eq, h.sink_eq]
    exact happend

theorem Read.len (h : Read b offset done s s' k) (hfit : done + k ≤ s.sink.len) :
    s'.sink.len = s.sink.len ∧ (s'.sink.Accessible ↔ s.sink.Accessible) := by
  have hstored : done + (slice s.disk.bytes offset k).length ≤ s.sink.len :=
    (Nat.add_le_add_left (length_take_le _ _) done).trans hfit
  rw [h.sink_eq]
  exact ⟨IoSink.len_copyFromSlice hstored, IoSink.accessible_copyFromSlice hstored⟩

end Read

theorem readBatches_spec {offset length fuel done : ℕ} {s : Delivery}
    (h : s.disk.Ok env.device) (hfuel : length - done ≤ fuel) (hdone : done ≤ length)
    (hfit : length ≤ s.sink.len) (hin : offset + length ≤ env.device.sizeBytes) :
    wp (fun _ => False) (readBatches env offset length fuel done)
      (fun n s' => done ≤ n ∧ n ≤ length ∧
        Read env.device (offset + done) done s s' (n - done) ∧ (n < length → Interrupted s s'))
      (fun _ s' => done = 0 ∧ Read env.device (offset + done) done s s' 0 ∧ Interrupted s s') s := by
  have hsize := env.device.accepted.size_lt
  have hbytes := h.size
  have hbs := env.device.accepted.min_size
  rw [env.device.sizeBytes_eq] at hin
  have hstop : Read env.device (offset + done) done s s (done - done) := by
    rw [Nat.sub_self]
    exact .zero ⟨h, rfl, le_rfl, le_rfl⟩ rfl
  induction fuel generalizing done s with
  | zero => exact ⟨le_rfl, hdone, hstop, by omega⟩
  | succ fuel ih =>
    unfold readBatches
    split
    · next hlt =>
      rw [wp_bind, wp_add (by omega), wp_bind, wp_onDisk]
      generalize htake : min (min length ioBatchBytes) (length - done) = take
      have hbatch : 0 < take ∧ take ≤ 131072 := by
        unfold ioBatchBytes at htake
        omega
      refine wp_imp (readBytes_spec h (by omega)) ?_ ?_
      · rintro data d₁ ⟨hd₁, hdata⟩
        have hall : min take (env.device.sizeBytes - (offset + done)) = take := by
          rw [env.device.sizeBytes_eq]
          omega
        rw [hall] at hdata
        have hlen : data.length = take := by
          rw [hdata]
          exact Lib.length_slice (by omega)
        dsimp only
        rw [if_pos hlen, wp_bind]
        refine wp_imp (deliver_spec (by omega) (Nat.zero_le _)
          (show done + (data.length - 0) ≤ s.sink.len by omega) (Nat.zero_le _) (by omega)) ?_ ?_
        · rintro r s₂ ⟨k, hk, hr⟩
          rw [drop_zero] at hk
          have hwithin := hk.within
          rw [hdata] at hk
          have hread := hk.read hd₁.kept
          have hs₂ := hread.len (by omega)
          cases r with
          | next n =>
            obtain ⟨rfl, rfl⟩ := hr
            have hok : s₂.disk.bytes.length = _ := hread.kept.ok.size
            refine wp_imp (ih hread.kept.ok (by omega) (by omega) (by omega) hok ?_) ?_ ?_
            · rw [Nat.sub_self]
              exact .zero ⟨hread.kept.ok, rfl, le_rfl, le_rfl⟩ rfl
            · rintro n s₃ ⟨hn, hn', hread', hend⟩
              rw [← Nat.add_assoc] at hread'
              have htrans := hread.trans hread' (by omega) (by omega)
              rw [show data.length - 0 + (n - (done + (data.length - 0))) = n - done by omega]
                at htrans
              exact ⟨by omega, hn', htrans, fun hlt =>
                (hend hlt).imp hread.kept.trouble (mt (hread.len (by omega)).2.mpr)⟩
            · rintro _ s₃ ⟨hzero, -⟩
              omega
          | «return» n =>
            obtain ⟨rfl, hzero, haccess⟩ := hr
            rw [wp_pure, Nat.add_sub_cancel_left]
            exact ⟨Nat.le_add_right _ _, by omega, hread, fun _ => .inr haccess⟩
        · rintro _ s₂ ⟨rfl, hzero, haccess⟩
          exact ⟨hzero, .zero hd₁.kept rfl, .inr haccess⟩
      · intro e d₁ hd₁
        obtain ⟨hkept, htrouble⟩ := hd₁.kept
        split_ifs with hzero
        · rw [wp_pure, Nat.sub_self]
          exact ⟨le_rfl, hdone, .zero hkept rfl, fun _ => .inl htrouble⟩
        · exact ⟨not_not.mp hzero, .zero hkept rfl, .inl htrouble⟩
    · exact ⟨le_rfl, hdone, hstop, by omega⟩

/-- A read into a caller's buffer delivers bytes of the device, and stops early only if something
failed. -/
theorem readInto_spec {offset : ℕ} {s : Delivery} (h : s.disk.Ok env.device) :
    wp (fun _ => False) (readInto env offset)
      (fun n s' => n ≤ min s.sink.len (env.device.sizeBytes - offset) ∧
        Read env.device offset 0 s s' n ∧
        (n < min s.sink.len (env.device.sizeBytes - offset) → Interrupted s s'))
      (fun _ s' => Read env.device offset 0 s s' 0 ∧ Interrupted s s') s := by
  unfold readInto
  rw [wp_bind, wp_get]
  generalize hlength : min s.sink.len (env.device.sizeBytes - offset) = length
  dsimp only
  split_ifs with hzero
  · exact ⟨Nat.zero_le _, .zero ⟨h, rfl, le_rfl, le_rfl⟩ rfl, by omega⟩
  · rw [wp_bind, wp_onDisk]
    refine wp_imp (blockBuffer_spec h) ?_ ?_
    · intro _ d₁ hd₁
      have hkept := hd₁.kept
      have hbefore {s' : Delivery} (hs : Interrupted { s with disk := d₁ } s') : Interrupted s s' :=
        hs.imp_left hkept.trouble
      refine wp_imp (readBatches_spec hd₁.ok (Nat.sub_le _ _)
        (Nat.zero_le _) (show length ≤ s.sink.len by omega) (by omega)) ?_ ?_
      · rintro n s' ⟨-, hn, hread, hend⟩
        exact ⟨hn, ⟨hkept.trans hread.kept, hd₁.bytes_eq ▸ hread.sink_eq⟩,
          fun hlt => hbefore (hend hlt)⟩
      · rintro _ s' ⟨-, hread, hend⟩
        exact ⟨⟨hkept.trans hread.kept, hd₁.bytes_eq ▸ hread.sink_eq⟩, hbefore hend⟩
    · intro e d₁ hd₁
      exact ⟨.zero (Failed.kept (.inl hd₁)).1 rfl, .inl (.inr hd₁.refused)⟩

/-- What a write of `buffer` leaves when it reports `n` bytes of it. -/
structure Stored (b : BlockDevice) (d d' : Disk) (offset : ℕ) (buffer : List UInt8) (n : ℕ) :
    Prop where
  ok : d'.Ok b
  within : n ≤ buffer.length
  inside : n = 0 ∨ offset + n ≤ d.bytes.length
  failures : d.failures ≤ d'.failures
  stored : slice d'.bytes offset n = buffer.take n
  /-- Without a failed call, nothing else was written. -/
  exact : d'.failures = d.failures → d'.bytes = splice d.bytes offset (buffer.take n)
  frame : ∀ i, i < offset ∨ offset + buffer.length ≤ i → d'.bytes[i]? = d.bytes[i]?

section Stored
variable {offset k n : ℕ} {buffer : List UInt8}

theorem Stored.zero (hok : d'.Ok b) (hfailures : d.failures ≤ d'.failures)
    (hbytes : d'.failures = d.failures → d'.bytes = d.bytes)
    (hframe : ∀ i, i < offset ∨ offset + buffer.length ≤ i → d'.bytes[i]? = d.bytes[i]?) :
    Stored b d d' offset buffer 0 where
  ok := hok
  within := Nat.zero_le _
  inside := .inl rfl
  failures := hfailures
  stored := by rw [Lib.slice_zero, take_zero]
  exact h := by
    rw [take_zero, Lib.splice_nil]
    exact hbytes h
  frame := hframe

theorem getElem?_splice_outside {xs ys : List UInt8} {i k : ℕ} (h : i + ys.length ≤ xs.length)
    (hk : k < i ∨ i + ys.length ≤ k) : (splice xs i ys)[k]? = xs[k]? := by
  rw [Lib.getElem?_splice h, if_neg (by omega)]

theorem Became.stored (h : Became b d d' (splice d.bytes offset (buffer.take n)))
    (hn : n ≤ buffer.length) (hfit : offset + n ≤ d.bytes.length) :
    Stored b d d' offset buffer n where
  ok := h.ok
  within := hn
  inside := .inr hfit
  failures := h.failures.ge
  stored := by
    have hlen : (buffer.take n).length = n := length_take_of_le hn
    have hslice := Lib.slice_splice (show offset + (buffer.take n).length ≤ d.bytes.length by omega)
    rwa [hlen, ← h.bytes_eq] at hslice
  exact _ := h.bytes_eq
  frame i hi := by
    have hlen : (buffer.take n).length = n := length_take_of_le hn
    rw [h.bytes_eq]
    exact getElem?_splice_outside (by omega) (by omega)

theorem Failed.stored (h : Failed b d d' (splice d.bytes offset (buffer.take n)))
    (hn : n ≤ buffer.length) (hfit : offset + n ≤ d.bytes.length) :
    Stored b d d' offset buffer 0 := by
  have hlen : (buffer.take n).length = n := length_take_of_le hn
  rcases h with h | h
  · exact .zero h.ok h.failures.ge (fun _ => h.bytes_eq) fun i _ => by rw [h.bytes_eq]
  · refine .zero h.ok h.failures.le (fun heq => absurd heq h.failures.ne') fun i hi => ?_
    rcases h.mixed i with hold | hnew
    · exact hold
    · rw [hnew]
      exact getElem?_splice_outside (by omega) (by omega)

theorem Became.stored_next (h : Became b d d' (splice d.bytes offset (buffer.take k)))
    (hk : k ≤ buffer.length) (hfit : offset + k ≤ d.bytes.length)
    (h' : Stored b d' d'' (offset + k) (buffer.drop k) n) : Stored b d d'' offset buffer (k + n) := by
  have hlen : (buffer.take k).length = k := length_take_of_le hk
  have hdrop : (buffer.drop k).length = buffer.length - k := length_drop
  have hsize : d'.bytes.length = d.bytes.length := by
    rw [h.bytes_eq]
    exact Lib.length_splice (by omega)
  have hbefore := h.stored hk hfit
  have hwithin := h'.within
  have hinside : offset + (k + n) ≤ d.bytes.length := by
    rcases h'.inside with hzero | hin
    · omega
    · omega
  refine ⟨h'.ok, by omega, .inr hinside, h.failures ▸ h'.failures, ?_, fun heq => ?_, fun i hi => ?_⟩
  · -- The later batches do not touch what this one stored.
    have hkeep : slice d''.bytes offset k = slice d'.bytes offset k := by
      apply ext_getElem?
      intro i
      rw [Lib.getElem?_slice, Lib.getElem?_slice]
      split_ifs with hi
      · exact h'.frame _ (.inl (by omega))
      · rfl
    rw [Lib.slice_append, hkeep, hbefore.stored, h'.stored, take_add]
  · have hall : offset + (buffer.take k ++ (buffer.drop k).take n).length ≤ d.bytes.length := by
      rw [← take_add, length_take]
      omega
    have hjoin := Lib.splice_splice hall
    rw [hlen, ← h.bytes_eq, ← take_add] at hjoin
    exact (h'.exact (heq.trans h.failures.symm)).trans hjoin
  · rw [h'.frame i (by omega), hbefore.frame i hi]

theorem Became.stored_after (h : Became b d d' d.bytes) (h' : Stored b d' d'' offset buffer n) :
    Stored b d d'' offset buffer n where
  ok := h'.ok
  within := h'.within
  inside := h.bytes_eq ▸ h'.inside
  failures := h.failures ▸ h'.failures
  stored := h'.stored
  exact heq := h.bytes_eq ▸ h'.exact (heq.trans h.failures.symm)
  frame := h.bytes_eq ▸ h'.frame

theorem Stored.refl (h : d.Ok b) : Stored b d d offset buffer 0 :=
  .zero h le_rfl (fun _ => rfl) fun _ _ => rfl

end Stored

theorem writeBytes_take_spec {offset take : ℕ} {buffer : List UInt8} (h : d.Ok env.device)
    (htake : take ≤ buffer.length) (hlength : take < 2 ^ 32 * env.device.logicalBlockSize) :
    wp (fun _ => False) (writeBytes env offset (buffer.take take))
      (fun n d' => n = take ∧ offset + take ≤ d.bytes.length ∧
        Became env.device d d' (splice d.bytes offset (buffer.take take)))
      (fun _ d' => Stored env.device d d' offset buffer 0) d := by
  have hlen : (buffer.take take).length = take := length_take_of_le htake
  refine wp_imp (writeBytes_spec h (by omega)) ?_ ?_
  · rintro n d' ⟨rfl, hfit, hd'⟩
    rw [env.device.sizeBytes_eq, ← h.size, hlen] at hfit
    exact ⟨hlen, hfit, hd'⟩
  · rintro _ d' (rfl | ⟨hfit, hd'⟩)
    · exact .refl h
    · rw [env.device.sizeBytes_eq, ← h.size, hlen] at hfit
      exact hd'.stored htake hfit

section
variable {source : IoSource} (h : d.Ok env.device)
include h

theorem writeBatch_spec {done take start : ℕ} (htake : take ≤ source.len - done)
    (hlength : take < 2 ^ 32 * env.device.logicalBlockSize) :
    wp (fun _ => False) (writeBatch env source done take start)
      (fun n d' => n = take ∧ start + take ≤ d.bytes.length ∧
        Became env.device d d' (splice d.bytes start ((source.bytes.drop done).take take)))
      (fun _ d' => Stored env.device d d' start (source.bytes.drop done) 0) d := by
  have hrest : (source.bytes.drop done).length = source.len - done := length_drop
  unfold writeBatch
  split
  · exact .refl h
  · next data hdata =>
    obtain ⟨rfl, -⟩ := IoSource.load_eq hdata
    rw [wp_mapErr]
    exact writeBytes_take_spec h (by omega) hlength

theorem writeBatches_spec {offset fuel done : ℕ} (hfuel : source.len - done ≤ fuel)
    (hdone : done ≤ source.len) (hin : done = 0 ∨ offset + done ≤ env.device.sizeBytes) :
    wp (fun _ => False) (writeBatches env offset source fuel done)
      (fun n d' => done ≤ n ∧
        Stored env.device d d' (offset + done) (source.bytes.drop done) (n - done))
      (fun _ d' => done = 0 ∧
        Stored env.device d d' (offset + done) (source.bytes.drop done) 0) d := by
  have hsize := env.device.accepted.size_lt
  have hbs := env.device.accepted.min_size
  rw [env.device.sizeBytes_eq] at hin
  have hstop : Stored env.device d d (offset + done) (source.bytes.drop done) (done - done) := by
    rw [Nat.sub_self]
    exact .refl h
  induction fuel generalizing d done with
  | zero => exact ⟨le_rfl, hstop⟩
  | succ fuel ih =>
    unfold writeBatches
    split
    · next hlt =>
      generalize htake : min (min source.len ioBatchBytes) (source.len - done) = take
      have hbatch : 0 < take ∧ take ≤ 131072 ∧ take ≤ source.len - done := by
        unfold ioBatchBytes at htake
        omega
      have hrest : (source.bytes.drop done).length = source.len - done := length_drop
      split
      · next hover =>
        refine ⟨?_, .refl h⟩
        by_contra hpos
        rw [Roanix.Mem.checkedAdd, if_pos (by omega)] at hover
        cases hover
      · next start hstart =>
        obtain ⟨rfl, -⟩ := Roanix.Mem.checkedAdd_eq_some.mp hstart
        rw [wp_bind, wp_attempt]
        refine wp_imp (writeBatch_spec h (by omega) (by omega)) ?_ ?_
        · rintro count d₁ ⟨rfl, hfit, hd₁⟩
          rw [h.size] at hfit
          rw [wp_bind, wp_add (by omega), if_neg (Nat.lt_irrefl _)]
          refine wp_imp (ih hd₁.ok (by omega) (by omega) (.inr (by omega)) ?_) ?_ ?_
          · rw [Nat.sub_self]
            exact .refl hd₁.ok
          · rintro n d₂ ⟨hn, hd₂⟩
            rw [← Nat.add_assoc, ← drop_drop] at hd₂
            have hall := hd₁.stored_next (by omega) (by rw [h.size]; omega) hd₂
            rw [show count + (n - (done + count)) = n - done by omega] at hall
            exact ⟨by omega, hall⟩
          · rintro _ d₂ ⟨hzero, -⟩
            omega
        · intro e d₁ hd₁
          split_ifs with hzero
          · rw [wp_pure, Nat.sub_self]
            exact ⟨le_rfl, hd₁⟩
          · exact ⟨not_not.mp hzero, hd₁⟩
    · exact ⟨le_rfl, hstop⟩

theorem writeFrom_spec {offset : ℕ} :
    wp (fun _ => False) (writeFrom env offset source)
      (fun n d' => Stored env.device d d' offset source.bytes n)
      (fun _ d' => Stored env.device d d' offset source.bytes 0) d := by
  unfold writeFrom
  split_ifs with hempty
  · exact .refl h
  · rw [wp_bind, wp_mapErr]
    refine wp_imp (blockBuffer_spec h) ?_ ?_
    · intro _ d₁ hd₁
      refine wp_imp (writeBatches_spec hd₁.ok (Nat.sub_le _ _) (Nat.zero_le _) (.inl rfl))
        (fun n d' hd' => ?_) fun _ d' hd' => ?_
      · exact hd₁.stored_after hd'.2
      · exact hd₁.stored_after hd'.2
    · intro _ d₁ hd₁
      exact .zero hd₁.ok hd₁.failures.ge (fun _ => hd₁.bytes_eq) fun i _ => by rw [hd₁.bytes_eq]

end

end Roanix.Dev.Block
