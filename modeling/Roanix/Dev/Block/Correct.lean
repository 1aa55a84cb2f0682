import Roanix.Dev.Block.Stream
import Roanix.Lib.Machine

/-! A registered device is an array of bytes, whatever was done to it before. -/
namespace Roanix.Dev.Block
open Lib (Act slice splice Machine)
open Lib.Act
open Mem.Io
variable {env : Env} {d d' : Disk}

inductive Operates (env : Env) (d : Disk) : Disk → Prop
  | readBlocks {lba blocks length : ℕ} {d' : Disk} (hblocks : blocks < 2 ^ 32)
      (h : (readBlocks env lba blocks length).Leaves d d') : Operates env d d'
  | writeBlocks {lba blocks : ℕ} {buffer : List UInt8} {d' : Disk} (hblocks : blocks < 2 ^ 32)
      (h : (writeBlocks env lba blocks buffer).Leaves d d') : Operates env d d'
  | readBytes {offset length : ℕ} {d' : Disk}
      (hlength : length < 2 ^ 32 * env.device.logicalBlockSize)
      (h : (readBytes env offset length).Leaves d d') : Operates env d d'
  | writeBytes {offset : ℕ} {buffer : List UInt8} {d' : Disk}
      (hlength : buffer.length < 2 ^ 32 * env.device.logicalBlockSize)
      (h : (writeBytes env offset buffer).Leaves d d') : Operates env d d'
  | readInto {offset : ℕ} {sink : IoSink} {s' : Delivery}
      (h : (readInto env offset).Leaves ⟨d, sink⟩ s') : Operates env d s'.disk
  | writeFrom {offset : ℕ} {source : IoSource} {d' : Disk}
      (h : (writeFrom env offset source).Leaves d d') : Operates env d d'

/-- A device with any contents that nothing was asked of yet, and what is done to it. -/
def machine (env : Env) : Machine Disk where
  init d := d.bytes.length = env.device.blockCount * env.device.logicalBlockSize ∧ d.calls = []
  step := Operates env

/-- What a device does as an array of bytes. Where a read falls short of the range it was asked for, a
backend call, an allocation or the caller's buffer failed. -/
structure Refines (env : Env) (d : Disk) : Prop where
  calls : ∀ c ∈ d.calls, c.Proper env.device
  readBytes : ∀ offset length, length < 2 ^ 32 * env.device.logicalBlockSize →
    wp (fun _ => False) (readBytes env offset length)
      (fun data d' => d'.bytes = d.bytes ∧
        data.length = min length (env.device.sizeBytes - offset) ∧
        data = slice d.bytes offset data.length)
      (fun _ d' => d'.bytes = d.bytes ∧ Trouble d d') d
  readInto : ∀ offset sink,
    wp (fun _ => False) (readInto env offset)
      (fun n s' => s'.disk.bytes = d.bytes ∧ n ≤ min sink.len (env.device.sizeBytes - offset) ∧
        s'.sink = sink.copyFromSlice 0 (slice d.bytes offset n) ∧
        (n = min sink.len (env.device.sizeBytes - offset) ∨ Trouble d s'.disk ∨ ¬ sink.Accessible))
      (fun _ s' => s'.disk.bytes = d.bytes ∧ s'.sink = sink ∧
        (Trouble d s'.disk ∨ ¬ sink.Accessible)) ⟨d, sink⟩
  writeBytes : ∀ offset buffer, buffer.length < 2 ^ 32 * env.device.logicalBlockSize →
    wp (fun _ => False) (writeBytes env offset buffer)
      (fun n d' => n = buffer.length ∧ Stored env.device d d' offset buffer n)
      (fun _ d' => Stored env.device d d' offset buffer 0) d
  writeFrom : ∀ offset source,
    wp (fun _ => False) (writeFrom env offset source)
      (fun n d' => Stored env.device d d' offset source.bytes n)
      (fun _ d' => Stored env.device d d' offset source.bytes 0) d

theorem readBlocks_sound {lba blocks length : ℕ} (h : d.Ok env.device) (hblocks : blocks < 2 ^ 32) :
    wp (fun _ => False) (readBlocks env lba blocks length) (fun _ d' => d'.Ok env.device)
      (fun _ d' => d'.Ok env.device) d := by
  have hsize := env.device.accepted.size_lt
  unfold readBlocks
  rw [wp_bind]
  refine wp_imp (checkTransfer_sound hblocks) ?_ fun _ d' hd' => hd' ▸ h
  rintro _ d' ⟨rfl, hlen, rfl | hin⟩
  · exact h
  · have hle := env.device.mul_le (show blocks ≤ env.device.blockCount by omega)
    exact wp_imp (readChunks_spec rfl h hin le_rfl (by omega) (by omega))
      (fun _ _ hd' => hd'.1.ok) fun _ _ hd' => hd'.ok

theorem writeBlocks_sound {lba blocks : ℕ} {buffer : List UInt8} (h : d.Ok env.device)
    (hblocks : blocks < 2 ^ 32) :
    wp (fun _ => False) (writeBlocks env lba blocks buffer) (fun _ d' => d'.Ok env.device)
      (fun _ d' => d'.Ok env.device) d := by
  have hsize := env.device.accepted.size_lt
  unfold writeBlocks
  rw [wp_bind]
  refine wp_imp (checkTransfer_sound hblocks) ?_ fun _ d' hd' => hd' ▸ h
  rintro _ d' ⟨rfl, hlen, rfl | hin⟩
  · exact h
  · have hle := env.device.mul_le (show blocks ≤ env.device.blockCount by omega)
    exact wp_imp (writeChunks_spec rfl h hin le_rfl (by omega) (by omega))
      (fun _ _ hd' => hd'.1.ok) fun _ _ hd' => hd'.ok

theorem writeBytes_stored {offset : ℕ} {buffer : List UInt8} (h : d.Ok env.device)
    (hlength : buffer.length < 2 ^ 32 * env.device.logicalBlockSize) :
    wp (fun _ => False) (writeBytes env offset buffer)
      (fun n d' => n = buffer.length ∧ Stored env.device d d' offset buffer n)
      (fun _ d' => Stored env.device d d' offset buffer 0) d := by
  have hspec := @writeBytes_take_spec env d offset buffer.length buffer h le_rfl hlength
  rw [List.take_length] at hspec
  refine wp_post hspec ?_
  rintro n d' ⟨rfl, hfit, hd'⟩
  exact ⟨rfl, Became.stored (by rwa [List.take_length]) le_rfl hfit⟩

theorem Operates.ok (h : d.Ok env.device) (hstep : Operates env d d') : d'.Ok env.device := by
  cases hstep with
  | readBlocks hblocks hl => exact wp_leaves (readBlocks_sound h hblocks) hl (fun _ => id) fun _ => id
  | writeBlocks hblocks hl =>
    exact wp_leaves (writeBlocks_sound h hblocks) hl (fun _ => id) fun _ => id
  | readBytes hlength hl =>
    exact wp_leaves (readBytes_spec h hlength) hl (fun _ hd' => hd'.1.ok)
      fun _ hd' => hd'.kept.1.ok
  | writeBytes hlength hl =>
    exact wp_leaves (writeBytes_stored h hlength) hl (fun _ hd' => hd'.2.ok) fun _ hd' => hd'.ok
  | readInto hl =>
    exact wp_leaves (readInto_spec h) hl (fun _ hs' => hs'.2.1.kept.ok)
      fun _ hs' => hs'.1.kept.ok
  | writeFrom hl =>
    exact wp_leaves (writeFrom_spec h) hl (fun _ hd' => hd'.ok) fun _ hd' => hd'.ok

theorem Reachable.ok (h : (machine env).Reachable d) : d.Ok env.device := by
  refine h.invariant (fun d hd => ⟨hd.1, ?_⟩)
    fun _ _ hd hstep => hstep.ok hd
  rw [hd.2]
  exact fun c hc => absurd hc List.not_mem_nil

/-- From whatever state earlier operations left, a device is read and written as an array of bytes. -/
theorem device_refines_bytes (h : (machine env).Reachable d) : Refines env d := by
  have hok := Reachable.ok h
  refine ⟨hok.calls, fun offset length hlength => ?_, fun offset sink => ?_,
    fun offset buffer hlength => writeBytes_stored hok hlength, fun offset source => writeFrom_spec hok⟩
  · refine wp_imp (readBytes_spec hok hlength) ?_ fun _ d' hd' => ?_
    · rintro data d' ⟨hd', rfl⟩
      have hlen : (slice d.bytes offset (min length (env.device.sizeBytes - offset))).length =
          min length (env.device.sizeBytes - offset) := by
        rw [slice, List.length_take, List.length_drop, hok.size, env.device.sizeBytes_eq]
        omega
      exact ⟨hd'.bytes_eq, hlen, by rw [hlen]⟩
    · obtain ⟨hkept, htrouble⟩ := hd'.kept
      exact ⟨hkept.bytes_eq, htrouble⟩
  · refine wp_imp (readInto_spec hok) ?_ ?_
    · rintro n s' ⟨hn, hread, hend⟩
      exact ⟨hread.kept.bytes_eq, hn, hread.sink_eq, hn.eq_or_lt.imp_right hend⟩
    · rintro _ s' ⟨hread, hend⟩
      have hsink := hread.sink_eq
      exact ⟨hread.kept.bytes_eq, hsink, hend⟩

/-- Two blocks of the least size, transferred one at a time. -/
def smallDevice : BlockDevice where
  logicalBlockSize := 512
  maxTransferBlocks := 1
  blockCount := 2
  accepted := ⟨by decide, by decide, by decide, by decide, by decide, by decide⟩

def steadyEnv : Env := ⟨smallDevice, fun _ => none, fun _ => false⟩

def starvedEnv : Env := ⟨smallDevice, fun _ => none, fun _ => true⟩

def blankDisk : Disk := ⟨List.replicate 1024 0, [], 0, 0⟩

def writtenDisk : Disk where
  bytes := List.replicate 510 0 ++ [1, 2, 3, 4] ++ List.replicate 510 0
  calls := [⟨0, 1, 512, false⟩, ⟨0, 1, 512, false⟩, ⟨1, 1, 512, false⟩, ⟨1, 1, 512, false⟩]
  refused := 0
  turn := 5

theorem device_refines_bytes_example :
    (machine steadyEnv).Reachable writtenDisk ∧ Refines steadyEnv writtenDisk := by
  have hblank : (machine steadyEnv).Reachable blankDisk := .init ⟨by decide +kernel, rfl⟩
  have hwrite : writeBytes steadyEnv 510 [1, 2, 3, 4] blankDisk = .ok 4 writtenDisk := by
    decide +kernel
  have hwritten := hblank.step (.writeBytes (by decide) (.inl ⟨4, hwrite⟩))
  exact ⟨hwritten, device_refines_bytes hwritten⟩

section Short

-- The block that is read has 512 bytes, and they are counted.
set_option maxRecDepth 4000

/-- A read fails although every backend call succeeds: one because there is no memory for the block
that it starts in, one because the caller's page is gone. -/
theorem read_short_without_failure :
    (machine starvedEnv).Reachable blankDisk ∧
    (∃ d', readBytes starvedEnv 1 1 blankDisk = .err .outOfMemory d' ∧
      d'.failures = blankDisk.failures ∧ min 1 (smallDevice.sizeBytes - 1) = 1) ∧
    ∃ s', readInto steadyEnv 0 ⟨blankDisk, ⟨[0], some 0, fun _ => true⟩⟩ = .err .invalidArgument s' ∧
      s'.disk.failures = blankDisk.failures ∧ min 1 (smallDevice.sizeBytes - 0) = 1 := by
  exact ⟨.init ⟨by decide +kernel, rfl⟩, ⟨_, rfl, rfl, rfl⟩, _, rfl, rfl, rfl⟩

end Short

end Roanix.Dev.Block
