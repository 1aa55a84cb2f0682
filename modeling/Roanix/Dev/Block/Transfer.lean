import Roanix.Dev.Block.Basic

/-! What the block transfers do: they keep to the device and to its limits, and a transfer that fails
touches only its own blocks. -/
namespace Roanix.Dev.Block
open List
open Lib (Act slice splice)
open Lib.Act
open Mem (checkedAdd_eq_some)

variable {buffer bytes bytes' mid new old : List UInt8} {b : BlockDevice}
  {blocks bs fuel lba length offset : ℕ}

structure Call.Proper (b : BlockDevice) (c : Call) : Prop where
  inside : c.lba + c.blocks ≤ b.blockCount
  limited : c.blocks ≤ b.limit
  exact : c.length = c.blocks * b.logicalBlockSize

structure Disk.Ok (b : BlockDevice) (d : Disk) : Prop where
  size : d.bytes.length = b.blockCount * b.logicalBlockSize
  calls : ∀ c ∈ d.calls, c.Proper b

def Disk.failures (d : Disk) : ℕ := d.calls.countP (·.failed)

structure Became (b : BlockDevice) (d d' : Disk) (bytes : List UInt8) : Prop where
  ok : d'.Ok b
  bytes_eq : d'.bytes = bytes
  failures : d'.failures = d.failures
  refused : d'.refused = d.refused

/-- Every byte is an old one or a new one. -/
def Mixed (old new mid : List UInt8) : Prop := ∀ i : ℕ, mid[i]? = old[i]? ∨ mid[i]? = new[i]?

/-- A backend call failed on the way to new contents. -/
structure Hurt (b : BlockDevice) (d d' : Disk) (bytes : List UInt8) : Prop where
  ok : d'.Ok b
  mixed : Mixed d.bytes bytes d'.bytes
  failures : d.failures < d'.failures
  refused : d'.refused = d.refused

variable {env : Env} {d d' d'' : Disk}

theorem Mixed.trans {mid' : List UInt8} (h : Mixed old new mid) (h' : Mixed mid new mid') :
    Mixed old new mid' := by
  intro i
  rcases h' i with hmid | hnew
  · rw [hmid]
    exact h i
  · exact .inr hnew

theorem Mixed.onward {new' : List UInt8} (h : Mixed old new mid) (h' : Mixed old new' new) :
    Mixed old new' mid := by
  intro i
  rcases h i with hold | hnew
  · exact .inl hold
  · rw [hnew]
    exact h' i

theorem mixed_splice_append {xs a b : List UInt8} {i : ℕ} (h : i + (a ++ b).length ≤ xs.length) :
    Mixed xs (splice xs i (a ++ b)) (splice xs i a) := by
  intro k
  have hl : (a ++ b).length = a.length + b.length := length_append
  rw [Lib.getElem?_splice (show i + a.length ≤ xs.length by omega), Lib.getElem?_splice h]
  split_ifs with hin hout
  · exact .inr (getElem?_append_left (by omega)).symm
  · omega
  · exact .inl rfl
  · exact .inl rfl

theorem Became.trans (h : Became b d d' bytes) (h' : Became b d' d'' bytes') :
    Became b d d'' bytes' :=
  ⟨h'.ok, h'.bytes_eq, h'.failures.trans h.failures, h'.refused.trans h.refused⟩

theorem Became.hurt (h : Became b d d' bytes) (hmixed : Mixed d.bytes bytes' bytes)
    (h' : Hurt b d' d'' bytes') : Hurt b d d'' bytes' where
  ok := h'.ok
  mixed := hmixed.trans (h.bytes_eq ▸ h'.mixed)
  failures := h.failures ▸ h'.failures
  refused := h'.refused.trans h.refused

theorem BlockDevice.limit_pos (b : BlockDevice) : 0 < b.limit := by
  unfold BlockDevice.limit
  split_ifs with h
  · decide
  · omega

theorem BlockDevice.size_pos (b : BlockDevice) : 0 < b.logicalBlockSize :=
  b.accepted.power.pos

theorem BlockDevice.sizeBytes_eq (b : BlockDevice) :
    b.sizeBytes = b.blockCount * b.logicalBlockSize := by
  have := b.accepted.size_lt
  unfold BlockDevice.sizeBytes Roanix.Mem.u64Max
  omega

theorem mixed_reached {start : ℕ} (blockSize : ℕ) (hits : ℕ → Bool)
    (hfit : start + buffer.length ≤ bytes.length) :
    Mixed bytes (splice bytes start buffer) (reached bytes blockSize start buffer hits) := by
  intro i
  unfold reached
  rw [getElem?_mapIdx, Lib.getElem?_splice hfit]
  cases hold : bytes[i]? with
  | none => exact .inl rfl
  | some old =>
    simp only [Option.map_some]
    by_cases hhit : start ≤ i ∧ hits ((i - start) / blockSize) = true
    · rw [if_pos hhit, getD_eq_getElem?_getD]
      by_cases hin : i < start + buffer.length
      · rw [if_pos ⟨hhit.1, hin⟩, getElem?_eq_getElem (by omega)]
        exact .inr rfl
      · rw [getElem?_eq_none (by omega)]
        exact .inl rfl
    · rw [if_neg hhit]
      exact .inl rfl

/-- A backend call or several: the contents become new ones and `P` holds of the result, or a call
failed on the way. -/
def Does {α : Type} (env : Env) (d : Disk) (m : BlockM α) (P : α → Prop) (bytes : List UInt8) : Prop :=
  wp (fun _ => False) m (fun a d' => Became env.device d d' bytes ∧ P a)
    (fun _ d' => Hurt env.device d d' bytes) d

section
variable {α β : Type} {m : BlockM α} {f : α → BlockM β} {P : α → Prop} {R : β → Prop} {a : α}

theorem Does.done (h : d.Ok env.device) (hbytes : d.bytes = bytes) (ha : P a) :
    Does env d (pure a) P bytes :=
  ⟨⟨h, hbytes, rfl, rfl⟩, ha⟩

theorem Does.bind (h : Does env d m P mid) (hmixed : Mixed d.bytes bytes mid)
    (hnext : ∀ a d', P a → d'.Ok env.device → d'.bytes = mid → Does env d' (f a) R bytes) :
    Does env d (m >>= f) R bytes := by
  unfold Does
  rw [wp_bind]
  refine wp_imp h ?_ fun _ d' hd' => { hd' with mixed := hd'.mixed.onward hmixed }
  rintro a d' ⟨hd', ha⟩
  refine wp_imp (hnext a d' ha hd'.ok hd'.bytes_eq) ?_ fun _ d'' hd'' => hd'.hurt hmixed hd''
  exact fun b d'' hd'' => ⟨hd'.trans hd''.1, hd''.2⟩

theorem Does.read (h : Does env d m P d.bytes)
    (hnext : ∀ a d', P a → d'.Ok env.device → d'.bytes = d.bytes → Does env d' (f a) R bytes) :
    Does env d (m >>= f) R bytes :=
  h.bind (fun _ => .inl rfl) hnext

end

theorem Disk.Ok.log {c : Call} (h : d.Ok b) (hc : c.Proper b) (hlen : bytes.length = d.bytes.length) :
    Disk.Ok b { d with bytes, calls := d.calls ++ [c], turn := d.turn + 1 } where
  size := hlen.trans h.size
  calls := forall_mem_append.mpr ⟨h.calls, forall_mem_singleton.mpr hc⟩

section
variable (hbs : b.logicalBlockSize = bs) (h : d.Ok b)
include hbs h

theorem range_le (hin : lba + blocks ≤ b.blockCount) : lba * bs + blocks * bs ≤ d.bytes.length := by
  rw [h.size, hbs, ← Nat.add_mul]
  exact Nat.mul_le_mul_right _ hin

theorem block_le (hin : lba < b.blockCount) : lba * bs + bs ≤ d.bytes.length := by
  have hle := range_le hbs h (show lba + 1 ≤ b.blockCount from hin)
  rwa [Nat.one_mul] at hle

end

section
variable (hbs : env.device.logicalBlockSize = bs) (h : d.Ok env.device)
include hbs h

theorem backendRead_spec
    (hc : ∀ failed, (Call.mk lba blocks length failed).Proper env.device) :
    Does env d (backendRead env lba blocks length) (· = slice d.bytes (lba * bs) length) d.bytes := by
  unfold Does backendRead wp
  dsimp only
  cases env.fails d.turn with
  | none =>
    refine ⟨⟨h.log (hc false) rfl, rfl, ?_, rfl⟩, by rw [hbs]⟩
    simp [Disk.failures]
  | some hits =>
    refine ⟨h.log (hc true) rfl, fun _ => .inl rfl, ?_, rfl⟩
    simp [Disk.failures]

theorem backendWrite_spec
    (hc : ∀ failed, (Call.mk lba blocks buffer.length failed).Proper env.device) :
    Does env d (backendWrite env lba blocks buffer) (fun _ => True)
      (splice d.bytes (lba * bs) buffer) := by
  have hfit : lba * bs + buffer.length ≤ d.bytes.length := by
    have hexact : buffer.length = blocks * _ := (hc false).exact
    rw [hexact, hbs]
    exact range_le hbs h (hc false).inside
  unfold Does backendWrite wp
  rw [hbs]
  dsimp only
  cases env.fails d.turn with
  | none =>
    refine ⟨⟨h.log (hc false) (Lib.length_splice hfit), rfl, ?_, rfl⟩, trivial⟩
    simp [Disk.failures]
  | some hits =>
    refine ⟨h.log (hc true) length_mapIdx, mixed_reached _ hits hfit, ?_, rfl⟩
    simp [Disk.failures]

end

theorem checkTransfer_spec {Q : Unit → Disk → Prop} {E : Error → Disk → Prop}
    (hin : lba + blocks ≤ env.device.blockCount)
    (hlen : length = blocks * env.device.logicalBlockSize) (hQ : Q () d) :
    wp (fun _ => False) (checkTransfer env lba blocks length) Q E d := by
  have hsize := env.device.accepted.size_lt
  have hcount : blocks * env.device.logicalBlockSize < 2 ^ 64 :=
    (Nat.mul_le_mul_right _ (by omega)).trans_lt hsize
  have hbs := env.device.size_pos
  have hend : lba + blocks < 2 ^ 64 := by
    have := Nat.le_mul_of_pos_right env.device.blockCount hbs
    omega
  unfold checkTransfer
  split_ifs with hzero hlength
  · exact hQ
  · rw [hzero, Nat.zero_mul] at hlen
    exact absurd hlen hlength
  · rw [show Roanix.Mem.checkedAdd lba blocks = some (lba + blocks) from if_pos hend]
    simp only [wp_bind, wp_mul hcount]
    rw [if_neg (by omega)]
    exact hQ

/-- Whatever a caller asks for, what passes the check is on the device. -/
theorem checkTransfer_sound (hblocks : blocks < 2 ^ 32) :
    wp (fun _ => False) (checkTransfer env lba blocks length)
      (fun _ d' => d' = d ∧ length = blocks * env.device.logicalBlockSize ∧
        (blocks = 0 ∨ lba + blocks ≤ env.device.blockCount))
      (fun _ d' => d' = d) d := by
  have hbs : env.device.logicalBlockSize ≤ 2 ^ 20 := env.device.accepted.max_size
  have hmul : blocks * env.device.logicalBlockSize < 2 ^ 64 :=
    (Nat.mul_le_mul hblocks.le hbs).trans_lt (by decide)
  unfold checkTransfer
  split
  · next hzero =>
    split_ifs with hlength
    · exact ⟨rfl, by rw [hlength, hzero, Nat.zero_mul], .inl hzero⟩
    · exact rfl
  · split
    · exact rfl
    · next end' hend =>
      obtain ⟨rfl, -⟩ := checkedAdd_eq_some.mp hend
      rw [wp_bind, wp_mul hmul]
      split_ifs with hbad
      · exact rfl
      · exact ⟨rfl, by omega, .inr (by omega)⟩

theorem BlockDevice.mul_le (b : BlockDevice) {n : ℕ} (h : n ≤ b.blockCount) :
    n * b.logicalBlockSize ≤ b.blockCount * b.logicalBlockSize :=
  Nat.mul_le_mul_right _ h

theorem proper_chunk (hbs : b.logicalBlockSize = bs) (hin : lba + blocks ≤ b.blockCount)
    (failed : Bool) :
    (Call.mk lba (min blocks b.limit) (min blocks b.limit * bs) failed).Proper b where
  inside := (Nat.add_le_add_left (Nat.min_le_left _ _) lba).trans hin
  limited := Nat.min_le_right _ _
  exact := by rw [hbs]

theorem chunk_bounds (bs : ℕ) (hin : lba + blocks ≤ b.blockCount) {count : ℕ}
    (hcount : min blocks b.limit = count) :
    lba + count < 2 ^ 64 ∧ blocks * bs = count * bs + (blocks - count) * bs := by
  have hblocks := Nat.le_mul_of_pos_right b.blockCount b.size_pos
  have hsize := b.accepted.size_lt
  refine ⟨by omega, ?_⟩
  rw [← Nat.add_mul, Nat.add_sub_cancel' (by omega)]

section
variable (hbs : env.device.logicalBlockSize = bs) (h : d.Ok env.device)
include hbs h

section
variable (hin : lba + blocks ≤ env.device.blockCount)
include hin

theorem readChunks_spec (hfuel : blocks ≤ fuel) (hfit : offset + blocks * bs ≤ length)
    (hlength : length < 2 ^ 64) :
    Does env d (readChunks env length fuel lba blocks offset)
      (· = slice d.bytes (lba * bs) (blocks * bs)) d.bytes := by
  induction fuel generalizing d lba blocks offset with
  | zero =>
    obtain rfl : blocks = 0 := by omega
    rw [Nat.zero_mul, Lib.slice_zero]
    exact .done h rfl rfl
  | succ fuel ih =>
    unfold readChunks
    split_ifs with hzero
    · rw [hzero, Nat.zero_mul, Lib.slice_zero]
      exact .done h rfl rfl
    · have hlimit := env.device.limit_pos
      generalize hcount : min blocks env.device.limit = count
      obtain ⟨hlba, hsplit⟩ := chunk_bounds bs hin hcount
      unfold Does
      rw [hbs, wp_bind, wp_mul (by omega), wp_bind, wp_add (by omega), wp_bind, wp_check (by omega)]
      have hcall := fun failed => hcount ▸ proper_chunk hbs hin failed
      refine (backendRead_spec hbs h hcall).read fun data d₁ hdata hok hbytes => ?_
      unfold Does
      rw [wp_bind, wp_add hlba, ← hbytes]
      refine (ih hok (by omega) (by omega) (by omega)).read fun rest d₂ hrest hok' hbytes' => ?_
      refine .done hok' hbytes' ?_
      rw [hdata, hrest, hbytes, hsplit, Lib.slice_append, Nat.add_mul]

theorem readBlocks_spec (hlen : length = blocks * bs) :
    Does env d (readBlocks env lba blocks length) (· = slice d.bytes (lba * bs) length) d.bytes := by
  have hle := (range_le hbs h hin).trans_eq h.size
  have hsize := env.device.accepted.size_lt
  unfold Does readBlocks
  rw [wp_bind]
  refine checkTransfer_spec hin (hbs ▸ hlen) ?_
  rw [hlen]
  exact readChunks_spec hbs h hin le_rfl (by omega) (by omega)

theorem writeChunks_spec (hfuel : blocks ≤ fuel) (hfit : offset + blocks * bs = buffer.length)
    (hlength : buffer.length < 2 ^ 64) :
    Does env d (writeChunks env buffer fuel lba blocks offset) (fun _ => True)
      (splice d.bytes (lba * bs) (buffer.drop offset)) := by
  induction fuel generalizing d lba blocks offset with
  | zero =>
    obtain rfl : blocks = 0 := by omega
    rw [drop_of_length_le (by omega), Lib.splice_nil]
    exact .done h rfl trivial
  | succ fuel ih =>
    unfold writeChunks
    split_ifs with hzero
    · rw [hzero] at hfit
      rw [drop_of_length_le (by omega), Lib.splice_nil]
      exact .done h rfl trivial
    · have hlimit := env.device.limit_pos
      generalize hcount : min blocks env.device.limit = count
      obtain ⟨hlba, hsplit⟩ := chunk_bounds bs hin hcount
      have hchunk : (slice buffer offset (count * bs)).length = count * bs :=
        Lib.length_slice (by omega)
      have hrest : slice buffer offset (count * bs) ++ buffer.drop (offset + count * bs) =
          buffer.drop offset := by
        rw [← drop_drop]
        exact take_append_drop _ _
      unfold Does
      rw [hbs, wp_bind, wp_mul (by omega), wp_bind, wp_add (by omega), wp_bind, wp_check (by omega)]
      generalize slice buffer offset (count * bs) = chunk at hchunk hrest ⊢
      have hbytes : lba * bs + (chunk ++ buffer.drop (offset + count * bs)).length ≤
          d.bytes.length := by
        rw [hrest, length_drop, ← hfit, Nat.add_sub_cancel_left]
        exact range_le hbs h hin
      have hmixed := mixed_splice_append hbytes
      have hcall := fun failed => hchunk ▸ hcount ▸ proper_chunk hbs hin failed
      rw [← hrest]
      refine (backendWrite_spec hbs h hcall).bind hmixed fun _ d₁ _ hok hd₁ => ?_
      unfold Does
      rw [wp_bind, wp_add hlba, ← Lib.splice_splice hbytes, hchunk, ← hd₁, ← Nat.add_mul]
      exact ih hok (by omega) (by omega) (by omega)

theorem writeBlocks_spec (hlen : buffer.length = blocks * bs) :
    Does env d (writeBlocks env lba blocks buffer) (fun _ => True)
      (splice d.bytes (lba * bs) buffer) := by
  have hle := (range_le hbs h hin).trans_eq h.size
  have hsize := env.device.accepted.size_lt
  unfold Does writeBlocks
  rw [wp_bind]
  refine checkTransfer_spec hin (hbs ▸ hlen) ?_
  exact writeChunks_spec hbs h hin (Nat.le_refl blocks) (by omega) (by omega)

end

theorem rewriteBlock_spec {within : ℕ} {part : List UInt8}
    (hin : lba < env.device.blockCount) (hfit : within + part.length ≤ bs) :
    Does env d (rewriteBlock env lba within part) (fun _ => True)
      (splice d.bytes (lba * bs + within) part) := by
  have hblock := block_le hbs h hin
  have hbounce := Lib.length_slice hblock
  unfold rewriteBlock
  rw [hbs]
  refine (readBlocks_spec hbs h hin (Nat.one_mul _).symm).read fun bounce d₁ hread hok hbytes => ?_
  rw [← hread] at hbounce
  unfold Does
  rw [wp_bind, wp_check (by omega), ← Lib.splice_splice_slice hfit hblock, ← hread, ← hbytes]
  exact writeBlocks_spec hbs hok hin (by rw [Lib.length_splice (by omega), hbounce, Nat.one_mul])

end

end Roanix.Dev.Block
