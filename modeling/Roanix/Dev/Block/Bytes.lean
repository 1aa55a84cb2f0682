import Roanix.Dev.Block.Transfer

/-! Byte ranges over blocks: the head and the tail of a range go through one block each, the middle
is transferred in place. -/
namespace Roanix.Dev.Block
open List
open Lib (Act slice splice)
open Lib.Act
variable {env : Env} {d d' d'' : Disk} {bs : ℕ}

/-- An allocation failed and nothing else happened. -/
structure Starved (b : BlockDevice) (d d' : Disk) : Prop where
  ok : d'.Ok b
  bytes_eq : d'.bytes = d.bytes
  failures : d'.failures = d.failures
  refused : d.refused < d'.refused

/-- How a byte operation that had a place to go fails. -/
def Failed (b : BlockDevice) (d d' : Disk) (bytes : List UInt8) : Prop :=
  Starved b d d' ∨ Hurt b d d' bytes

theorem blockBuffer_spec (h : d.Ok env.device) : wp (fun _ => False) (blockBuffer env)
    (fun _ d' => Became env.device d d' d.bytes) (fun _ d' => Starved env.device d d') d := by
  unfold blockBuffer wp
  by_cases hr : env.refuses d.turn = true
  · simp only [hr]
    exact ⟨⟨h.size, h.calls⟩, rfl, rfl, Nat.lt_succ_self _⟩
  · simp only [hr]
    exact ⟨⟨h.size, h.calls⟩, rfl, rfl, rfl⟩

theorem asU32_eq {n : ℕ} (h : n < 2 ^ 32) : asU32 n = n := Nat.mod_eq_of_lt h

theorem last_le {b : BlockDevice} {lba n : ℕ} (hbs : b.logicalBlockSize = bs)
    (h : lba * bs + n ≤ b.blockCount * bs) : lba + n / bs ≤ b.blockCount := by
  have hmul : (lba + n / bs) * bs ≤ b.blockCount * bs := by
    have := Nat.div_mul_le_self n bs
    rw [Nat.add_mul]
    omega
  exact Nat.le_of_mul_le_mul_right hmul (hbs ▸ b.size_pos)

theorem first_lt (bs : ℕ) {b : BlockDevice} {lba n : ℕ} (hn : n ≠ 0)
    (h : lba * bs + n ≤ b.blockCount * bs) : lba < b.blockCount :=
  Nat.lt_of_mul_lt_mul_right (show lba * bs < b.blockCount * bs by omega)

theorem BlockDevice.count_lt (b : BlockDevice) : b.blockCount < 2 ^ 64 :=
  (Nat.le_mul_of_pos_right _ b.size_pos).trans_lt b.accepted.size_lt

/-- A range from `offset` is done up to some point, and unless that is its end, the next block
starts there. -/
structure Reached (b : BlockDevice) (offset length done lba : ℕ) : Prop where
  within : done ≤ length
  inside : lba ≤ b.blockCount
  next : done = length ∨ lba * b.logicalBlockSize = offset + done

section
variable (hbs : env.device.logicalBlockSize = bs) (h : d.Ok env.device)
include hbs h

theorem readHead_spec {offset length : ℕ} (hlen : length ≠ 0)
    (hfit : offset + length ≤ env.device.blockCount * bs) :
    Does env d (readHead env (offset / bs) (offset % bs) length)
      (fun r => r.1 = slice d.bytes offset r.1.length ∧
        Reached env.device offset length r.1.length r.2) d.bytes := by
  have hdiv := Nat.div_add_mod' offset bs
  have hmod := Nat.mod_lt offset (hbs ▸ env.device.size_pos)
  generalize offset / bs = first at hdiv ⊢
  generalize offset % bs = leading at hdiv hmod ⊢
  have hin : first < env.device.blockCount := first_lt bs hlen (by omega)
  unfold readHead
  split_ifs with hleading
  · rw [hbs]
    refine (readBlocks_spec hbs h hin (Nat.one_mul _).symm).read
      fun bounce d₁ hread hok hbytes => ?_
    have hblock := Lib.length_slice (block_le hbs h hin)
    have hcount := env.device.count_lt
    generalize htake : min length (bs - leading) = take
    have hslice : slice bounce leading take = slice d.bytes offset take := by
      rw [hread, Lib.slice_slice (by omega), hdiv]
    have hlength : (slice d.bytes offset take).length = take :=
      Lib.length_slice (by rw [h.size, hbs]; omega)
    unfold Does
    rw [wp_bind, wp_check (by rw [hread, hblock]; omega), wp_bind, wp_add (by omega), hslice]
    refine Does.done hok hbytes ⟨?_, ?_, hin, ?_⟩ <;> rw [hlength]
    · omega
    · rw [hbs, Nat.succ_mul]
      omega
  · refine .done h rfl ⟨?_, Nat.zero_le _, hin.le, .inr ?_⟩
    · rw [length_nil, Lib.slice_zero]
    · rw [hbs]
      change first * _ = offset + 0
      omega

theorem readBody_spec {lba left : ℕ}
    (hfit : left = 0 ∨ lba * bs + left ≤ env.device.blockCount * bs) (hblocks : left / bs < 2 ^ 32) :
    Does env d (readBody env lba (left / bs * bs))
      (fun r => r.1 = slice d.bytes (lba * bs) (left / bs * bs) ∧ r.2 = lba + left / bs) d.bytes := by
  have hpos : 0 < bs := hbs ▸ env.device.size_pos
  generalize hn : left / bs = n at hblocks ⊢
  unfold readBody
  dsimp only
  rw [hbs, Nat.mul_div_cancel n hpos, asU32_eq hblocks]
  split_ifs with hmiddle
  · have hleft : left ≠ 0 := by
      rintro rfl
      rw [Nat.zero_div] at hn
      rw [← hn, Nat.zero_mul] at hmiddle
      exact hmiddle rfl
    have hin := last_le hbs (hfit.resolve_left hleft)
    rw [hn] at hin
    have hcount := env.device.count_lt
    refine (readBlocks_spec hbs h hin rfl).read fun body d₁ hread hok hbytes => ?_
    unfold Does
    rw [wp_bind, wp_add (by omega)]
    exact Does.done hok hbytes ⟨hread, rfl⟩
  · have hn0 : n = 0 := (Nat.mul_eq_zero.mp (not_not.mp hmiddle)).resolve_right hpos.ne'
    rw [hn0, Nat.zero_mul]
    exact .done h rfl ⟨rfl, rfl⟩

theorem readTail_spec {lba tail : ℕ} (htail : tail < bs)
    (hfit : tail = 0 ∨ lba * bs + tail ≤ env.device.blockCount * bs) :
    Does env d (readTail env lba tail) (· = slice d.bytes (lba * bs) tail) d.bytes := by
  unfold readTail
  split_ifs with hzero
  · have hin := first_lt bs hzero (hfit.resolve_left hzero)
    rw [hbs]
    refine (readBlocks_spec hbs h hin (Nat.one_mul _).symm).read
      fun bounce d₁ hread hok hbytes => ?_
    have hblock := Lib.length_slice (block_le hbs h hin)
    unfold Does
    rw [wp_bind, wp_check (by rw [hread, hblock]; omega)]
    refine Does.done hok hbytes ?_
    rw [hread, slice, take_take, Nat.min_eq_left htail.le]
    rfl
  · rw [show tail = 0 from not_not.mp hzero]
    exact .done h rfl rfl

end

/-- What a read returns is what the device has there, as far as the device goes. -/
theorem readBytes_spec {offset length : ℕ} (h : d.Ok env.device)
    (hlength : length < 2 ^ 32 * env.device.logicalBlockSize) :
    wp (fun _ => False) (readBytes env offset length)
      (fun data d' => Became env.device d d' d.bytes ∧
        data = slice d.bytes offset (min length (env.device.sizeBytes - offset)))
      (fun _ d' => Failed env.device d d' d.bytes) d := by
  unfold readBytes
  dsimp only
  rw [env.device.sizeBytes_eq]
  generalize hbs : env.device.logicalBlockSize = bs at hlength ⊢
  generalize hn : min length (env.device.blockCount * bs - offset) = n
  have hblocks (k : ℕ) (hk : k ≤ n) : k / bs < 2 ^ 32 :=
    Nat.div_lt_of_lt_mul (by rw [Nat.mul_comm]; omega)
  split_ifs with hzero haligned
  · rw [hzero]
    exact ⟨⟨h, rfl, rfl, rfl⟩, rfl⟩
  · have hdiv := Nat.div_add_mod' offset bs
    have hdiv' := Nat.div_add_mod' n bs
    have hin : offset / bs + n / bs ≤ env.device.blockCount := last_le hbs (by omega)
    have hread := readBlocks_spec hbs h hin (show n = _ by omega)
    rw [show offset / bs * bs = offset by omega] at hread
    rw [asU32_eq (hblocks n (Nat.le_refl n))]
    exact wp_imp hread (fun _ _ hd' => hd') fun _ _ => .inr
  · rw [wp_bind]
    refine wp_imp (blockBuffer_spec h) ?_ fun _ _ => .inl
    rintro - d₀ hd₀
    rw [← hd₀.bytes_eq]
    -- After the allocation nothing but a backend call can fail.
    suffices hrest : Does env d₀ _ (· = slice d₀.bytes offset n) d₀.bytes from
      wp_imp hrest (fun _ d' hd' => ⟨hd₀.trans hd'.1, hd'.2⟩) fun _ d' hd' =>
        .inr (hd₀.hurt (fun _ => .inl rfl) hd')
    refine (readHead_spec hbs hd₀.ok hzero (by omega)).read ?_
    rintro ⟨head, lba⟩ d₁ ⟨hhead, hreached⟩ hok₁ hbytes₁
    dsimp only at hhead hreached ⊢
    have hnext := hreached.next
    rw [hbs] at hnext
    unfold Does
    rw [wp_bind, wp_sub hreached.within, ← hbytes₁]
    generalize hleft : n - head.length = left
    refine (readBody_spec hbs hok₁ (by omega) (hblocks left (by omega))).read ?_
    rintro ⟨body, lba'⟩ d₂ ⟨rfl, rfl⟩ hok₂ hbytes₂
    have hdiv := Nat.div_add_mod' left bs
    have hmod := Nat.mod_lt left (hbs ▸ env.device.size_pos)
    have htail : left - left / bs * bs = left % bs := by omega
    unfold Does
    rw [wp_bind, wp_sub (by omega), htail, ← hbytes₂]
    refine (readTail_spec hbs hok₂ hmod (by rw [Nat.add_mul]; omega)).read ?_
    rintro rest d₃ rfl hok₃ hbytes₃
    refine .done hok₃ hbytes₃ ?_
    rw [hhead, hbytes₂, hbytes₁]
    rcases hnext with hdone | hnext
    · obtain rfl : left = 0 := by omega
      simp only [Nat.zero_div, Nat.zero_mul, Nat.zero_mod, Lib.slice_zero, append_nil, hdone]
    · rw [Nat.add_mul, hnext, append_assoc, ← Lib.slice_append, ← Lib.slice_append]
      congr 1
      have := hreached.within
      omega

section
variable {offset k : ℕ} {bytes buffer : List UInt8}

theorem splice_congr {i j : ℕ} (h : buffer = [] ∨ i = j) :
    splice bytes i buffer = splice bytes j buffer := by
  rcases h with rfl | rfl
  · rw [Lib.splice_nil, Lib.splice_nil]
  · rfl

theorem splice_drop (hfit : offset + buffer.length ≤ bytes.length) (hk : k ≤ buffer.length) :
    splice (splice bytes offset (buffer.take k)) (offset + k) (buffer.drop k) =
      splice bytes offset buffer := by
  have hall : offset + (buffer.take k ++ buffer.drop k).length ≤ bytes.length := by
    rwa [take_append_drop]
  have hjoin := Lib.splice_splice hall
  rwa [length_take_of_le hk, take_append_drop] at hjoin

theorem mixed_splice_take (hfit : offset + buffer.length ≤ bytes.length) (k : ℕ) :
    Mixed bytes (splice bytes offset buffer) (splice bytes offset (buffer.take k)) := by
  have hmixed : Mixed bytes (splice bytes offset (buffer.take k ++ buffer.drop k)) _ :=
    mixed_splice_append (by rwa [take_append_drop])
  rwa [take_append_drop] at hmixed

end

section
variable (hbs : env.device.logicalBlockSize = bs) (h : d.Ok env.device)
include hbs h

theorem writeHead_spec {offset : ℕ} {buffer : List UInt8} (hlen : buffer ≠ [])
    (hfit : offset + buffer.length ≤ env.device.blockCount * bs) :
    ∃ k, Does env d (writeHead env (offset / bs) (offset % bs) buffer)
      (fun r => r.1 = k ∧ Reached env.device offset buffer.length k r.2)
      (splice d.bytes offset (buffer.take k)) := by
  have hdiv := Nat.div_add_mod' offset bs
  have hmod := Nat.mod_lt offset (hbs ▸ env.device.size_pos)
  generalize offset / bs = first at hdiv ⊢
  generalize offset % bs = leading at hdiv hmod ⊢
  have hin : first < env.device.blockCount := first_lt bs (mt length_eq_zero_iff.mp hlen)
    (by omega)
  have hcount := env.device.count_lt
  unfold writeHead
  split_ifs with hleading
  · rw [hbs]
    generalize htake : min buffer.length (bs - leading) = take
    have hpart : (buffer.take take).length = take := length_take_of_le (by omega)
    have hrewrite := rewriteBlock_spec hbs h hin (show leading + (buffer.take take).length ≤ _ by omega)
    rw [hdiv] at hrewrite
    refine ⟨take, hrewrite.bind (fun _ => .inr rfl) fun _ d₁ _ hok hbytes => ?_⟩
    unfold Does
    rw [wp_bind, wp_add (by omega)]
    refine Does.done hok hbytes ⟨rfl, by omega, hin, ?_⟩
    rw [hbs, Nat.succ_mul]
    omega
  · have hnext : first * env.device.logicalBlockSize = offset + 0 := by rw [hbs]; omega
    refine ⟨0, .done h ?_ ⟨rfl, Nat.zero_le _, hin.le, .inr hnext⟩⟩
    rw [take_zero, Lib.splice_nil]

theorem writeBody_spec {lba n : ℕ} {middle : List UInt8} (hlen : middle.length = n * bs)
    (hblocks : n < 2 ^ 32) (hfit : middle = [] ∨ lba + n ≤ env.device.blockCount) :
    Does env d (writeBody env lba middle) (· = lba + n) (splice d.bytes (lba * bs) middle) := by
  have hpos : 0 < bs := hbs ▸ env.device.size_pos
  have hcount := env.device.count_lt
  unfold writeBody
  dsimp only
  rw [hbs, hlen, Nat.mul_div_cancel n hpos, asU32_eq hblocks]
  split_ifs with hmiddle
  · have hin := hfit.resolve_left hmiddle
    refine (writeBlocks_spec hbs h hin hlen).bind (fun _ => .inr rfl) fun _ d₁ _ hok hbytes => ?_
    unfold Does
    rw [wp_add (by omega)]
    exact Does.done hok hbytes rfl
  · have hnil : middle = [] := not_not.mp hmiddle
    rw [hnil] at hlen
    have hn : n = 0 := (Nat.mul_eq_zero.mp hlen.symm).resolve_right hpos.ne'
    rw [hnil, Lib.splice_nil, hn]
    exact .done h rfl rfl

theorem writeTail_spec {lba : ℕ} {tail : List UInt8} (htail : tail.length ≤ bs)
    (hfit : tail = [] ∨ lba < env.device.blockCount) :
    Does env d (writeTail env lba tail) (fun _ => True) (splice d.bytes (lba * bs) tail) := by
  unfold writeTail
  split_ifs with hnil
  · exact rewriteBlock_spec hbs h (hfit.resolve_left hnil) (by omega)
  · rw [show tail = [] from not_not.mp hnil, Lib.splice_nil]
    exact .done h rfl trivial

end

/-- A write that does not fit does nothing; one that fits is done, or fails on the way. -/
theorem writeBytes_spec {offset : ℕ} {buffer : List UInt8} (h : d.Ok env.device)
    (hlength : buffer.length < 2 ^ 32 * env.device.logicalBlockSize) :
    wp (fun _ => False) (writeBytes env offset buffer)
      (fun n d' => n = buffer.length ∧ offset + buffer.length ≤ env.device.sizeBytes ∧
        Became env.device d d' (splice d.bytes offset buffer))
      (fun _ d' => d' = d ∨ offset + buffer.length ≤ env.device.sizeBytes ∧
        Failed env.device d d' (splice d.bytes offset buffer)) d := by
  have hsize := env.device.accepted.size_lt
  unfold writeBytes
  split
  · exact .inl rfl
  · next end' hend =>
    obtain ⟨rfl, -⟩ := Roanix.Mem.checkedAdd_eq_some.mp hend
    rw [env.device.sizeBytes_eq]
    dsimp only
    generalize hbs : env.device.logicalBlockSize = bs at hlength hsize ⊢
    split_ifs with hspace hempty haligned
    · exact .inl rfl
    · rw [hempty, Lib.splice_nil]
      exact ⟨rfl, by rw [hempty] at hspace; omega, h, rfl, rfl, rfl⟩
    · have hfit := not_lt.mp hspace
      have hdiv := Nat.div_add_mod' offset bs
      have hdiv' := Nat.div_add_mod' buffer.length bs
      have hin : offset / bs + buffer.length / bs ≤ env.device.blockCount := last_le hbs (by omega)
      have hstart : offset / bs * bs = offset := by omega
      rw [asU32_eq (Nat.div_lt_of_lt_mul (by rw [Nat.mul_comm]; omega)), wp_bind]
      have hwrite := writeBlocks_spec hbs h hin (show buffer.length = _ by omega)
      rw [hstart] at hwrite
      exact wp_imp hwrite (fun _ d₁ hd₁ => ⟨rfl, hfit, hd₁.1⟩) fun _ d' hd' => .inr ⟨hfit, .inr hd'⟩
    · have hfit := not_lt.mp hspace
      rw [wp_bind]
      refine wp_imp (blockBuffer_spec h) ?_ fun _ d' hd' => .inr ⟨hfit, .inl hd'⟩
      rintro - d₀ hd₀
      rw [← hd₀.bytes_eq]
      -- After the allocation nothing but a backend call can fail.
      suffices hrest : Does env d₀ _ (· = buffer.length) (splice d₀.bytes offset buffer) from
        wp_imp hrest (fun _ d' hd' => ⟨hd'.2, hfit, hd₀.trans hd'.1⟩) fun _ d' hd' =>
          .inr ⟨hfit, .inr (hd₀.hurt (fun _ => .inl rfl) hd')⟩
      have hbytes : offset + buffer.length ≤ d₀.bytes.length := by
        rw [hd₀.ok.size, hbs]
        exact hfit
      obtain ⟨done, hhead⟩ := writeHead_spec hbs hd₀.ok hempty hfit
      refine hhead.bind (mixed_splice_take hbytes done) ?_
      rintro ⟨k, lba⟩ d₁ ⟨hk, hreached⟩ hok₁ hbytes₁
      dsimp only at hk hreached ⊢
      have hwithin := hreached.within
      have hnext := hreached.next
      rw [hbs] at hnext
      have hrest : (buffer.drop done).length = buffer.length - done := length_drop
      have hfit₁ : offset + done + (buffer.drop done).length ≤ d₁.bytes.length := by
        rw [hok₁.size, hbs]
        omega
      unfold Does
      rw [hk, wp_bind, wp_sub hwithin, ← splice_drop hbytes hwithin, ← hbytes₁, ← hrest]
      generalize hleft : (buffer.drop done).length = left at hrest
      have hdiv := Nat.div_add_mod' left bs
      have hmod := Nat.mod_lt left (hbs ▸ env.device.size_pos)
      generalize hn : left / bs = n at hdiv ⊢
      have hmiddle : (slice buffer done (n * bs)).length =
          n * bs := Lib.length_slice (by omega)
      have hplace : slice buffer done (n * bs) = [] ∨
          lba * bs = offset + done := by
        refine hnext.imp_left fun hdone => ?_
        rw [show n * bs = 0 by omega, Lib.slice_zero]
      have hin (hnext : lba * bs = offset + done) :
          lba + n ≤ env.device.blockCount := by
        rw [← hn]
        exact last_le hbs (by omega)
      have hbody := writeBody_spec hbs hok₁ hmiddle
        (hn ▸ Nat.div_lt_of_lt_mul (by rw [Nat.mul_comm]; omega)) (hplace.imp_right hin)
      rw [splice_congr hplace] at hbody
      refine hbody.bind (mixed_splice_take hfit₁ _) ?_
      rintro _ d₂ rfl hok₂ (hbytes₂ : _ = splice _ _ ((buffer.drop done).take _))
      have hlast : ((buffer.drop done).drop (n * bs)).length =
          left % bs := by
        rw [length_drop]
        omega
      unfold Does
      rw [wp_bind, wp_add (by omega), ← splice_drop (k := n * bs) hfit₁
        (by omega), ← hbytes₂, ← drop_drop]
      generalize (buffer.drop done).drop (n * bs) = tail at hlast ⊢
      have hplace' : tail = [] ∨ (lba + n) * bs =
          offset + done + n * bs := by
        rw [Nat.add_mul, ← length_eq_zero_iff]
        exact hnext.imp (by omega) (by omega)
      have hin' : tail = [] ∨ lba + n < env.device.blockCount := by
        by_cases hzero : tail.length = 0
        · exact .inl (length_eq_zero_iff.mp hzero)
        · exact hplace'.imp_right fun hnext => first_lt bs hzero (by omega)
      have htailed := writeTail_spec hbs hok₂ (by omega) hin'
      rw [splice_congr hplace'] at htailed
      exact htailed.bind (fun _ => .inr rfl) fun _ d₃ _ hok₃ hbytes₃ => .done hok₃ hbytes₃ rfl

end Roanix.Dev.Block
