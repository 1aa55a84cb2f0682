import Mathlib.Data.List.Sort
import Roanix.Fs.Partition.Basic

/-! Discovery never stops, what it returns is a set of disjoint ranges of the disk, and a partition
passes on only requests inside its range. -/
namespace Roanix.Fs.PartitionM
open Lib Lib.Act List

variable {env : Env}

section Requests

theorem safe_zeroed : Safe (zeroed env) fun _ => True := by
  intro turn
  unfold zeroed wp
  dsimp only
  split_ifs <;> trivial

theorem safe_readBlocks (lba blocks length : ℕ) :
    Safe (readBlocks env lba blocks length) fun bytes => bytes.length = length := by
  intro turn
  cases h : env.read turn lba blocks length with
  | none => simp only [wp, readBlocks, h]
  | some bytes =>
    simp only [wp, readBlocks, h]
    exact env.read_length h

theorem safe_readSector (lba : ℕ) :
    Safe (readSector env lba) fun sector => sector.length = env.blockSize :=
  safe_zeroed.bind fun _ _ => safe_readBlocks _ _ _

theorem safe_le32 (bytes : List UInt8) (offset : ℕ) : Safe (le32 bytes offset) fun n => n < 2 ^ 32 :=
  (safe_okOr _ _).mono fun _ h => field_lt h

theorem safe_le64 (bytes : List UInt8) (offset : ℕ) : Safe (le64 bytes offset) fun n => n < 2 ^ 64 :=
  (safe_okOr _ _).mono fun _ h => field_lt h

end Requests

section Ranges

/-- A non-empty range of the disk after its first block. -/
structure Valid (env : Env) (p : Partition) : Prop where
  nonempty : p.blocks ≠ 0
  first : 1 ≤ p.first
  last : p.first + p.blocks ≤ env.blockCount

def Apart (p q : Partition) : Prop :=
  p.first + p.blocks ≤ q.first ∨ q.first + q.blocks ≤ p.first

theorem Apart.symm {p q : Partition} (h : Apart p q) : Apart q p := Or.symm h

theorem safe_rangesOk (partitions : List Partition) (previousEnd : ℕ) :
    Safe (rangesOk env partitions previousEnd) fun _ =>
      (∀ p ∈ partitions, Valid env p) ∧ partitions.Pairwise Apart ∧
        ∀ p ∈ partitions, previousEnd ≤ p.first := by
  induction partitions generalizing previousEnd with
  | nil => exact safe_pure ⟨fun _ h => (by cases h), .nil, fun _ h => (by cases h)⟩
  | cons p rest ih =>
    unfold rangesOk
    refine (safe_checked _ _ _).bind fun stop hstop => ?_
    refine (safe_ensure _ _).bind fun _ hp => ?_
    refine (ih stop).mono fun _ ⟨hvalid, hapart, hafter⟩ => ?_
    obtain ⟨rfl, -⟩ := hstop
    have hfirst : Valid env p := ⟨by omega, by omega, by omega⟩
    refine ⟨?_, ?_, ?_⟩
    · exact forall_mem_cons.mpr ⟨hfirst, hvalid⟩
    · exact pairwise_cons.mpr ⟨fun q hq => .inl (hafter q hq), hapart⟩
    · refine forall_mem_cons.mpr ⟨by omega, fun q hq => ?_⟩
      have := hafter q hq
      omega

theorem safe_validateRanges (partitions : List Partition) :
    Safe (validateRanges env partitions) fun output =>
      output.Perm partitions ∧ (∀ p ∈ output, Valid env p) ∧ output.Pairwise Apart := by
  unfold validateRanges
  refine (safe_rangesOk _ _).bind fun _ ⟨hvalid, hapart, _⟩ => safe_pure ?_
  have hperm := env.sort_perm Partition.number (env.sort Partition.first partitions)
  refine ⟨hperm.trans (env.sort_perm _ _), fun p hp => hvalid p (hperm.mem_iff.mp hp), ?_⟩
  exact (hperm.pairwise_iff Apart.symm).mpr hapart

end Ranges

section Output
variable {output : List Partition} {index number : ℕ}

/-- What the loops have collected: entries of the table under their own numbers, and logical
partitions under the numbers below `number`, each inside its container. -/
structure Found (output : List Partition) (index number : ℕ) : Prop where
  nodup : (output.map Partition.number).Nodup
  named : ∀ p ∈ output, p.number ≤ index ∧ p.container = none ∨ 5 ≤ p.number ∧ p.number < number
  inside : ∀ p ∈ output, ∀ c, p.container = some c →
    c.base ≤ p.first ∧ p.first + p.blocks ≤ c.base + c.blocks

theorem Found.nil (index number : ℕ) : Found [] index number :=
  ⟨nodup_nil, fun _ h => (by cases h), fun _ h => (by cases h)⟩

theorem Found.weaken (hf : Found output index number) : Found output (index + 1) number :=
  ⟨hf.nodup, fun p hp => (hf.named p hp).imp_left fun h => ⟨Nat.le_succ_of_le h.1, h.2⟩, hf.inside⟩

theorem Found.of_perm {result : List Partition} (hf : Found output index number)
    (h : result.Perm output) : Found result index number :=
  ⟨(h.map _).nodup_iff.mpr hf.nodup, fun p hp => hf.named p (h.mem_iff.mp hp),
    fun p hp => hf.inside p (h.mem_iff.mp hp)⟩

theorem nodup_push {p : Partition} (hn : (output.map Partition.number).Nodup)
    (hp : ∀ q ∈ output, q.number ≠ p.number) : ((output ++ [p]).map Partition.number).Nodup := by
  rw [map_append, nodup_append]
  refine ⟨hn, nodup_singleton _, fun a ha b hb => ?_⟩
  obtain ⟨q, hq, rfl⟩ := mem_map.mp ha
  obtain rfl := mem_singleton.mp hb
  exact hp q hq

theorem Found.entry (hf : Found output index number) (h : index < 4 ∨ number = 5)
    (first blocks : ℕ) :
    Found (output ++ [⟨index + 1, first, blocks, none⟩]) (index + 1) number where
  nodup := nodup_push hf.nodup fun q hq => by
    have := hf.named q hq
    dsimp only
    omega
  named := forall_mem_append.mpr ⟨hf.weaken.named, forall_mem_singleton.mpr
    (.inl ⟨le_rfl, rfl⟩)⟩
  inside := forall_mem_append.mpr ⟨hf.inside, forall_mem_singleton.mpr fun _ h => by cases h⟩

theorem Found.logical (hf : Found output index number) (hindex : index ≤ 4) (hnumber : 5 ≤ number)
    {container : Container} {first blocks : ℕ} (hfirst : container.base ≤ first)
    (hlast : first + blocks ≤ container.base + container.blocks) :
    Found (output ++ [⟨number, first, blocks, some container⟩]) index (number + 1) where
  nodup := nodup_push hf.nodup fun q hq => by
    have := hf.named q hq
    dsimp only
    omega
  named := by
    refine forall_mem_append.mpr ⟨fun p hp => ?_, forall_mem_singleton.mpr ?_⟩
    · exact (hf.named p hp).imp_right fun h => ⟨h.1, Nat.lt_succ_of_lt h.2⟩
    · exact .inr ⟨hnumber, Nat.lt_succ_self _⟩
  inside := by
    refine forall_mem_append.mpr ⟨hf.inside, forall_mem_singleton.mpr fun c hc => ?_⟩
    cases hc
    exact ⟨hfirst, hlast⟩

end Output

section Gpt
variable {entries : List UInt8} {entrySize firstUsable lastUsable : ℕ}

theorem safe_gptEntries {left index : ℕ} {output : List Partition}
    (hsize : gptMinEntry ≤ entrySize) (hfit : (index + left) * entrySize ≤ entries.length)
    (hlen : entries.length < 2 ^ 64) (hlast : lastUsable < env.blockCount)
    (hf : Found output index 5) :
    Safe (gptEntries entries entrySize firstUsable lastUsable left index output) fun out =>
      Found out (index + left) 5 := by
  have hcount := env.count_lt
  simp only [gptMinEntry] at hsize
  induction left generalizing index output with
  | zero => exact safe_pure hf
  | succ left ih =>
    have hstep : (index + 1) * entrySize ≤ entries.length :=
      Nat.le_trans (Nat.mul_le_mul_right _ (by omega)) hfit
    have hbegin : index * entrySize ≤ (index + 1) * entrySize := Nat.mul_le_mul_right _ (by omega)
    have hindex : index + 1 ≤ (index + 1) * entrySize := Nat.le_mul_of_pos_right _ (by omega)
    have hrest : (index + 1 + left) * entrySize ≤ entries.length := by
      rwa [Nat.add_right_comm] at *
    have hdone : index + 1 + left = index + (left + 1) := by omega
    unfold gptEntries
    refine (safe_mul (by omega) _).bind fun start hstart => ?_
    refine (safe_add (by omega) _).bind fun next hnext => ?_
    subst hstart hnext
    refine (safe_mul (by omega) _).bind fun stop hstop => ?_
    subst hstop
    refine (safe_subslice hbegin hstep _).bind fun entry hentry => ?_
    have hentrylen : entry.length = entrySize := by
      rw [hentry.2, Nat.add_mul, Nat.one_mul, Nat.add_sub_cancel_left]
    refine (safe_subslice (Nat.zero_le _) (by omega) _).bind fun kind _ => ?_
    split_ifs
    · exact hdone ▸ ih hrest hf.weaken
    · refine (safe_le64 _ _).bind fun first hfirst => ?_
      refine (safe_le64 _ _).bind fun last hlast' => ?_
      refine (safe_ensure _ _).bind fun _ hrange => ?_
      refine (safe_sub (by omega) _).bind fun span hspan => ?_
      refine (safe_add (by omega) _).bind fun blocks hblocks => ?_
      exact hdone ▸ ih hrest (hf.entry (.inr rfl) _ _)

theorem safe_gptHeader {header : List UInt8} (hlen : header.length = env.blockSize) :
    Safe (gptHeader env header) fun table =>
      table.lastUsable < env.blockCount ∧ table.entryCount ≤ maxGptEntries ∧
        gptMinEntry ≤ table.entrySize := by
  unfold gptHeader
  refine (safe_ensure _ _).bind fun _ _ => ?_
  refine (safe_le32 _ _).bind fun headerSize _ => ?_
  refine (safe_ensure _ _).bind fun _ hheader => ?_
  refine (safe_le32 _ _).bind fun storedCrc _ => ?_
  refine (safe_subslice (Nat.zero_le _) (by omega) _).bind fun covered hcovered => ?_
  have hmin : 20 ≤ covered.length := by
    have := hheader.1
    simp only [gptMinHeader] at this
    omega
  refine (safe_check hmin _).bind fun _ _ => ?_
  refine (safe_ensure _ _).bind fun _ _ => ?_
  refine (safe_le64 _ _).bind fun current _ => ?_
  refine (safe_ensure _ _).bind fun _ _ => ?_
  refine (safe_le64 _ _).bind fun backup _ => ?_
  refine (safe_ensure _ _).bind fun _ _ => ?_
  refine (safe_le64 _ _).bind fun firstUsable _ => ?_
  refine (safe_le64 _ _).bind fun lastUsable _ => ?_
  refine (safe_ensure _ _).bind fun _ husable => ?_
  refine (safe_le64 _ _).bind fun entriesLba _ => ?_
  refine (safe_le32 _ _).bind fun entryCount _ => ?_
  refine (safe_le32 _ _).bind fun entrySize _ => ?_
  refine (safe_ensure _ _).bind fun _ hentries => ?_
  exact safe_pure ⟨husable.2, hentries.2.1, hentries.2.2.1⟩

theorem safe_discoverGpt (hbs : 512 ≤ env.blockSize) :
    Safe (discoverGpt env) fun output =>
      (∃ index, Found output index 5) ∧ (∀ p ∈ output, Valid env p) ∧ output.Pairwise Apart := by
  have hsize := env.size_lt
  unfold discoverGpt
  refine (safe_ensure _ _).bind fun _ _ => ?_
  refine (safe_readSector _).bind fun header hheader => ?_
  refine (safe_gptHeader hheader).bind fun table ⟨hlast, hcount, hentry⟩ => ?_
  refine (safe_checked _ _ _).bind fun bytes ⟨hbytes, _⟩ => ?_
  refine (safe_ensure _ _).bind fun _ hmax => ?_
  have hcover : bytes ≤ (bytes + env.blockSize - 1) / env.blockSize * env.blockSize := by
    have hdiv := Nat.div_add_mod' (bytes + env.blockSize - 1) env.blockSize
    have hmod := Nat.mod_lt (bytes + env.blockSize - 1) (show 0 < env.blockSize by omega)
    omega
  have hsmall : (bytes + env.blockSize - 1) / env.blockSize * env.blockSize < 2 ^ 64 := by
    have hle := Nat.div_mul_le_self (bytes + env.blockSize - 1) env.blockSize
    simp only [maxGptBytes] at hmax
    omega
  refine (safe_checked _ _ _).bind fun stop _ => ?_
  refine (safe_ensure _ _).bind fun _ _ => ?_
  refine (safe_mul hsmall _).bind fun length hlength => ?_
  refine safe_zeroed.bind fun _ _ => ?_
  refine (safe_ensure _ _).bind fun _ _ => ?_
  refine (safe_readBlocks _ _ _).bind fun entries hentries => ?_
  have hfit : bytes ≤ entries.length := by omega
  refine (safe_subslice (Nat.zero_le _) hfit _).bind fun covered _ => ?_
  refine (safe_le32 _ _).bind fun entriesCrc _ => ?_
  refine (safe_ensure _ _).bind fun _ _ => ?_
  refine (safe_gptEntries hentry (by rwa [Nat.zero_add, ← hbytes]) (by omega) hlast
    (.nil 0 5)).bind fun output hfound => ?_
  refine (safe_validateRanges output).mono fun result ⟨hperm, hvalid, hapart⟩ => ?_
  exact ⟨⟨_, hfound.of_perm hperm⟩, hvalid, hapart⟩

end Gpt

section Mbr
variable {container : Container} {containerEnd number index : ℕ} {output : List Partition}

structure Chained (index number links : ℕ) (found : ℕ × List Partition) : Prop where
  start : 5 ≤ found.1
  bound : found.1 ≤ number + links
  found : Found found.2 index found.1

theorem safe_pushLogical (hend : containerEnd = container.base + container.blocks)
    (hindex : index ≤ 4) (hnumber : 5 ≤ number) (hbound : number + 1 < 2 ^ 64)
    (hf : Found output index number) (ebrLba : ℕ) (kind : UInt8) (firstRelative blocks : ℕ) :
    Safe (pushLogical container containerEnd ebrLba kind firstRelative blocks number output)
      (Chained index number 1) := by
  unfold pushLogical
  split_ifs with hpush
  · refine (safe_checked _ _ _).bind fun first _ => ?_
    refine (safe_ensure _ _).bind fun _ hin => ?_
    refine (safe_add hbound _).bind fun next hnext => safe_pure ?_
    subst hnext
    rw [not_or, Nat.not_lt] at hin
    have hlast : first + blocks ≤ container.base + container.blocks := by
      have hall := hin.2
      unfold checked at hall
      split_ifs at hall with hfits
      · rw [Option.all_some, decide_eq_true_eq] at hall
        omega
      · exact absurd rfl hall
    exact ⟨by omega, le_rfl, hf.logical hindex hnumber hin.1 hlast⟩
  · exact safe_pure ⟨hnumber, Nat.le_succ _, hf⟩

section
variable (hbs : 512 ≤ env.blockSize)
include hbs

section
variable (hnumber : 5 ≤ number) (hf : Found output index number)
include hnumber hf

theorem safe_ebrLoop {links relative : ℕ} {visited : List ℕ}
    (hend : containerEnd = container.base + container.blocks) (hindex : index ≤ 4)
    (hbound : number + links < 2 ^ 64) :
    Safe (ebrLoop env container containerEnd links relative visited number output)
      (Chained index number links) := by
  induction links generalizing relative visited number output with
  | zero => exact (fun _ => trivial)
  | succ links ih =>
    unfold ebrLoop
    refine (safe_checked _ _ _).bind fun ebrLba _ => ?_
    refine (safe_ensure _ _).bind fun _ _ => ?_
    refine (safe_readSector _).bind fun sector hsector => ?_
    refine (safe_ensure _ _).bind fun _ _ => ?_
    refine (safe_subslice (by omega) (by omega) _).bind fun logical hlogical => ?_
    refine (safe_byteAt (by omega) _).bind fun kind _ => ?_
    refine (safe_le32 _ _).bind fun firstRelative _ => ?_
    refine (safe_le32 _ _).bind fun blocks _ => ?_
    refine (safe_pushLogical hend hindex hnumber (by omega) hf _ _ _ _).bind fun found hfound => ?_
    have hnext := hfound.bound
    have hstop : Chained index number (links + 1) found :=
      ⟨hfound.start, by omega, hfound.found⟩
    refine (safe_subslice (by omega) (by omega) _).bind fun link hlink => ?_
    refine (safe_byteAt (by omega) _).bind fun linkKind _ => ?_
    split_ifs
    · refine (safe_le32 _ _).bind fun linkBlocks _ => ?_
      split_ifs
      · exact safe_pure hstop
      · refine (safe_le32 _ _).bind fun linkFirst _ => ?_
        refine (ih hfound.start hfound.found (by omega)).mono fun found' hfound' => ?_
        have := hfound'.bound
        exact { hfound' with bound := by omega }
    · exact safe_pure hstop

theorem safe_discoverEbr (hindex : index ≤ 4) (hbound : number + maxEbrLinks < 2 ^ 64)
    (base containerBlocks : ℕ) :
    Safe (discoverEbr env base containerBlocks number output)
      (Chained index number maxEbrLinks) := by
  unfold discoverEbr
  refine (safe_okOr _ _).bind fun containerEnd hend => ?_
  have hsum := checked_eq_some.mp (Option.filter_eq_some_iff.mp hend).1
  exact safe_ebrLoop hbs hnumber hf hsum.1 hindex hbound

theorem safe_mbrEntries {left : ℕ} {sector : List UInt8} (hsector : 512 ≤ sector.length)
    (hleft : index + left = 4) (hbound : number ≤ 5 + index * maxEbrLinks) :
    Safe (mbrEntries env sector left index number output) fun out => ∃ n, Found out 4 n := by
  simp only [maxEbrLinks] at hbound
  induction left generalizing index number output with
  | zero =>
    obtain rfl : index = 4 := hleft
    exact safe_pure ⟨number, hf⟩
  | succ left ih =>
    unfold mbrEntries
    refine (safe_subslice (by omega) (by omega) _).bind fun entry hentry => ?_
    refine (safe_byteAt (by omega) _).bind fun kind _ => ?_
    refine (safe_le32 _ _).bind fun first _ => ?_
    refine (safe_le32 _ _).bind fun blocks _ => ?_
    split_ifs
    · exact ih hnumber hf.weaken (by omega) (by omega)
    · refine (safe_discoverEbr hbs hnumber hf (by omega) (by simp only [maxEbrLinks]; omega) _
        _).bind fun found hfound => ?_
      have hnext := hfound.bound
      simp only [maxEbrLinks] at hnext
      exact ih hfound.start hfound.found.weaken (by omega) (by omega)
    · exact ih hnumber (hf.entry (.inl (by omega)) _ _) (by omega) (by omega)
    · exact ih hnumber hf.weaken (by omega) (by omega)

end

theorem safe_discoverMbr {sector : List UInt8} (hsector : 512 ≤ sector.length) :
    Safe (discoverMbr env sector) fun result =>
      (∃ n, Found result 4 n) ∧ (∀ p ∈ result, Valid env p) ∧ result.Pairwise Apart := by
  unfold discoverMbr
  refine (safe_mbrEntries hbs le_rfl (.nil 0 5) hsector rfl (by omega)).bind
    fun output ⟨n, hfound⟩ => ?_
  refine (safe_ensure _ _).bind fun _ _ => ?_
  refine (safe_validateRanges output).mono fun result ⟨hperm, hvalid, hapart⟩ => ?_
  exact ⟨⟨n, hfound.of_perm hperm⟩, hvalid, hapart⟩

end

end Mbr

theorem safe_protective {sector : List UInt8} (hsector : 512 ≤ sector.length) {left index : ℕ}
    (h : index + left = 4) : Safe (protective sector left index) fun _ => True := by
  induction left generalizing index with
  | zero => exact safe_pure trivial
  | succ left ih =>
    unfold protective
    refine (safe_byteAt (by omega) _).bind fun kind _ => ?_
    split_ifs
    · exact safe_pure trivial
    · exact ih (by omega)

theorem safe_discover (env : Env) : Safe (discover env) fun result =>
    (∃ index n, Found result index n) ∧ (∀ p ∈ result, Valid env p) ∧ result.Pairwise Apart := by
  unfold discover
  refine (safe_ensure _ _).bind fun _ hbs => ?_
  refine (safe_readSector _).bind fun sector hsector => ?_
  refine (safe_ensure _ _).bind fun _ _ => ?_
  refine (safe_protective (by omega) rfl).bind fun gpt _ => ?_
  split_ifs
  · refine (safe_discoverGpt hbs).mono fun result ⟨⟨index, hfound⟩, hrest⟩ => ?_
    exact ⟨⟨index, 5, hfound⟩, hrest⟩
  · refine (safe_discoverMbr hbs (by omega)).mono fun result ⟨⟨n, hfound⟩, hrest⟩ => ?_
    exact ⟨⟨4, n, hfound⟩, hrest⟩

section Backend
variable {σ α : Type} {b : PartitionBackend} {lba blocks : ℕ} {request : ℕ → Act Error Panic σ α}

theorem PartitionBackend.forward_inside (hlt : b.first + b.blocks < 2 ^ 64)
    (h : lba + blocks ≤ b.blocks) : b.forward lba blocks request = request (b.first + lba) := by
  funext s
  have hstop : checked 64 (lba + blocks) = some (lba + blocks) := if_pos (by omega)
  have hplace : checked 64 (b.first + lba) = some (b.first + lba) := if_pos (by omega)
  have hmap : (b.map lba blocks : Act Error Panic σ ℕ) s = .ok (b.first + lba) s := by
    rw [map, hstop, bind_ok (okOr_some _ _ s), bind_ok (ensure_ok h _ _), hplace, okOr_some]
  rw [forward, bind_ok hmap]

theorem PartitionBackend.forward_outside (h : ¬ lba + blocks ≤ b.blocks) :
    b.forward lba blocks request = fail .invalidArgument := by
  funext s
  have hmap : (b.map lba blocks : Act Error Panic σ ℕ) s = .err .invalidArgument s := by
    rw [map]
    by_cases hfits : lba + blocks < 2 ^ 64
    · have hstop : checked 64 (lba + blocks) = some (lba + blocks) := if_pos hfits
      rw [hstop, bind_ok (okOr_some _ _ s), bind_err (ensure_err h _ _)]
    · have hstop : checked 64 (lba + blocks) = none := if_neg hfits
      rw [hstop]
      rfl
  rw [forward, bind_err hmap]
  rfl

end Backend

def InContainer (p : Partition) : Prop :=
  ∀ c, p.container = some c → c.base ≤ p.first ∧ p.first + p.blocks ≤ c.base + c.blocks

/-- Whatever the disk holds, discovery returns or fails, and the partitions it returns have different
numbers, are non-empty, disjoint ranges after the first block inside their containers, and pass on
just the requests inside their range. -/
theorem discover_sound (env : Env) (turn : ℕ) :
    (∀ r, discover env turn ≠ .panic r) ∧
    ∀ partitions turn', discover env turn = .ok partitions turn' →
      (partitions.map Partition.number).Nodup ∧
      (∀ p ∈ partitions, p.blocks ≠ 0 ∧ 1 ≤ p.first ∧ p.first + p.blocks ≤ env.blockCount) ∧
      partitions.Pairwise Apart ∧
      (∀ p ∈ partitions, InContainer p) ∧
      ∀ p ∈ partitions, ∀ (σ : Type) (parent : Parent σ) (lba blocks length : ℕ)
        (buffer : List UInt8),
        let b : PartitionBackend := ⟨p.first, p.blocks⟩
        if lba + blocks ≤ p.blocks then
          b.readBlocks parent lba blocks length = parent.readBlocks (p.first + lba) blocks length ∧
          b.writeBlocks parent lba blocks buffer = parent.writeBlocks (p.first + lba) blocks buffer ∧
          b.discard parent lba blocks = parent.discard (p.first + lba) blocks
        else
          b.readBlocks parent lba blocks length = fail .invalidArgument ∧
          b.writeBlocks parent lba blocks buffer = fail .invalidArgument ∧
          b.discard parent lba blocks = fail .invalidArgument := by
  have hsafe := safe_discover env
  refine ⟨fun r => wp_panic (hsafe _), fun partitions turn' hok => ?_⟩
  obtain ⟨⟨index, n, hfound⟩, hvalid, hapart⟩ := wp_ok (hsafe _) hok
  refine ⟨hfound.nodup, fun p hp => ?_, hapart, hfound.inside, ?_⟩
  · exact ⟨(hvalid p hp).nonempty, (hvalid p hp).first, (hvalid p hp).last⟩
  · intro p hp σ parent lba blocks length buffer b
    have hlt : b.first + b.blocks < 2 ^ 64 := Nat.lt_of_le_of_lt (hvalid p hp).last env.count_lt
    split_ifs with hin
    · exact ⟨PartitionBackend.forward_inside hlt hin, PartitionBackend.forward_inside hlt hin,
        PartitionBackend.forward_inside hlt hin⟩
    · exact ⟨PartitionBackend.forward_outside hin, PartitionBackend.forward_outside hin,
        PartitionBackend.forward_outside hin⟩

def exampleEntries (lba : ℕ) : List UInt8 :=
  if lba = 0 then
    [0, 0, 0, 0, 0x83, 0, 0, 0, 1, 0, 0, 0, 9, 0, 0, 0,
      0, 0, 0, 0, 0x05, 0, 0, 0, 20, 0, 0, 0, 50, 0, 0, 0]
  else
    [0, 0, 0, 0, 0x83, 0, 0, 0, 1, 0, 0, 0, 10, 0, 0, 0,
      0, 0, 0, 0, 0, 0, 0, 0, 0, 0, 0, 0, 0, 0, 0, 0]

theorem length_exampleEntries (lba : ℕ) : (exampleEntries lba).length = 32 := by
  unfold exampleEntries
  split_ifs <;> rfl

def exampleEnv : Env where
  blockSize := 512
  blockCount := 100
  size_lt := by decide
  count_lt := by decide
  read _ lba _ length :=
    if length = 512 then
      some (List.replicate 446 0 ++ exampleEntries lba ++ List.replicate 32 0 ++ [0x55, 0xaa])
    else none
  read_length h := by
    split_ifs at h with hlen
    cases h
    simp only [List.length_append, List.length_replicate, length_exampleEntries, List.length_cons,
      List.length_nil, hlen]
  refuses _ := false
  sort key l := l.insertionSort fun p q => key p ≤ key q
  sort_perm key l := List.perm_insertionSort _ l
  sort_sorted key l := by
    have : Std.Total fun p q : Partition => key p ≤ key q := ⟨fun p q => Nat.le_total _ _⟩
    have : IsTrans Partition fun p q => key p ≤ key q := ⟨fun _ _ _ => Nat.le_trans⟩
    exact List.pairwise_insertionSort _ l

theorem discover_sound_example : ∃ partitions turn, discover exampleEnv 0 = .ok partitions turn ∧
    partitions = [⟨1, 1, 9, none⟩, ⟨5, 21, 10, some ⟨20, 50⟩⟩] ∧
    (partitions.map Partition.number).Nodup := by
  have hok : discover exampleEnv 0 =
      .ok [⟨1, 1, 9, none⟩, ⟨5, 21, 10, some ⟨20, 50⟩⟩] 4 := by decide +kernel
  exact ⟨_, _, hok, rfl, ((discover_sound exampleEnv 0).2 _ _ hok).1⟩

end Roanix.Fs.PartitionM
