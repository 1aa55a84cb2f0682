import Roanix.Fs.Fat32.Read
import Roanix.Lib.Machine

/-! A mounted volume under any order of reads, of which several may be under way at once. -/
namespace Roanix.Fs.Fat32
open Lib (Act slice Machine)
open Lib.Act
open Dev

/-- A read that has released the index and not yet read the file's bytes. -/
structure Flight where
  p : ℕ
  offset : ℕ
  length : ℕ
  runs : List Run

structure Session where
  volume : FatVolume
  flights : List Flight

/-- A device with these contents that nothing was asked of yet. -/
structure FatVolume.Fresh (env : Env) (bytes : List UInt8) (v : FatVolume) : Prop where
  bytes_eq : v.disk.bytes = bytes
  size : bytes.length = env.block.device.blockCount * env.block.device.logicalBlockSize
  calls : v.disk.calls = []
  asked : v.asked = []
  chains : v.chains = fun _ => default

section Machine
variable (env : Env) (g : Geometry) (files : ℕ → FatPager)

/-- One step of one reader: an index is locked for as long as it is used. -/
inductive Step (s : Session) : Session → Prop
  | locate {p offset length : ℕ} {runs : List Run} {v' : FatVolume}
      (hne : (files p).clip offset length ≠ 0)
      (h : locate env g (files p).firstCluster p offset ((files p).clip offset length) s.volume =
        .ok runs v') : Step s ⟨v', s.flights ++ [⟨p, offset, length, runs⟩]⟩
  | locateFails {p offset length : ℕ} {e : Error} {v' : FatVolume}
      (hne : (files p).clip offset length ≠ 0)
      (h : locate env g (files p).firstCluster p offset ((files p).clip offset length) s.volume =
        .err e v') : Step s ⟨v', s.flights⟩
  | fetch {f : Flight} {v' : FatVolume} (hf : f ∈ s.flights)
      (h : (fetch env f.length f.runs 0).Leaves s.volume v') : Step s ⟨v', s.flights⟩
  /-- The object of a file was dropped; its pager is made anew when it is next used. -/
  | dropObject (p : ℕ) :
      Step s ⟨{ s.volume with chains := Function.update s.volume.chains p default }, s.flights⟩
  | nextCluster {cluster : ℕ} {v' : FatVolume}
      (h : (nextCluster env g cluster).Leaves s.volume v') : Step s ⟨v', s.flights⟩
  | readCluster {cluster : ℕ} {v' : FatVolume}
      (h : (readCluster env g cluster).Leaves s.volume v') : Step s ⟨v', s.flights⟩

/-- A volume with these contents that was mounted with this geometry, and what is done to it. -/
def machine (bytes : List UInt8) : Machine Session where
  init s := (∃ v, v.Fresh env bytes ∧ new env v = .ok g s.volume) ∧ s.flights = []
  step := Step env g files

structure Flight.Ok (bytes : List UInt8) (f : Flight) : Prop where
  placed : Placed g.totalBytes bytes f.runs
    (slice ((files f.p).content g bytes) f.offset ((files f.p).clip f.offset f.length))
  sound : Sound g bytes (files f.p).firstCluster
    (g.needed (f.offset + (files f.p).clip f.offset f.length))

structure Inv (bytes : List UInt8) (s : Session) : Prop where
  geometry : g.Ok env.block.device.sizeBytes
  volume : s.volume.Ok env
  bytes_eq : s.volume.disk.bytes = bytes
  chains : ∀ p, (s.volume.chains p).Ok g bytes (files p).firstCluster
  flights : ∀ f ∈ s.flights, f.Ok g files bytes

end Machine

variable {env : Env} {g : Geometry} {files : ℕ → FatPager} {bytes : List UInt8} {s s' : Session}

theorem FatVolume.Fresh.ok {v : FatVolume} (h : v.Fresh env bytes) : v.Ok env where
  disk := by
    refine ⟨h.bytes_eq ▸ h.size, ?_⟩
    rw [h.calls]
    nofun
  asked := by
    rw [h.asked]
    nofun

theorem inv_init (h : (machine env g files bytes).init s) : Inv env g files bytes s := by
  obtain ⟨⟨v, hfresh, hnew⟩, hflights⟩ := h
  obtain ⟨hg, hlooked⟩ := wp_ok (new_spec hfresh.ok) hnew
  refine ⟨hg, hlooked.ok, hlooked.disk.bytes_eq.trans hfresh.bytes_eq, fun p => ?_, ?_⟩
  · rw [hlooked.chains, hfresh.chains]
    exact .default _
  · rw [hflights]
    nofun

section
variable (h : Inv env g files bytes s)
include h

theorem Inv.looked {v' : FatVolume} (hv' : Looked env s.volume v') :
    Inv env g files bytes ⟨v', s.flights⟩ where
  geometry := h.geometry
  volume := hv'.ok
  bytes_eq := hv'.disk.bytes_eq.trans h.bytes_eq
  chains p := by
    rw [hv'.chains]
    exact h.chains p
  flights := h.flights

theorem Inv.grown {p : ℕ} {v' : FatVolume}
    (hv' : Grown env g (files p).firstCluster p s.volume v') :
    Inv env g files bytes ⟨v', s.flights⟩ where
  geometry := h.geometry
  volume := hv'.ok
  bytes_eq := hv'.disk.bytes_eq.trans h.bytes_eq
  chains q := by
    by_cases hq : q = p
    · subst hq
      rw [← h.bytes_eq, ← hv'.disk.bytes_eq]
      exact hv'.chain
    · rw [hv'.others q hq]
      exact h.chains q
  flights := h.flights

theorem Flight.Ok.fetch_spec {f : Flight} (hf : f ∈ s.flights) :
    wp (fun _ => False) (fetch env f.length f.runs 0)
      (fun data v' => Looked env s.volume v' ∧ data = slice ((files f.p).content g bytes) f.offset
        ((files f.p).clip f.offset f.length))
      (fun _ v' => Looked env s.volume v' ∧ Trouble s.volume v') s.volume := by
  have hplaced := (h.flights f hf).placed
  have hclip : (files f.p).clip f.offset f.length ≤ f.length ∧
      (files f.p).clip f.offset f.length ≤ (files f.p).size := by
    unfold FatPager.clip
    omega
  have htotal : (f.runs.map Prod.snd).sum ≤ (files f.p).clip f.offset f.length := by
    rw [hplaced.total]
    exact List.length_take_le _ _
  have hsize := (files f.p).size_lt
  refine wp_post (Fat32.fetch_spec h.geometry h.volume hplaced.inside (by omega) (by omega)) ?_
  rintro data v' ⟨hv', rfl⟩
  refine ⟨hv', ?_⟩
  rw [h.bytes_eq, hplaced.bytes_eq]

theorem Inv.locate_spec {p offset length : ℕ} (hne : (files p).clip offset length ≠ 0) :
    wp (fun _ => False)
      (locate env g (files p).firstCluster p offset ((files p).clip offset length))
      (fun runs v' => Grown env g (files p).firstCluster p s.volume v' ∧
        Flight.Ok g files bytes ⟨p, offset, length, runs⟩)
      (fun _ v' => Grown env g (files p).firstCluster p s.volume v') s.volume := by
  have hc := h.chains p
  rw [← h.bytes_eq] at hc
  refine wp_imp (Fat32.locate_spec h.geometry h.volume hc ?_) ?_ fun _ _ => And.left
  · unfold FatPager.clip at hne ⊢
    omega
  · rintro runs v' ⟨hgrown, hplaced, hsound⟩
    rw [h.bytes_eq] at hplaced hsound
    exact ⟨hgrown, hplaced, hsound⟩

theorem inv_step (hstep : Step env g files s s') :
    Inv env g files bytes s' := by
  cases hstep with
  | locate hne hl =>
    obtain ⟨hgrown, hflight⟩ := wp_ok (h.locate_spec hne) hl
    have hinv := h.grown hgrown
    exact { hinv with
      flights := List.forall_mem_append.mpr ⟨h.flights, List.forall_mem_singleton.mpr hflight⟩ }
  | locateFails hne hl =>
    have hgrown := wp_err (h.locate_spec hne) hl
    exact h.grown hgrown
  | fetch hf hl =>
    exact h.looked (wp_leaves (Flight.Ok.fetch_spec h hf) hl (fun _ => And.left) fun _ => And.left)
  | dropObject p =>
    refine { h with volume := ⟨h.volume.disk, h.volume.asked⟩, chains := ?_ }
    exact (Function.forall_update_iff _ fun q c => ClusterChain.Ok g bytes (files q).firstCluster c).mpr
      ⟨.default _, fun q _ => h.chains q⟩
  | nextCluster hl =>
    exact h.looked (wp_leaves (nextCluster_looked h.geometry h.volume) hl (fun _ => id) fun _ => id)
  | readCluster hl =>
    exact h.looked (wp_leaves (readCluster_spec h.geometry h.volume) hl (fun _ => And.left)
      fun _ => And.left)

end

/-- What a mounted volume promises. A failed read is a failed device, table page or allocation, or a
chain that is not sound as far as the read needs it. -/
structure Safe (env : Env) (g : Geometry) (files : ℕ → FatPager) (bytes : List UInt8) (s : Session) :
    Prop where
  asked : ∀ r ∈ s.volume.asked, r.1 + r.2 ≤ env.block.device.sizeBytes
  calls : ∀ c ∈ s.volume.disk.calls, c.Proper env.block.device
  entry : ∀ cluster, validateCluster g cluster s.volume = .ok () s.volume →
    g.entryOffset cluster + 4 ≤ env.block.device.sizeBytes ∧
    wp (fun _ => False) (fatEntry env g cluster) (fun e _ => e = g.entry bytes cluster)
      (fun _ v' => Trouble s.volume v') s.volume
  cluster : ∀ cluster, validateCluster g cluster s.volume = .ok () s.volume →
    wp (fun _ => False) (clusterOffset g cluster)
      (fun start _ => start + g.bytesPerCluster ≤ env.block.device.sizeBytes) (fun _ _ => False)
      s.volume
  read : ∀ p offset length, offset + length ≤ (files p).size →
    wp (fun _ => False) (readFile env g (files p) p offset length)
      (fun data _ => data = slice ((files p).content g bytes) offset length ∧
        (length = 0 ∨ Sound g bytes (files p).firstCluster (g.needed (offset + length))))
      (fun _ v' => Trouble s.volume v' ∨
        ¬ Sound g bytes (files p).firstCluster (g.needed (offset + length))) s.volume
  fetch : ∀ f ∈ s.flights,
    wp (fun _ => False) (fetch env f.length f.runs 0)
      (fun data _ => data = slice ((files f.p).content g bytes) f.offset
          ((files f.p).clip f.offset f.length) ∧
        Sound g bytes (files f.p).firstCluster
          (g.needed (f.offset + (files f.p).clip f.offset f.length)))
      (fun _ v' => Trouble s.volume v') s.volume

theorem Geometry.Ok.valid_of_validate {size cluster : ℕ} {v : FatVolume} (hg : g.Ok size)
    (h : validateCluster g cluster v = .ok () v) : g.Valid cluster := by
  have hvalidate : wp (fun _ => False) (validateCluster g cluster) (fun _ _ => g.Valid cluster)
      (fun _ _ => True) v := wp_validateCluster hg id fun _ => trivial
  exact (wp_ok hvalidate h :)

/-- Whatever is on the device, mounting it computes without overflow, and a volume that was mounted is
read safely and faithfully from every state that earlier reads left. -/
theorem volume_reads_faithfully :
    (∀ v : FatVolume, v.Fresh env bytes → wp (fun _ => False) (new env)
      (fun _ _ => True) (fun _ _ => True) v) ∧
    ((machine env g files bytes).Reachable s → Safe env g files bytes s) := by
  refine ⟨fun v hv => wp_imp (new_spec hv.ok) (fun _ _ _ => trivial)
    fun _ _ _ => trivial, fun hs => ?_⟩
  have h := hs.invariant (fun _ => inv_init) fun _ _ => inv_step
  have hsize := env.block.device.accepted.size_lt
  rw [← env.block.device.sizeBytes_eq] at hsize
  refine ⟨h.volume.asked, h.volume.disk.calls, fun cluster hc => ⟨?_, ?_⟩, fun cluster hc => ?_,
    fun p offset length hin => ?_, fun f hf => ?_⟩
  · have hentry := h.geometry.entry_le (h.geometry.valid_of_validate hc)
    have := h.geometry.table
    have := h.geometry.clusters
    have := h.geometry.total
    omega
  · refine wp_imp (fatEntry_spec h.geometry h.volume (h.geometry.valid_of_validate hc))
      (fun e v' hv' => ?_) fun _ _ => And.right
    rw [← h.bytes_eq]
    exact hv'.2
  · have hvalid := h.geometry.valid_of_validate hc
    exact wp_clusterOffset h.geometry hsize hvalid ((h.geometry.start_le hvalid).trans h.geometry.total)
  · have hclip : (files p).clip offset length = length := by
      unfold FatPager.clip
      omega
    have hc := h.chains p
    rw [← h.bytes_eq] at hc ⊢
    refine wp_imp (readFile_spec h.geometry h.volume hc) ?_ fun _ v' hv' => ?_
    · rintro data v' ⟨-, rfl, hsound⟩
      rw [hclip] at hsound ⊢
      exact ⟨by rw [Nat.sub_self, List.replicate_zero, List.append_nil], hsound⟩
    · have hwhy := hv'.2.2
      rwa [hclip] at hwhy
  · exact wp_imp (Flight.Ok.fetch_spec h hf)
      (fun _ v' hv' => ⟨hv'.2, (h.flights f hf).sound⟩) fun _ _ => And.right

def smallBoot : List UInt8 :=
  List.replicate 11 0 ++ [0x00, 0x02, 1, 1, 0, 1, 0, 0, 0, 0, 0xf8, 0, 0] ++ List.replicate 8 0 ++
    [0xf8, 0x01, 0x01, 0, 0x00, 0x02, 0, 0, 0, 0, 0, 0, 2, 0, 0, 0] ++ List.replicate 462 0 ++
    [0x55, 0xaa]

def smallBytes : List UInt8 :=
  smallBoot ++ [0, 0, 0, 0, 0, 0, 0, 0, 3, 0, 0, 0, 0xff, 0xff, 0xff, 0x0f] ++
    List.replicate (66040 * 512 - 528) 0

def smallEnv : Env where
  block := ⟨⟨512, 1, 66040, by decide, by decide, by decide, by decide, by decide, by decide⟩,
    fun _ => none, fun _ => false⟩
  metadataFails _ := false
  refuses _ := false

def smallGeometry : Geometry where
  bytesPerCluster := 512
  fatOffset := 512
  fatBytes := 262144
  dataOffset := 262656
  totalBytes := 33812480
  clusterCount := 65527
  rootCluster := 2
  activeFat := 0
  fsInfoOffset := none
  freeClusters := none

def freshVolume : FatVolume := ⟨⟨smallBytes, [], 0, 0⟩, fun _ => default, [], 0, 0⟩

theorem freshVolume_fresh : freshVolume.Fresh smallEnv smallBytes := by
  refine ⟨rfl, ?_, rfl, rfl, rfl⟩
  have hboot : smallBoot.length = 512 := by decide +kernel
  simp only [smallBytes, List.length_append, List.length_replicate, hboot]
  rfl

def smallFile : FatPager := ⟨2, 600, by decide⟩

section Example

-- The boot sector has 512 bytes, and they are counted.
set_option maxRecDepth 20000

theorem volume_reads_faithfully_example :
    ∃ s, (machine smallEnv smallGeometry (fun _ => smallFile) smallBytes).Reachable s ∧
      s.flights = [⟨0, 0, 600, [(262656, 600)]⟩] ∧
      Safe smallEnv smallGeometry (fun _ => smallFile) smallBytes s := by
  have hmount : ∃ v, new smallEnv freshVolume = .ok smallGeometry v ∧
      ∃ v', locate smallEnv smallGeometry 2 0 0 600 v = .ok [(262656, 600)] v' :=
    ⟨_, rfl, _, rfl⟩
  obtain ⟨v, hnew, v', hlocate⟩ := hmount
  have h₀ : (machine smallEnv smallGeometry (fun _ => smallFile) smallBytes).Reachable ⟨v, []⟩ :=
    .init ⟨⟨freshVolume, freshVolume_fresh, hnew⟩, rfl⟩
  have h₁ := h₀.step (@Step.locate _ _ (fun _ => smallFile) ⟨v, []⟩ 0 0 600 _ _ (by decide) hlocate)
  exact ⟨_, h₁, rfl, volume_reads_faithfully.2 h₁⟩

end Example

end Roanix.Fs.Fat32
