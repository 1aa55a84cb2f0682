import Roanix.Dev.Block.Stream
import Roanix.Fs.Fat32.Basic

/-! The geometry that a boot sector is accepted for: the tables and the clusters are on the device, and
no computation with it overflows. -/
namespace Roanix.Fs.Fat32
open Lib (Act slice)
open Lib.Act
open Mem (checkedAdd checkedAdd_eq_some)
open Dev

theorem byte_lt (bytes : List UInt8) (offset : ℕ) : (bytes.getD offset 0).toNat < 2 ^ 8 :=
  UInt8.toNat_lt _

theorem le16_lt (bytes : List UInt8) (offset : ℕ) : le16 bytes offset < 2 ^ 16 := by
  have := byte_lt bytes offset
  have := byte_lt bytes (offset + 1)
  unfold le16
  omega

theorem le32_lt (bytes : List UInt8) (offset : ℕ) : le32 bytes offset < 2 ^ 32 := by
  have := le16_lt bytes offset
  have := le16_lt bytes (offset + 2)
  unfold le32
  omega

structure Geometry.Ok (size : ℕ) (g : Geometry) : Prop where
  cluster_pos : 0 < g.bytesPerCluster
  cluster_lt : g.bytesPerCluster < 2 ^ 32
  count_lt : g.clusterCount + 2 < 2 ^ 32
  entries : (g.clusterCount + 2) * 4 ≤ g.fatBytes
  /-- The table in use is before the data. -/
  table : g.fatOffset + (g.activeFat * g.fatBytes + g.fatBytes) ≤ g.dataOffset
  clusters : g.dataOffset + g.clusterCount * g.bytesPerCluster ≤ g.totalBytes
  total : g.totalBytes ≤ size
  root : 2 ≤ g.rootCluster ∧ g.rootCluster < g.clusterCount + 2
  info : ∀ offset ∈ g.fsInfoOffset, offset + 512 ≤ size
  free : ∀ count ∈ g.freeClusters, count ≤ g.clusterCount

structure Boot.Fits (b : Boot) : Prop where
  sectors : b.sectorsPerCluster < 2 ^ 8
  reserved : b.reserved < 2 ^ 16
  fats : b.fats < 2 ^ 8
  total : b.totalSectors < 2 ^ 32
  fat : b.fatSectors < 2 ^ 32
  info : b.fsInfoSector < 2 ^ 16

structure Boot.Good (b : Boot) : Prop where
  sector_min : 512 ≤ b.bytesPerSector
  sector_max : b.bytesPerSector ≤ 4096
  cluster_pos : 0 < b.sectorsPerCluster
  cluster_max : b.sectorsPerCluster ≤ 128
  reserved : b.reserved ≠ 0
  fats : b.fats ≠ 0
  fat : b.fatSectors ≠ 0

theorem Boot.good_of_not_bad {b : Boot} (h : ¬ b.Bad) : b.Good := by
  unfold Boot.Bad at h
  push Not at h
  obtain ⟨hsector, hpos, -, hmax, hreserved, hfats, -, -, -, -, hfat, -⟩ := h
  exact ⟨by omega, by omega, by omega, by omega, hreserved, hfats, hfat⟩

structure Boot.Layout (b : Boot) (first count : ℕ) : Prop where
  first_eq : first = b.reserved + b.fats * b.fatSectors
  clusters : first + count * b.sectorsPerCluster ≤ b.totalSectors
  active : b.activeFat < b.fats

section Layout
variable {b : Boot} {first count : ℕ}

theorem Boot.Layout.table (h : b.Layout first count) :
    b.reserved * b.bytesPerSector + (b.activeFat * (b.fatSectors * b.bytesPerSector) +
      b.fatSectors * b.bytesPerSector) ≤ first * b.bytesPerSector := by
  have hsectors : b.reserved + (b.activeFat + 1) * b.fatSectors ≤ first := by
    rw [h.first_eq]
    exact Nat.add_le_add_left (Nat.mul_le_mul_right _ h.active) _
  calc b.reserved * b.bytesPerSector + (b.activeFat * (b.fatSectors * b.bytesPerSector) +
        b.fatSectors * b.bytesPerSector)
      = (b.reserved + (b.activeFat + 1) * b.fatSectors) * b.bytesPerSector := by ring
    _ ≤ first * b.bytesPerSector := Nat.mul_le_mul_right _ hsectors

theorem Boot.Layout.data (h : b.Layout first count) :
    first * b.bytesPerSector + count * (b.bytesPerSector * b.sectorsPerCluster) ≤
      b.totalSectors * b.bytesPerSector :=
  calc first * b.bytesPerSector + count * (b.bytesPerSector * b.sectorsPerCluster)
      = (first + count * b.sectorsPerCluster) * b.bytesPerSector := by ring
    _ ≤ b.totalSectors * b.bytesPerSector := Nat.mul_le_mul_right _ h.clusters

theorem Boot.Layout.info (h : b.Layout first count) (hinfo : b.fsInfoSector < b.reserved) :
    b.fsInfoSector * b.bytesPerSector + b.bytesPerSector ≤ b.totalSectors * b.bytesPerSector := by
  have hfirst := h.first_eq
  have hclusters := h.clusters
  rw [← Nat.succ_mul]
  refine Nat.mul_le_mul_right _ ?_
  omega

end Layout

theorem Boot.geometry_spec {σ : Type} {s : σ} {b : Boot} {size : ℕ} (hfits : b.Fits)
    (hgood : b.Good) : wp (fun _ => False) (b.geometry size)
      (fun g s' => s' = s ∧ g.Ok size) (fun _ s' => s' = s) s := by
  obtain ⟨hsectors, hres, hfats, htotal, hfat, hinfo⟩ := hfits
  obtain ⟨hmin, hmax, hcpos, hcmax, hres0, hfats0, hfat0⟩ := hgood
  have hbytes {n : ℕ} (hn : n < 2 ^ 32) : n * b.bytesPerSector < 2 ^ 64 :=
    (Nat.mul_le_mul hn.le hmax).trans_lt (by decide)
  have hcluster : b.bytesPerSector * b.sectorsPerCluster < 2 ^ 32 :=
    (Nat.mul_le_mul hmax hcmax).trans_lt (by decide)
  have htables := Nat.mul_ne_zero hfats0 hfat0
  unfold Boot.geometry
  simp only [wp_bind]
  refine wp_okOr (fun fatsSectors hfs => ?_) fun _ => rfl
  obtain ⟨rfl, hfs⟩ := checked_eq_some.mp hfs
  refine wp_okOr (fun first hfirst => ?_) fun _ => rfl
  obtain ⟨hfirst, hfirst'⟩ := checked_eq_some.mp hfirst
  refine wp_ensure (fun hlt => ?_) fun _ => rfl
  rw [wp_sub hlt.le]
  have hdiv := Nat.div_mul_le_self (b.totalSectors - first) b.sectorsPerCluster
  have hle := Nat.div_le_self (b.totalSectors - first) b.sectorsPerCluster
  generalize (b.totalSectors - first) / b.sectorsPerCluster = count at hdiv hle ⊢
  refine wp_ensure (fun hroot => ?_) fun _ => rfl
  -- There are at least two sectors before the data, so the last cluster's number fits.
  rw [wp_add (by omega)]
  refine wp_ensure (fun hroot' => ?_) fun _ => rfl
  refine wp_okOr (fun total htotal' => ?_) fun _ => rfl
  obtain ⟨htotal', hsize⟩ := Option.filter_eq_some_iff.mp htotal'
  obtain ⟨rfl, -⟩ := checked_eq_some.mp htotal'
  rw [wp_mul (hbytes hfat), wp_mul (by omega)]
  refine wp_ensure (fun hentries => ?_) fun _ => rfl
  refine wp_ensure (fun hactive => ?_) fun _ => rfl
  rw [wp_mul hcluster, wp_mul (hbytes (by omega)), wp_mul (hbytes (by omega)),
    wp_mul (hbytes (by omega))]
  have hlayout : b.Layout first count := ⟨hfirst, by omega, hactive⟩
  refine ⟨rfl, Nat.mul_pos (by omega) hcpos, hcluster, show count + 2 < 2 ^ 32 by omega, hentries,
    hlayout.table, hlayout.data, of_decide_eq_true hsize, ⟨hroot.2, hroot'⟩, fun offset hoffset => ?_,
    fun count hcount => by cases hcount⟩
  split_ifs at hoffset with hsector
  · cases hoffset
    have := hlayout.info hsector.2
    have := of_decide_eq_true hsize
    omega
  · cases hoffset

theorem parseBoot_spec {σ : Type} {s : σ} (boot : List UInt8) (size : ℕ) :
    wp (fun _ => False) (parseBoot boot size) (fun g s' => s' = s ∧ g.Ok size)
      (fun _ s' => s' = s) s := by
  unfold parseBoot
  simp only [wp_bind]
  refine wp_ensure (fun _ => ?_) fun _ => rfl
  refine wp_ensure (fun hgood => ?_) fun _ => rfl
  refine Boot.geometry_spec ?_ (Boot.good_of_not_bad hgood)
  exact ⟨byte_lt _ _, le16_lt _ _, byte_lt _ _, le32_lt _ _, le32_lt _ _, le16_lt _ _⟩

/-- `validate_cluster` accepts the number. -/
def Geometry.Valid (g : Geometry) (cluster : ℕ) : Prop := 2 ≤ cluster ∧ cluster < g.clusterCount + 2

def Geometry.start (g : Geometry) (cluster : ℕ) : ℕ := g.dataOffset + (cluster - 2) * g.bytesPerCluster

def Geometry.entryOffset (g : Geometry) (cluster : ℕ) : ℕ :=
  g.fatOffset + g.activeFat * g.fatBytes + cluster * 4

/-- The entry of a cluster in the table of a volume with these contents. -/
def Geometry.entry (g : Geometry) (bytes : List UInt8) (cluster : ℕ) : ℕ :=
  le32 bytes (g.entryOffset cluster) &&& fatEntryMask

section Clusters
variable {env : Env} {g : Geometry} {size cluster : ℕ} {T : Block.Panic → Prop}
  {E : Error → FatVolume → Prop} {v v' v'' : FatVolume}

theorem Geometry.Ok.start_le (hg : g.Ok size) (hc : g.Valid cluster) :
    g.start cluster + g.bytesPerCluster ≤ g.totalBytes := by
  have hmul : (cluster - 2 + 1) * g.bytesPerCluster ≤ g.clusterCount * g.bytesPerCluster :=
    Nat.mul_le_mul_right _ (by have := hc.1; have := hc.2; omega)
  have := hg.clusters
  rw [Nat.succ_mul] at hmul
  unfold start
  omega

theorem Geometry.Ok.entry_le (hg : g.Ok size) (hc : g.Valid cluster) :
    g.entryOffset cluster + 4 ≤ g.fatOffset + g.activeFat * g.fatBytes + g.fatBytes := by
  have := hg.entries
  have := hc.2
  unfold entryOffset
  omega

theorem wp_validateCluster {Q : Unit → FatVolume → Prop} (hg : g.Ok size)
    (hQ : g.Valid cluster → Q () v) (hE : ¬ g.Valid cluster → E .io v) :
    wp T (validateCluster g cluster) Q E v := by
  have hcount := hg.count_lt
  refine wp_ensure (fun h => hQ ⟨h.1, by omega⟩) fun h => hE fun hc => h ⟨hc.1, ?_⟩
  have := hc.2
  omega

theorem wp_clusterOffset {Q : ℕ → FatVolume → Prop} (hg : g.Ok size) (hsize : size < 2 ^ 64)
    (hc : g.Valid cluster) (hQ : Q (g.start cluster) v) : wp T (clusterOffset g cluster) Q E v := by
  have hstart := hg.start_le hc
  have htotal := hg.total
  have hpos := hg.cluster_pos
  unfold Geometry.start at hstart hQ
  unfold clusterOffset
  simp only [wp_bind]
  refine wp_validateCluster hg (fun _ => ?_) (absurd hc)
  rw [wp_sub hc.1, wp_mul (by omega), checkedAdd, if_pos (by omega), Option.filter_some,
    if_pos (decide_eq_true (by omega))]
  exact hQ

structure FatVolume.Ok (env : Env) (v : FatVolume) : Prop where
  disk : v.disk.Ok env.block.device
  asked : ∀ r ∈ v.asked, r.1 + r.2 ≤ env.block.device.sizeBytes

/-- What reading leaves of a volume, its indexes apart. -/
structure Advanced (env : Env) (v v' : FatVolume) : Prop where
  ok : v'.Ok env
  disk : Block.Kept env.block.device v.disk v'.disk
  failed : v.failed ≤ v'.failed

structure Looked (env : Env) (v v' : FatVolume) : Prop extends Advanced env v v' where
  chains : v'.chains = v.chains

def Trouble (v v' : FatVolume) : Prop := Block.Trouble v.disk v'.disk ∨ v.failed < v'.failed

theorem Advanced.trans (h : Advanced env v v') (h' : Advanced env v' v'') : Advanced env v v'' :=
  ⟨h'.ok, h.disk.trans h'.disk, h.failed.trans h'.failed⟩

theorem Advanced.trouble (h : Advanced env v v') (h' : Trouble v' v'') : Trouble v v'' :=
  h'.imp h.disk.trouble h.failed.trans_lt

theorem Looked.refl (h : v.Ok env) : Looked env v v :=
  ⟨⟨h, ⟨h.disk, rfl, le_rfl, le_rfl⟩, le_rfl⟩, rfl⟩

theorem Looked.trans (h : Looked env v v') (h' : Looked env v' v'') : Looked env v v'' :=
  ⟨h.toAdvanced.trans h'.toAdvanced, h'.chains.trans h.chains⟩

theorem FatVolume.Ok.ask {start count : ℕ} (h : v.Ok env)
    (hin : start + count ≤ env.block.device.sizeBytes) :
    ∀ r ∈ v.asked ++ [(start, count)], r.1 + r.2 ≤ env.block.device.sizeBytes :=
  List.forall_mem_append.mpr ⟨h.asked, List.forall_mem_singleton.mpr hin⟩

theorem readAt_spec {offset length : ℕ} (h : v.Ok env)
    (hin : offset + length ≤ env.block.device.sizeBytes) :
    wp (fun _ => False) (readAt env offset length)
      (fun bytes v' => Looked env v v' ∧ bytes = slice v.disk.bytes offset length)
      (fun _ v' => Looked env v v' ∧ Trouble v v') v := by
  have hkept : Block.Kept env.block.device v.disk v.disk := (Looked.refl h).disk
  unfold readAt wp
  dsimp only
  cases env.metadataFails v.turn with
  | true =>
    exact ⟨⟨⟨⟨h.disk, h.ask hin⟩, hkept, Nat.le_succ _⟩, rfl⟩, .inr (Nat.lt_succ_self _)⟩
  | false =>
    refine ⟨⟨⟨⟨h.disk, h.ask hin⟩, hkept, le_rfl⟩, rfl⟩, ?_⟩
    rw [Nat.min_eq_left (by omega)]

theorem tryReserve_spec (h : v.Ok env) : wp (fun _ => False) (tryReserve env)
    (fun _ v' => Looked env v v') (fun _ v' => Looked env v v' ∧ Trouble v v') v := by
  have hkept : Block.Kept env.block.device v.disk v.disk := (Looked.refl h).disk
  unfold tryReserve wp
  dsimp only
  cases env.refuses v.turn with
  | true => exact ⟨⟨⟨⟨h.disk, h.asked⟩, hkept, Nat.le_succ _⟩, rfl⟩, .inr (Nat.lt_succ_self _)⟩
  | false => exact ⟨⟨⟨h.disk, h.asked⟩, hkept, le_rfl⟩, rfl⟩

theorem deviceRead_spec {start count : ℕ} (h : v.Ok env)
    (hin : start + count ≤ env.block.device.sizeBytes)
    (hcount : count < 2 ^ 32 * env.block.device.logicalBlockSize) :
    wp (fun _ => False) (deviceRead env start count)
      (fun data v' => Looked env v v' ∧ data = slice v.disk.bytes start count)
      (fun _ v' => Looked env v v' ∧ Trouble v v') v := by
  unfold deviceRead
  simp only [wp_bind, wp_modify, wp_zoom, wp_mapErr]
  refine wp_imp (Block.readBytes_spec h.disk hcount) ?_ ?_
  · rintro data disk ⟨hdisk, rfl⟩
    refine ⟨⟨⟨⟨hdisk.ok, h.ask hin⟩, hdisk.kept, le_rfl⟩, rfl⟩, ?_⟩
    rw [Nat.min_eq_left (by omega)]
  · intro e disk hdisk
    obtain ⟨hkept, htrouble⟩ := hdisk.kept
    exact ⟨⟨⟨⟨hkept.ok, h.ask hin⟩, hkept, le_rfl⟩, rfl⟩, .inl htrouble⟩

theorem getD_slice {bytes : List UInt8} {offset n i : ℕ} (hi : i < n) :
    (slice bytes offset n).getD i 0 = bytes.getD (offset + i) 0 := by
  rw [List.getD_eq_getElem?_getD, List.getD_eq_getElem?_getD, Lib.getElem?_slice, if_pos hi]

theorem le32_slice (bytes : List UInt8) (offset : ℕ) :
    le32 (slice bytes offset 4) 0 = le32 bytes offset := by
  unfold le32 le16
  rw [getD_slice (by omega), getD_slice (by omega), getD_slice (by omega), getD_slice (by omega)]
  rfl

theorem fatEntry_spec (hg : g.Ok env.block.device.sizeBytes) (h : v.Ok env)
    (hc : g.Valid cluster) :
    wp (fun _ => False) (fatEntry env g cluster)
      (fun e v' => Looked env v v' ∧ e = g.entry v.disk.bytes cluster)
      (fun _ v' => Looked env v v' ∧ Trouble v v') v := by
  have hsize := env.block.device.accepted.size_lt
  rw [← env.block.device.sizeBytes_eq] at hsize
  have hentry := hg.entry_le hc
  have htable := hg.table
  have hclusters := hg.clusters
  have htotal := hg.total
  unfold Geometry.entryOffset at hentry
  unfold fatEntry
  simp only [wp_bind]
  refine wp_validateCluster hg (fun _ => ?_) (absurd hc)
  rw [wp_mul (by omega), checkedAdd, if_pos (by omega)]
  refine wp_okOr (fun fat hfat => ?_) fun h => by cases h
  obtain rfl := Option.some.inj hfat
  rw [wp_mul (by omega), checkedAdd, if_pos (by omega)]
  refine wp_okOr (fun offset hoffset => ?_) fun h => by cases h
  obtain rfl := Option.some.inj hoffset
  rw [wp_add (by omega), wp_add (by omega)]
  refine wp_ensure (fun _ => ?_) (absurd (by omega))
  refine wp_post (readAt_spec h (by omega)) ?_
  rintro bytes v' ⟨hv', rfl⟩
  have hlen : (slice v.disk.bytes (g.fatOffset + g.activeFat * g.fatBytes + cluster * 4) 4).length =
      4 := by
    refine Lib.length_slice ?_
    rw [h.disk.size, ← env.block.device.sizeBytes_eq]
    omega
  refine wp_ensure (fun _ => ⟨hv', ?_⟩) (absurd hlen)
  rw [le32_slice]
  rfl

structure Geometry.Link (g : Geometry) (bytes : List UInt8) (cluster next : ℕ) : Prop where
  entry : next = g.entry bytes cluster
  not_end : next < fatEndMin
  not_bad : next ≠ fatBadCluster
  valid : g.Valid next

section
variable (hg : g.Ok env.block.device.sizeBytes) (h : v.Ok env)
include hg h

theorem nextCluster_spec (hc : g.Valid cluster) :
    wp (fun _ => False) (nextCluster env g cluster)
      (fun r v' => Looked env v v' ∧
        match r with
        | some next => g.Link v.disk.bytes cluster next
        | none => ∀ next, ¬ g.Link v.disk.bytes cluster next)
      (fun _ v' => Looked env v v' ∧
        (Trouble v v' ∨ ∀ next, ¬ g.Link v.disk.bytes cluster next)) v := by
  unfold nextCluster
  rw [wp_bind]
  refine wp_imp (fatEntry_spec hg h hc) ?_ fun _ v' hv' => ⟨hv'.1, .inl hv'.2⟩
  rintro next v' ⟨hv', hnext⟩
  split_ifs with hend
  · refine ⟨hv', fun n hn => ?_⟩
    have := hn.not_end
    rw [hn.entry] at this
    omega
  · rw [wp_bind]
    refine wp_ensure (fun hmark => ?_) fun hmark => ⟨hv', .inr fun n hn => hmark fun hbad => ?_⟩
    · rw [wp_bind]
      refine wp_validateCluster hg (fun hvalid => ?_) fun hvalid => ⟨hv', .inr fun n hn => ?_⟩
      · exact ⟨hv', hnext, by omega, fun hbad => hmark (.inr (.inr hbad)), hvalid⟩
      · exact hvalid (hnext ▸ hn.entry ▸ hn.valid)
    · obtain ⟨hentry, -, hnot, hlow, -⟩ := hn
      omega

theorem nextCluster_looked :
    wp (fun _ => False) (nextCluster env g cluster) (fun _ v' => Looked env v v')
      (fun _ v' => Looked env v v') v := by
  by_cases hc : g.Valid cluster
  · exact wp_imp (nextCluster_spec hg h hc) (fun _ _ => And.left) fun _ _ => And.left
  · unfold nextCluster fatEntry
    simp only [wp_bind]
    exact wp_validateCluster hg (absurd · hc) fun _ => .refl h

theorem readCluster_spec :
    wp (fun _ => False) (readCluster env g cluster)
      (fun data v' => Looked env v v' ∧ data = slice v.disk.bytes (g.start cluster) g.bytesPerCluster)
      (fun _ v' => Looked env v v' ∧ (Trouble v v' ∨ ¬ g.Valid cluster)) v := by
  have hsize := env.block.device.accepted.size_lt
  rw [← env.block.device.sizeBytes_eq] at hsize
  unfold readCluster
  rw [wp_bind]
  by_cases hc : g.Valid cluster
  · have hstart := (hg.start_le hc).trans hg.total
    refine wp_clusterOffset hg hsize hc ?_
    rw [wp_bind]
    refine wp_imp (readAt_spec h hstart) ?_ fun _ v' hv' => ⟨hv'.1, .inl hv'.2⟩
    rintro bytes v' ⟨hv', rfl⟩
    rw [wp_bind]
    refine wp_ensure (fun _ => ⟨hv', rfl⟩) (absurd (Lib.length_slice ?_))
    rwa [h.disk.size, ← env.block.device.sizeBytes_eq]
  · unfold clusterOffset
    rw [wp_bind]
    exact wp_validateCluster hg (absurd · hc) fun _ => ⟨.refl h, .inr hc⟩

end

theorem Geometry.Ok.withInfo (hg : g.Ok size) (info : List UInt8) : (g.withInfo info).Ok size := by
  unfold Geometry.withInfo
  split_ifs with hinfo
  · refine { hg with free := fun count hcount => ?_ }
    cases hcount
    exact hinfo.2.2.2.2.2
  · exact hg

theorem new_spec (h : v.Ok env) : wp (fun _ => False) (new env)
    (fun g v' => g.Ok env.block.device.sizeBytes ∧ Looked env v v') (fun _ v' => Looked env v v')
    v := by
  have hbs := env.block.device.accepted.min_size
  have hmin : 512 ≤ env.block.device.sizeBytes := by
    rw [env.block.device.sizeBytes_eq]
    exact hbs.trans (Nat.le_mul_of_pos_left _ (Nat.pos_of_ne_zero env.block.device.accepted.count_pos))
  unfold new
  simp only [wp_bind]
  refine wp_imp (deviceRead_spec h (by omega) (by omega)) ?_ fun _ _ => And.left
  rintro boot v₁ ⟨hv₁, -⟩
  refine wp_ensure (fun _ => ?_) fun _ => hv₁
  refine wp_imp (parseBoot_spec boot _) ?_ fun _ v' hv' => hv' ▸ hv₁
  rintro g v' ⟨rfl, hg⟩
  have hroot {g : Geometry} {v₂ : FatVolume} (hg : g.Ok env.block.device.sizeBytes)
      (hv₂ : Looked env v v₂) : wp (fun _ => False) (validateCluster g g.rootCluster)
      (fun _ v' => g.Ok env.block.device.sizeBytes ∧ Looked env v v') (fun _ v' => Looked env v v')
      v₂ := wp_validateCluster hg (fun _ => ⟨hg, hv₂⟩) fun _ => hv₂
  split
  · next offset hinfo =>
    rw [wp_bind]
    refine wp_imp (deviceRead_spec hv₁.ok (hg.info offset hinfo) (by omega)) ?_
      fun _ v' hv' => hv₁.trans hv'.1
    rintro info v₂ ⟨hv₂, -⟩
    rw [wp_bind, wp_pure, wp_bind]
    exact hroot (hg.withInfo info) (hv₁.trans hv₂)
  · rw [wp_bind, wp_pure, wp_bind]
    exact hroot hg hv₁

end Clusters

end Roanix.Fs.Fat32
