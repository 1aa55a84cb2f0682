import Mathlib.Data.Finset.Interval
import Mathlib.Order.Interval.Finset.Nat
import Roanix.Fs.Fat32.Geometry

/-! The chain of a file: its index is always a start of the chain that the table describes, whatever
reads came before and however they ended. -/
namespace Roanix.Fs.Fat32
open Function List
open Lib (Act slice)
open Lib.Act
open Dev

variable {env : Env} {g : Geometry} {v v' v'' : FatVolume} {bytes : List UInt8}

/-- The clusters of a file as the table links them, from the first one on. -/
def clusterAt (g : Geometry) (bytes : List UInt8) (first : ℕ) : ℕ → ℕ
  | 0 => first
  | i + 1 => g.entry bytes (clusterAt g bytes first i)

/-- The first `n` clusters of a chain are clusters of the volume, none is an end or a bad mark, and
none comes twice. -/
structure Sound (g : Geometry) (bytes : List UInt8) (first n : ℕ) : Prop where
  valid : ∀ i < n, g.Valid (clusterAt g bytes first i)
  linked : ∀ i, i + 1 < n → g.Link bytes (clusterAt g bytes first i) (clusterAt g bytes first (i + 1))
  distinct : ∀ i j, i < j → j < n → clusterAt g bytes first i ≠ clusterAt g bytes first j

def clusterBytes (g : Geometry) (bytes : List UInt8) (cluster : ℕ) : List UInt8 :=
  slice bytes (g.start cluster) g.bytesPerCluster

/-- The bytes of a file: its clusters one after the other, cut at its size. -/
def FatPager.content (pager : FatPager) (g : Geometry) (bytes : List UInt8) : List UInt8 :=
  ((List.range ((pager.size + g.bytesPerCluster - 1) / g.bytesPerCluster)).flatMap fun i =>
    clusterBytes g bytes (clusterAt g bytes pager.firstCluster i)).take pager.size

structure ClusterChain.Ok (g : Geometry) (bytes : List UInt8) (first : ℕ) (c : ClusterChain) :
    Prop where
  clusters : c.clusters = (List.range c.clusters.length).map (clusterAt g bytes first)
  seen : ∀ x, x ∈ c.seen ↔ x ∈ c.clusters
  sound : Sound g bytes first c.clusters.length

theorem ClusterChain.Ok.default (first : ℕ) : (default : ClusterChain).Ok g bytes first :=
  ⟨rfl, fun _ => Iff.rfl, nofun, nofun, nofun⟩

section Chain
variable {first n : ℕ} {c : ClusterChain}

theorem Sound.mono {m : ℕ} (h : Sound g bytes first n) (hm : m ≤ n) : Sound g bytes first m :=
  ⟨fun i hi => h.valid i (hi.trans_le hm), fun i hi => h.linked i (hi.trans_le hm),
    fun i j hij hj => h.distinct i j hij (hj.trans_le hm)⟩

theorem Sound.length_le (h : Sound g bytes first n) : n ≤ g.clusterCount := by
  have hinj : Set.InjOn (clusterAt g bytes first) (Finset.range n) := by
    intro i hi j hj heq
    rw [Finset.coe_range] at hi hj
    rcases Nat.lt_trichotomy i j with hlt | rfl | hgt
    · exact absurd heq (h.distinct i j hlt hj)
    · rfl
    · exact absurd heq.symm (h.distinct j i hgt hi)
  have hmaps : ∀ i ∈ Finset.range n, clusterAt g bytes first i ∈ Finset.Ico 2 (g.clusterCount + 2) :=
    fun i hi => Finset.mem_Ico.mpr (h.valid i (Finset.mem_range.mp hi))
  have hcard := Finset.card_le_card_of_injOn _ hmaps hinj
  rwa [Finset.card_range, Nat.card_Ico] at hcard

section
variable (h : c.Ok g bytes first)
include h

theorem ClusterChain.Ok.mem_clusters {x : ℕ} (hx : x ∈ c.clusters) :
    ∃ i < c.clusters.length, clusterAt g bytes first i = x := by
  rw [h.clusters] at hx
  obtain ⟨i, hi, rfl⟩ := mem_map.mp hx
  exact ⟨i, mem_range.mp hi, rfl⟩

theorem ClusterChain.Ok.clusterAt_mem {i : ℕ}
    (hi : i < c.clusters.length) : clusterAt g bytes first i ∈ c.seen := by
  rw [h.seen, h.clusters]
  exact mem_map_of_mem (mem_range.mpr hi)

theorem ClusterChain.Ok.getLast? {last : ℕ} (hlast : c.clusters.getLast? = some last) :
    ∃ i, c.clusters.length = i + 1 ∧ last = clusterAt g bytes first i := by
  rw [h.clusters, getLast?_map] at hlast
  obtain ⟨i, hi, rfl⟩ := Option.map_eq_some_iff.mp hlast
  rw [getLast?_range] at hi
  split_ifs at hi with hzero
  obtain rfl := Option.some.inj hi
  exact ⟨_, (Nat.succ_pred_eq_of_ne_zero hzero).symm, rfl⟩

theorem ClusterChain.Ok.push (hsound : Sound g bytes first (c.clusters.length + 1)) :
    ClusterChain.Ok g bytes first ⟨c.clusters ++ [clusterAt g bytes first c.clusters.length],
      insert (clusterAt g bytes first c.clusters.length) c.seen⟩ where
  clusters := by
    rw [length_append, length_singleton, range_succ, map_append, ← h.clusters]
    rfl
  seen x := by
    rw [Finset.mem_insert, mem_append, mem_singleton, h.seen, or_comm]
  sound := by
    rw [length_append]
    exact hsound

end

theorem Sound.succ (h : Sound g bytes first n) (hvalid : g.Valid (clusterAt g bytes first n))
    (hlink : ∀ i, i + 1 = n → g.Link bytes (clusterAt g bytes first i) (clusterAt g bytes first n))
    (hnew : ∀ i < n, clusterAt g bytes first i ≠ clusterAt g bytes first n) :
    Sound g bytes first (n + 1) where
  valid i hi := by
    rcases Nat.lt_succ_iff_lt_or_eq.mp hi with hlt | rfl
    · exact h.valid i hlt
    · exact hvalid
  linked i hi := by
    rcases Nat.lt_succ_iff_lt_or_eq.mp hi with hlt | rfl
    · exact h.linked i hlt
    · exact hlink i rfl
  distinct i j hij hj := by
    rcases Nat.lt_succ_iff_lt_or_eq.mp hj with hlt | rfl
    · exact h.distinct i j hij hlt
    · exact hnew i hij

end Chain

section Extend
variable {first p stop : ℕ}

theorem follow_spec (hg : g.Ok env.block.device.sizeBytes) (h : v.Ok env)
    (hc : (v.chains p).Ok g v.disk.bytes first) :
    wp (fun _ => False) (follow env g first (v.chains p).clusters)
      (fun next v' => Looked env v v' ∧
        next = clusterAt g v.disk.bytes first (v.chains p).clusters.length ∧
        ∀ i, i + 1 = (v.chains p).clusters.length →
          g.Link v.disk.bytes (clusterAt g v.disk.bytes first i) next)
      (fun _ v' => Looked env v v' ∧
        (Trouble v v' ∨ ¬ Sound g v.disk.bytes first ((v.chains p).clusters.length + 1))) v := by
  unfold follow
  split
  · next last hlast =>
    obtain ⟨i, hi, rfl⟩ := hc.getLast? hlast
    have hnot (hno : ∀ next, ¬ g.Link v.disk.bytes (clusterAt g v.disk.bytes first i) next) :
        ¬ Sound g v.disk.bytes first ((v.chains p).clusters.length + 1) := fun hs =>
      hno _ (hs.linked i (by omega))
    rw [wp_bind]
    refine wp_imp (nextCluster_spec hg h (hc.sound.valid i (by omega))) ?_ ?_
    · rintro next v' ⟨hv', hnext⟩
      cases next with
      | none => exact ⟨hv', .inr (hnot hnext)⟩
      | some next =>
        refine ⟨hv', ?_, fun j hj => ?_⟩
        · rw [hi]
          exact hnext.entry
        · obtain rfl : j = i := by omega
          exact hnext
    · rintro _ v' ⟨hv', hno⟩
      exact ⟨hv', hno.imp_right hnot⟩
  · next hnone =>
    have hzero : (v.chains p).clusters = [] := getLast?_eq_none_iff.mp hnone
    rw [hzero]
    exact ⟨.refl h, rfl, nofun⟩

structure Grown (env : Env) (g : Geometry) (first p : ℕ) (v v' : FatVolume) : Prop extends
    Advanced env v v' where
  chain : (v'.chains p).Ok g v'.disk.bytes first
  others : ∀ q, q ≠ p → v'.chains q = v.chains q

theorem Looked.grown (h : Looked env v v') (hc : (v.chains p).Ok g v.disk.bytes first) :
    Grown env g first p v v' :=
  ⟨h.toAdvanced, by rw [h.chains, h.disk.bytes_eq]; exact hc, fun q _ => congrFun h.chains q⟩

theorem Grown.trans (h : Grown env g first p v v') (h' : Grown env g first p v' v'') :
    Grown env g first p v v'' :=
  ⟨h.toAdvanced.trans h'.toAdvanced, h'.chain, fun q hq => (h'.others q hq).trans (h.others q hq)⟩

/-- However extending an index ends, the index is a start of the chain; it ends early only if
something failed or the chain is not sound so far. -/
theorem extendChain_spec {fuel : ℕ} (hg : g.Ok env.block.device.sizeBytes) (h : v.Ok env)
    (hc : (v.chains p).Ok g v.disk.bytes first)
    (hfuel : stop - (v.chains p).clusters.length ≤ fuel) :
    wp (fun _ => False) (extendChain env g first p stop fuel)
      (fun _ v' => Grown env g first p v v' ∧ stop ≤ (v'.chains p).clusters.length)
      (fun _ v' => Grown env g first p v v' ∧ (Trouble v v' ∨ ¬ Sound g v.disk.bytes first stop))
      v := by
  have hstay := (Looked.refl h).grown hc
  induction fuel generalizing v with
  | zero => exact ⟨hstay, by omega⟩
  | succ fuel ih =>
    unfold extendChain
    rw [wp_bind, wp_get]
    split
    · next hlt =>
      have hshort (hn : ¬ Sound g v.disk.bytes first ((v.chains p).clusters.length + 1)) :
          ¬ Sound g v.disk.bytes first stop := fun hs => hn (hs.mono hlt)
      simp only [wp_bind]
      refine wp_imp (follow_spec hg h hc) ?_ fun _ v' hv' =>
        ⟨hv'.1.grown hc, hv'.2.imp_right hshort⟩
      rintro next v₁ ⟨hv₁, rfl, hlink⟩
      refine wp_validateCluster hg (fun hvalid => ?_) fun hvalid =>
        ⟨hv₁.grown hc, .inr (hshort fun hs => hvalid (hs.valid _ (Nat.lt_succ_self _)))⟩
      refine wp_ensure (fun hnew => ?_) fun hseen => ⟨hv₁.grown hc, .inr (hshort fun hs => ?_)⟩
      · have hpush := hc.push (hc.sound.succ hvalid hlink fun i hi heq =>
          hnew (heq ▸ hc.clusterAt_mem hi))
        rw [wp_modify, hv₁.chains]
        have hgrown : Grown env g first p v
            { v₁ with
              chains := update v.chains p
                ⟨(v.chains p).clusters ++
                  [clusterAt g v.disk.bytes first (v.chains p).clusters.length],
                insert (clusterAt g v.disk.bytes first (v.chains p).clusters.length)
                  (v.chains p).seen⟩ } := by
          refine ⟨{ hv₁ with ok := ⟨hv₁.ok.disk, hv₁.ok.asked⟩ }, ?_, fun q hq => ?_⟩
          · dsimp only
            rw [update_self, hv₁.disk.bytes_eq]
            exact hpush
          · exact update_of_ne hq _ _
        refine wp_imp (ih hgrown.ok hgrown.chain ?_ ((Looked.refl hgrown.ok).grown hgrown.chain))
          (fun _ v' hv' => ⟨hgrown.trans hv'.1, hv'.2⟩) fun _ v' hv' => ?_
        · dsimp only
          rw [update_self, length_append, length_singleton]
          omega
        · refine ⟨hgrown.trans hv'.1, hv'.2.imp hgrown.trouble ?_⟩
          rw [hgrown.disk.bytes_eq]
          exact id
      · obtain ⟨i, hi, heq⟩ := hc.mem_clusters ((hc.seen _).mp (not_not.mp hseen))
        exact hs.distinct i _ hi (Nat.lt_succ_self _) heq
    · next hle => exact ⟨hstay, by omega⟩

end Extend

/-! Reading a file: the ranges that a read asks for hold the bytes of the file, and a read returns
them or fails. -/
variable {data : List UInt8} {runs : List Run} {T : Block.Panic → Prop} {E : Error → FatVolume → Prop}
variable {last length limit start take : ℕ} {Q : List Run → FatVolume → Prop}

/-- Ranges below some limit that hold the data between them. -/
structure Placed (limit : ℕ) (bytes : List UInt8) (runs : List Run) (data : List UInt8) : Prop where
  inside : ∀ r ∈ runs, r.1 + r.2 ≤ limit
  bytes_eq : runs.flatMap (fun r => slice bytes r.1 r.2) = data
  total : (runs.map Prod.snd).sum = data.length

theorem Placed.push (h : Placed limit bytes runs data) (hin : start + take ≤ limit)
    (hlimit : limit ≤ bytes.length) :
    Placed limit bytes (runs ++ [(start, take)]) (data ++ slice bytes start take) where
  inside := forall_mem_append.mpr ⟨h.inside, forall_mem_singleton.mpr hin⟩
  bytes_eq := by
    rw [flatMap_append, h.bytes_eq, flatMap_singleton]
  total := by
    rw [map_append, sum_append, h.total, length_append, map_singleton,
      sum_singleton, Lib.length_slice (by omega)]

theorem Placed.grow {count : ℕ} (h : Placed limit bytes (runs ++ [(last, count)]) data)
    (hin : last + count + take ≤ limit) (hlimit : limit ≤ bytes.length) :
    Placed limit bytes (runs ++ [(last, count + take)])
      (data ++ slice bytes (last + count) take) where
  inside := forall_mem_append.mpr ⟨(forall_mem_append.mp h.inside).1,
    forall_mem_singleton.mpr (Nat.add_assoc last count take ▸ hin)⟩
  bytes_eq := by
    rw [← h.bytes_eq, flatMap_append, flatMap_append, flatMap_singleton,
      flatMap_singleton, Lib.slice_append, append_assoc]
  total := by
    have htotal := h.total
    simp only [map_append, sum_append, map_singleton, sum_singleton] at htotal ⊢
    rw [length_append, Lib.length_slice (by omega), ← htotal, Nat.add_assoc]

theorem pushRun_spec (h : Placed limit bytes runs data) (hin : start + take ≤ limit)
    (hlimit : limit ≤ bytes.length) (hword : limit < 2 ^ 64)
    (hQ : ∀ runs', Placed limit bytes runs' (data ++ slice bytes start take) → Q runs' v) :
    wp T (pushRun runs start take) Q E v := by
  unfold pushRun
  split
  · next last count hlast =>
    obtain ⟨before, rfl⟩ := getLast?_eq_some_iff.mp hlast
    have hbefore : last + count ≤ limit := h.inside (last, count) (by simp)
    rw [wp_bind, wp_add (by omega)]
    split_ifs with hnext
    · subst hnext
      rw [wp_bind, wp_add (by omega), dropLast_concat]
      exact hQ _ (h.grow hin hlimit)
    · exact hQ _ (h.push hin hlimit)
  · next hnone =>
    obtain rfl : runs = [] := getLast?_eq_none_iff.mp hnone
    exact hQ _ (h.push hin hlimit)

theorem length_clusterBytes {cluster : ℕ} (hg : g.Ok bytes.length) (hc : g.Valid cluster) :
    (clusterBytes g bytes cluster).length = g.bytesPerCluster :=
  Lib.length_slice ((hg.start_le hc).trans hg.total)

theorem collectRuns_spec {clusters : List ℕ} {remaining within : ℕ} (hg : g.Ok bytes.length)
    (hword : bytes.length < 2 ^ 64) (hclusters : ∀ c ∈ clusters, g.Valid c)
    (hwithin : within ≤ g.bytesPerCluster)
    (hfit : within + remaining ≤ clusters.length * g.bytesPerCluster)
    (h : Placed g.totalBytes bytes runs data) (hQ : ∀ runs', Placed g.totalBytes bytes runs'
      (data ++ slice (clusters.flatMap (clusterBytes g bytes)) within remaining) → Q runs' v) :
    wp T (collectRuns g clusters remaining within runs) Q E v := by
  induction clusters generalizing remaining within runs data with
  | nil =>
    have hzero : remaining = 0 := by
      rw [length_nil] at hfit
      omega
    refine hQ runs ?_
    rwa [hzero, Lib.slice_zero, append_nil]
  | cons c clusters ih =>
    have hc := hclusters c mem_cons_self
    have hlen := length_clusterBytes hg hc
    have hstart := hg.start_le hc
    have htotal := hg.total
    unfold collectRuns
    simp only [wp_bind]
    refine wp_clusterOffset hg hword hc ?_
    rw [wp_add (by omega), wp_sub hwithin]
    refine pushRun_spec h (by omega) htotal (by omega) fun runs' hruns' => ?_
    rw [wp_sub (Nat.min_le_left _ _)]
    rw [length_cons, Nat.succ_mul] at hfit
    refine ih (fun x hx => hclusters x (mem_cons_of_mem c hx)) (Nat.zero_le _) (by omega)
      hruns' fun runs'' hruns'' => hQ runs'' ?_
    rw [flatMap_cons, Lib.slice_append_list (by omega), hlen]
    rw [append_assoc] at hruns''
    unfold clusterBytes at hruns'' ⊢
    rwa [Lib.slice_slice (by omega)]

section Content
variable {pager : FatPager} {offset n stop : ℕ}

section
variable (hg : g.Ok bytes.length) (hstop : offset + n ≤ stop * g.bytesPerCluster)
  (hcount : stop ≤ (pager.size + g.bytesPerCluster - 1) / g.bytesPerCluster)
  (hsize : offset + n ≤ pager.size)
include hg hstop hcount hsize

theorem slice_content (hs : Sound g bytes pager.firstCluster stop) :
    slice (pager.content g bytes) offset n =
      slice (((List.range stop).map (clusterAt g bytes pager.firstCluster)).flatMap
        (clusterBytes g bytes)) offset n := by
  have hlen : (((range stop).map (clusterAt g bytes pager.firstCluster)).flatMap
      (clusterBytes g bytes)).length = stop * g.bytesPerCluster := by
    rw [Lib.length_flatMap, length_map, length_range]
    intro c hc
    obtain ⟨i, hi, rfl⟩ := mem_map.mp hc
    exact length_clusterBytes hg (hs.valid i (mem_range.mp hi))
  obtain ⟨more, hmore⟩ := Nat.exists_eq_add_of_le hcount
  unfold FatPager.content
  rw [Lib.slice_take hsize, hmore, range_add, flatMap_append, ← flatMap_map]
  exact Lib.slice_append_left (by omega) _

theorem ClusterChain.Ok.slice_content {c : ClusterChain} (hc : c.Ok g bytes pager.firstCluster)
    (hle : stop ≤ c.clusters.length) :
    slice ((slice c.clusters (offset / g.bytesPerCluster)
        (stop - offset / g.bytesPerCluster)).flatMap (clusterBytes g bytes))
      (offset % g.bytesPerCluster) n = slice (pager.content g bytes) offset n := by
  have hs := hc.sound.mono hle
  have htake : c.clusters.take stop =
      (range stop).map (clusterAt g bytes pager.firstCluster) := by
    rw [hc.clusters, ← map_take, take_range, Nat.min_eq_left hle]
  have hdrop : slice c.clusters (offset / g.bytesPerCluster) (stop - offset / g.bytesPerCluster) =
      ((range stop).map (clusterAt g bytes pager.firstCluster)).drop
        (offset / g.bytesPerCluster) := by
    rw [← htake, drop_take]
    rfl
  rw [Fat32.slice_content hg hstop hcount hsize hs, hdrop, ← Lib.drop_flatMap, Lib.slice_drop,
    Nat.div_add_mod']
  intro x hx
  obtain ⟨i, hi, rfl⟩ := mem_map.mp hx
  exact length_clusterBytes hg (hs.valid i (mem_range.mp hi))

end

end Content

theorem fetch_spec {done : ℕ} (hg : g.Ok env.block.device.sizeBytes) (h : v.Ok env)
    (hin : ∀ r ∈ runs, r.1 + r.2 ≤ g.totalBytes) (hroom : done + (runs.map Prod.snd).sum ≤ length)
    (hword : done + (runs.map Prod.snd).sum < 2 ^ 32) :
    wp (fun _ => False) (fetch env length runs done)
      (fun data v' => Looked env v v' ∧ data = runs.flatMap fun r => slice v.disk.bytes r.1 r.2)
      (fun _ v' => Looked env v v' ∧ Trouble v v') v := by
  induction runs generalizing v done with
  | nil => exact ⟨.refl h, rfl⟩
  | cons r runs ih =>
    obtain ⟨start, count⟩ := r
    have hr : start + count ≤ g.totalBytes := hin _ mem_cons_self
    have htotal := hg.total
    have hbs := env.block.device.accepted.min_size
    rw [map_cons, sum_cons] at hroom hword
    unfold fetch
    simp only [wp_bind]
    rw [wp_add (by omega), wp_check (by omega)]
    refine wp_post (deviceRead_spec h (by omega) (by omega)) ?_
    rintro data v₁ ⟨hv₁, rfl⟩
    have hlen : (slice v.disk.bytes start count).length = count := by
      refine Lib.length_slice ?_
      rw [h.disk.size, ← env.block.device.sizeBytes_eq]
      omega
    refine wp_ensure (fun _ => ?_) (absurd hlen)
    refine wp_imp (ih hv₁.ok (fun x hx => hin x (mem_cons_of_mem _ hx)) (by omega)
      (by omega)) ?_ fun _ v' hv' => ⟨hv₁.trans hv'.1, hv₁.trouble hv'.2⟩
    rintro rest v' ⟨hv', rfl⟩
    refine ⟨hv₁.trans hv', ?_⟩
    rw [flatMap_cons, hv₁.disk.bytes_eq]

def Geometry.needed (g : Geometry) (last : ℕ) : ℕ := (last + g.bytesPerCluster - 1) / g.bytesPerCluster

theorem Geometry.Ok.le_needed {size : ℕ} (hg : g.Ok size) (last : ℕ) :
    last ≤ g.needed last * g.bytesPerCluster := by
  have hpos := hg.cluster_pos
  have hdiv := Nat.div_add_mod' (last + g.bytesPerCluster - 1) g.bytesPerCluster
  have hmod := Nat.mod_lt (last + g.bytesPerCluster - 1) hpos
  unfold needed
  omega

section Locate
variable {pager : FatPager} {p offset n : ℕ}

section
variable (hg : g.Ok env.block.device.sizeBytes) (h : v.Ok env)
  (hc : (v.chains p).Ok g v.disk.bytes pager.firstCluster)
include hg h hc

/-- Where the bytes of a range are is found out, or something failed, or the chain is not sound as far
as the range needs it. -/
theorem locate_spec (hsize : offset + n ≤ pager.size) :
    wp (fun _ => False) (locate env g pager.firstCluster p offset n)
      (fun runs v' => Grown env g pager.firstCluster p v v' ∧
        Placed g.totalBytes v.disk.bytes runs (slice (pager.content g v.disk.bytes) offset n) ∧
        Sound g v.disk.bytes pager.firstCluster (g.needed (offset + n)))
      (fun _ v' => Grown env g pager.firstCluster p v v' ∧
        (Trouble v v' ∨ ¬ Sound g v.disk.bytes pager.firstCluster (g.needed (offset + n)))) v := by
  have hword := env.block.device.accepted.size_lt
  have hbytes : v.disk.bytes.length = env.block.device.sizeBytes := by
    rw [h.disk.size, env.block.device.sizeBytes_eq]
  have hpos := hg.cluster_pos
  have hsize' := pager.size_lt
  have hneeded := hg.le_needed (offset + n)
  have hfirst := Nat.div_add_mod' offset g.bytesPerCluster
  unfold locate
  rw [wp_bind, wp_add (by omega)]
  rw [show (offset + n + g.bytesPerCluster - 1) / g.bytesPerCluster = g.needed (offset + n) from rfl]
  have hcount : g.needed (offset + n) ≤ g.needed pager.size := Nat.div_le_div_right (by omega)
  generalize g.needed (offset + n) = stop at hneeded hcount ⊢
  simp only [wp_bind]
  refine wp_ensure (fun hmany => ?_) fun hmany =>
    ⟨(Looked.refl h).grown hc, .inr fun hs => hmany hs.length_le⟩
  refine wp_imp (tryReserve_spec h) (fun _ v₁ hv₁ => ?_) fun _ v' hv' =>
    ⟨hv'.1.grown hc, .inl hv'.2⟩
  have hgrown₁ := hv₁.grown hc
  refine wp_imp (extendChain_spec hg hv₁.ok hgrown₁.chain (Nat.sub_le _ _)) ?_
    fun _ v' hv' => ⟨hgrown₁.trans hv'.1, hv'.2.imp hgrown₁.trouble (hv₁.disk.bytes_eq ▸ id)⟩
  rintro _ v₂ ⟨hgrown₂, hstop⟩
  have hgrown := hgrown₁.trans hgrown₂
  have hlow : offset / g.bytesPerCluster ≤ stop :=
    Nat.le_of_mul_le_mul_right (show offset / g.bytesPerCluster * g.bytesPerCluster ≤ _ by omega) hpos
  rw [wp_sub hlow]
  refine wp_imp (tryReserve_spec hgrown.ok) (fun _ v₃ hv₃ => ?_) fun _ v' hv' =>
    ⟨hgrown.trans (hv'.1.grown hgrown.chain), .inl (hgrown.trouble hv'.2)⟩
  have hgrown' := hgrown.trans (hv₃.grown hgrown.chain)
  have hchain := hgrown'.chain
  rw [hgrown'.disk.bytes_eq] at hchain
  have hstop' : stop ≤ (v₃.chains p).clusters.length := by
    rw [hv₃.chains]
    exact hstop
  have hslice : (slice (v₃.chains p).clusters (offset / g.bytesPerCluster)
      (stop - offset / g.bytesPerCluster)).length = stop - offset / g.bytesPerCluster :=
    Lib.length_slice (by omega)
  rw [wp_get, wp_check hstop']
  rw [← hbytes] at hg
  refine collectRuns_spec hg (h.disk.size ▸ hword) (fun c hin => ?_) (Nat.mod_lt _ hpos).le ?_
    (⟨by simp, rfl, rfl⟩ : Placed g.totalBytes v.disk.bytes [] []) fun runs hruns => ?_
  · obtain ⟨i, hi, rfl⟩ := hchain.mem_clusters (mem_of_mem_drop (mem_of_mem_take hin))
    exact hchain.sound.valid i hi
  · rw [hslice, Nat.sub_mul]
    omega
  · rw [ClusterChain.Ok.slice_content hg hneeded hcount hsize hchain hstop'] at hruns
    exact ⟨hgrown', hruns, hchain.sound.mono hstop'⟩

/-- A read returns the bytes of the file, and zeros past its end; it fails only if something failed or
the chain is not sound as far as the read needs it. -/
theorem readFile_spec :
    wp (fun _ => False) (readFile env g pager p offset length)
      (fun data v' => Grown env g pager.firstCluster p v v' ∧
        data = slice (pager.content g v.disk.bytes) offset (pager.clip offset length) ++
          List.replicate (length - pager.clip offset length) 0 ∧
        (pager.clip offset length = 0 ∨ Sound g v.disk.bytes pager.firstCluster
          (g.needed (offset + pager.clip offset length))))
      (fun _ v' => Grown env g pager.firstCluster p v v' ∧ pager.clip offset length ≠ 0 ∧
        (Trouble v v' ∨ ¬ Sound g v.disk.bytes pager.firstCluster
          (g.needed (offset + pager.clip offset length)))) v := by
  have hclip : pager.clip offset length = 0 ∨
      pager.clip offset length ≤ length ∧ offset + pager.clip offset length ≤ pager.size := by
    unfold FatPager.clip
    omega
  have hsize := pager.size_lt
  unfold readFile
  split_ifs with hzero
  · rw [hzero]
    exact ⟨(Looked.refl h).grown hc, rfl, .inl rfl⟩
  · obtain ⟨hlength, hin⟩ := hclip.resolve_left hzero
    simp only [wp_bind]
    refine wp_imp (locate_spec hg h hc hin) ?_ fun _ v' hv' => ⟨hv'.1, hzero, hv'.2⟩
    rintro runs v₁ ⟨hgrown, hplaced, hsound⟩
    have htotal : (runs.map Prod.snd).sum ≤ pager.clip offset length := by
      rw [hplaced.total]
      exact length_take_le _ _
    refine wp_imp (fetch_spec hg hgrown.ok hplaced.inside (by omega) (by omega)) ?_
      fun _ v' hv' => ⟨hgrown.trans (hv'.1.grown hgrown.chain), hzero, .inl (hgrown.trouble hv'.2)⟩
    rintro data v' ⟨hv', rfl⟩
    refine ⟨hgrown.trans (hv'.grown hgrown.chain), ?_, .inr hsound⟩
    rw [hgrown.disk.bytes_eq, hplaced.bytes_eq]

end

end Locate

end Roanix.Fs.Fat32
