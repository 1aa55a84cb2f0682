import Roanix.Mem.Vmem.Reach

/-! Freeing undoes allocating: the allocated ranges determine the tags of an arena, since the free
tags between them are coalesced. -/
namespace Roanix.Mem
open Lib Index

namespace Vmem
variable {v w : Vmem} {spans : Index ℕ ℕ} {lists lists' : ℕ → List ℕ} {base n : ℕ}

theorem allocated_eq_live (v : Vmem) (k : ℕ) : v.allocated k = Tiled.live v.pieces k := by
  rw [allocated, Tiled.live, pieces, get_tags]
  cases v.segments.get k with
  | none => rfl
  | some t => simp [Option.filter, Segment.unlinked, Segment.piece, apply_ite]

theorem live_of_allocated {k : ℕ} (h : v.allocated k = some n) :
    ∃ t, v.segments.get k = some t ∧ t.free = false ∧ t.size = n := by
  rw [allocated_eq_live] at h
  obtain ⟨p, hp, hf, rfl⟩ := Tiled.live_eq_some.mp h
  obtain ⟨t, ht, rfl⟩ := pieces_eq_some.mp hp
  exact ⟨t, ht, hf, rfl⟩

theorem Took.allocated (ht : Took v w base n) (h : v.Inv spans lists) (hn : 0 < n) :
    v.allocated base = none ∧
      ∀ k, w.allocated k = if k = base then some n else v.allocated k := by
  obtain ⟨segment, t, htag, ⟨u, hu, hf, hle, hend, -⟩, htags, -⟩ := ht
  obtain rfl := Option.mem_unique hu htag
  have hget := get_tags_of htag
  have hkey : u.unlinked.base = segment := h.keyed segment u htag
  have hinside : ∀ {k}, segment < k → k < u.endAddr → v.tags.get k = none :=
    h.get_none_of_inside htag
  have hseg : v.allocated segment = none := by simp [Vmem.allocated, hget, Segment.unlinked, hf]
  refine ⟨?_, fun k => ?_⟩
  · rcases hle.eq_or_lt with rfl | hlt
    · exact hseg
    · rw [Vmem.allocated, hinside hlt (by omega)]
      rfl
  · rw [Vmem.allocated, htags, get_takeTags hget hkey rfl hle hn]
    by_cases hkb : k = base
    · simp [hkb]
    by_cases hks : k = segment
    · subst hks
      simp [hkb, hseg, Segment.unlinked, hf]
    simp only [hkb, hks, if_false]
    split_ifs with hke
    · rw [Vmem.allocated, hke.1, hinside (by omega) hke.2]
      rfl
    · rfl

theorem Joined.allocated {lo hi : ℕ} {t u : Segment} (hj : Joined v.tags w.tags lo hi u)
    (hu : u.free = true) (hw : Window v spans base t lo hi) (k : ℕ) :
    w.allocated k = if k = base then none else v.allocated k := by
  have hbase := hw.base_mem
  rw [Vmem.allocated, hj]
  by_cases hk : lo ≤ k ∧ k < hi
  · have hold : k ≠ base → v.allocated k = none := fun hne => by
      rw [Vmem.allocated]
      cases ht : v.tags.get k with
      | none => rfl
      | some r => simp [hw.others k r ht hne hk.1 hk.2]
    have hnew : (if k = base then none else v.allocated k) = none := by
      split_ifs with hkb
      · rfl
      · exact hold hkb
    rw [hnew]
    split_ifs with hlo hin
    · simp [hu]
    · rfl
    · omega
  · rw [if_neg (by omega), if_neg (by omega), if_neg (by omega)]
    rfl

/-- `w` is `v` with the allocations `out` made since, given by their requested sizes. -/
structure Lent (spans : Index ℕ ℕ) (v w : Vmem) (out : Index ℕ ℕ) : Prop where
  inv : ∃ lists, w.Inv spans lists
  kept : ∀ k, out.get k = none → w.allocated k = v.allocated k
  lent : ∀ k size, out.get k = some size →
    v.allocated k = none ∧ ∃ n, w.roundSize size = .ok n ∧ w.allocated k = some n

theorem roundSize_congr (hq : w.quantum = v.quantum) (size : ℕ) :
    w.roundSize size = v.roundSize size := by
  rw [roundSize, roundSize, hq]

end Vmem

namespace VmemM
open Act Vmem
variable {v : Vmem} {spans out : Index ℕ ℕ} {a : Arena}

inductive Request where
  | xalloc (size align min max : ℕ) (fit : VmemFit)
  | allocRandom (size align entropy : ℕ)
  | allocFixed (base size : ℕ)

def Request.size : Request → ℕ
  | .xalloc size .. | .allocRandom size .. | .allocFixed _ size => size

def Request.exec : Request → VmemM ℕ
  | .xalloc size align min max fit => VmemM.xalloc size align min max fit
  | .allocRandom size align entropy => VmemM.allocRandom size align entropy
  | .allocFixed base size => do
    VmemM.allocFixed base size
    return base

/-- Runs of requests and of frees of the ranges they returned, `out` being those not freed. -/
inductive Trades (start : Arena) : Arena → Index ℕ ℕ → Prop
  | start : Trades start start .empty
  | ok {a a' : Arena} {out : Index ℕ ℕ} {r : Request} {base : ℕ} (h : Trades start a out)
      (hrun : r.exec a = .ok base a') : Trades start a' (out.insert base r.size)
  | err {a a' : Arena} {out : Index ℕ ℕ} {r : Request} {e : VmemError} (h : Trades start a out)
      (hrun : r.exec a = .err e a') : Trades start a' out
  | free {a a' : Arena} {out : Index ℕ ℕ} (base : ℕ) {size n : ℕ} (h : Trades start a out)
      (hlent : out.get base = some size) (hrun : VmemM.free base a = .ok n a') :
      Trades start a' (out.remove base)

theorem Request.exec_spec {lists : ℕ → List ℕ} (h : a.vmem.Inv spans lists) (r : Request) :
    wp (fun _ => False) r.exec
      (fun base a' => ∃ n lists', a.vmem.roundSize r.size = .ok n ∧ 0 < n ∧
        a'.vmem.Inv spans lists' ∧ Took a.vmem a'.vmem base n)
      (fun _ a' => a'.vmem = a.vmem) a := by
  cases r with
  | xalloc size align min max fit =>
    exact wp_imp (xalloc_spec h size align min max fit)
      (fun _ _ ⟨n, _, lists', hn, hpos, hinv, htook, _⟩ => ⟨n, lists', hn, hpos, hinv, htook⟩)
      fun _ _ he => he.1
  | allocRandom size align entropy => exact allocRandom_spec h size align entropy
  | allocFixed base size =>
    simp only [Request.exec, wp_bind, wp_pure]
    exact wp_imp (allocFixed_spec h base size)
      (fun _ _ ⟨⟨lists', hinv⟩, n, hn, hpos, htook⟩ => ⟨n, lists', hn, hpos, hinv, htook⟩)
      fun _ _ he => he

theorem Trades.lent {start : Arena} (h : Trades start a out)
    (hs : ∃ lists, start.vmem.Inv spans lists) : Lent spans start.vmem a.vmem out := by
  induction h with
  | start => exact ⟨hs, fun _ _ => rfl, fun k size hk => by cases hk⟩
  | @ok a a' out r base _ hrun ih =>
    obtain ⟨lists, hinv⟩ := ih.inv
    obtain ⟨n, lists', hn, hpos, hinv', htook⟩ := wp_ok (r.exec_spec hinv) hrun
    obtain ⟨hfresh, hall⟩ := htook.allocated hinv hpos
    obtain ⟨-, -, -, -, -, hq, -⟩ := id htook
    -- the range was free, so it is no allocation of the start that a request could have taken over
    have hout : out.get base = none := by
      cases hb : out.get base with
      | none => rfl
      | some size =>
        obtain ⟨-, m, -, hm⟩ := ih.lent base size hb
        rw [hfresh] at hm
        cases hm
    refine ⟨⟨lists', hinv'⟩, fun k hk => ?_, fun k size hk => ?_⟩
    · rw [get_insert] at hk
      split_ifs at hk with hkb
      rw [hall, if_neg hkb, ih.kept k hk]
    · rw [hall, roundSize_congr hq]
      rw [get_insert] at hk
      split_ifs at hk with hkb
      · obtain rfl := Option.some.inj hk
        rw [hkb, if_pos rfl, ← ih.kept base hout]
        exact ⟨hfresh, n, hn, rfl⟩
      · rw [if_neg hkb]
        exact ih.lent k size hk
  | @err a a' out r e _ hrun ih =>
    obtain ⟨lists, hinv⟩ := ih.inv
    have hv := wp_err (r.exec_spec hinv) hrun
    rw [show a'.vmem = a.vmem from hv]
    exact ih
  | @free a a' out base size n _ hlent hrun ih =>
    obtain ⟨lists, hinv⟩ := ih.inv
    obtain ⟨hnew, m, -, hm⟩ := ih.lent base size hlent
    obtain ⟨t, ht, hlive⟩ := live_of_allocated hm
    have hspec := wp_free (T := fun _ => True) (E := fun _ _ => True)
      (Q := fun _ a' => Lent spans start.vmem a'.vmem (out.remove base)) hinv ht hlive.1
      fun w lists' lo hi hinv' hwin hj hq _ _ => ?_
    · exact (wp_ok hspec hrun :)
    have hall := hj.allocated rfl hwin
    refine ⟨⟨lists', hinv'⟩, fun k hk => ?_, fun k size' hk => ?_⟩
    · rw [get_remove] at hk
      rw [hall]
      split_ifs at hk ⊢ with hkb
      · rw [hkb, hnew]
      · exact ih.kept k hk
    · rw [get_remove] at hk
      split_ifs at hk with hkb
      rw [hall, if_neg hkb, roundSize_congr hq]
      exact ih.lent k size' hk

/-- Freeing undoes allocating, in any order: once every range requested since a reachable arena
is freed the tags are those of that arena, and each free returns the rounded size. -/
theorem free_undoes_alloc {quantum : ℕ} {σ : Session} (hσ : Reachable quantum σ) {a : Arena}
    {out : Index ℕ ℕ} (h : Trades σ.arena a out) :
    ((∀ k, out.get k = none) → a.vmem.pieces = σ.arena.vmem.pieces) ∧
    ∀ base size, out.get base = some size →
      ∃ n a', a.vmem.roundSize size = .ok n ∧ free base a = .ok n a' := by
  obtain ⟨⟨lists, hinv⟩, hkept, hlent⟩ := h.lent hσ.good.1
  refine ⟨fun hout => ?_, fun base size hb => ?_⟩
  · obtain ⟨lists', hinv'⟩ := hσ.good.1
    refine hinv.tiled.eq_of_live hinv'.tiled fun k => ?_
    rw [← allocated_eq_live, ← allocated_eq_live, (fun k => hkept k (hout k))]
  · obtain ⟨-, n, hn, hall⟩ := hlent base size hb
    obtain ⟨t, ht, hlive, rfl⟩ := live_of_allocated hall
    obtain ⟨m, a', hrun, rfl⟩ := wp_returns (wp_free (Q := fun m _ => m = t.size)
      (T := fun _ => False) (E := fun _ _ => False) hinv ht hlive fun _ _ _ _ _ _ _ _ _ _ => rfl)
    exact ⟨t.size, a', hn, hrun⟩

theorem free_undoes_alloc_example : ∃ (σ : Session) (a : Arena), Reachable 4 σ ∧
    a.vmem.pieces = σ.arena.vmem.pieces := by
  have h₀ : Reachable 4 ⟨⟨Vmem.empty 4, [true, true, true, true]⟩, .empty, []⟩ :=
    .new _ (by simp [Vmem.new, show IsPowerOfTwo 4 by decide])
  have h₁ := Reachable.ok (c := .addSpan 0 64) h₀ trivial rfl
  refine ⟨_, _, h₁, (free_undoes_alloc h₁ (.free 16 (.free 0 (.ok (r := .allocFixed 16 3)
    (.ok (r := .xalloc 5 4 0 64 .best) .start rfl) rfl) rfl rfl) rfl rfl)).1 fun k => ?_⟩
  simp only [get_remove, ite_eq_left_iff]
  intro hne hne'
  exact (get_insert ..).trans ((if_neg hne).trans
    ((get_insert ..).trans (if_neg hne')))

end VmemM
end Roanix.Mem
