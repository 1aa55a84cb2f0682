import Roanix.Mem.Amap.Alone

/-! Runs of the operations on the references of one anonymous map. -/
namespace Roanix.Mem
open Lib Act

namespace AmapM
variable {α : Type}

/-- The operations on a reference, and a commit made inside its range. -/
inductive Call (α : Type) where
  | clone (r : MapRef)
  | clipped (r : MapRef) (offset count : ℕ)
  | extend (r : MapRef) (added : ℕ) (backwards : Bool)
  | drop (r : MapRef)
  | commit (r : MapRef) (index : ℕ) (expected replacement : Option α)
      (install : Except Error Unit)

structure Session (α : Type) where
  cell : AmapCell α
  live : List MapRef

def Call.exec [DecidableEq α] (live : List MapRef) : Call α → AmapM α (List MapRef)
  | .clone r => do return (← AmapM.clone r) :: live
  | .clipped r offset count => do return (← AmapM.clipped r offset count) :: live
  | .extend r added backwards => do return (← AmapM.extend r added backwards) :: live.erase r
  | .drop r => do
    AmapM.drop r
    return live.erase r
  | .commit _ index expected replacement install => do
    let _ ← AmapM.commit index expected replacement install
    return live

/-- Operations are made on live references, commits inside their range. -/
def Call.Allowed (live : List MapRef) : Call α → Prop
  | .clone r | .clipped r _ _ | .extend r _ _ | .drop r => r ∈ live
  | .commit r index _ _ _ => r ∈ live ∧ r.Covers index

instance (live : List MapRef) : (c : Call α) → Decidable (c.Allowed live)
  | .clone r | .clipped r _ _ | .extend r _ _ | .drop r => inferInstanceAs (Decidable (r ∈ live))
  | .commit r index _ _ _ => inferInstanceAs (Decidable (r ∈ live ∧ r.Covers index))

/-- What an operation keeps of the slots that are covered after it. A grown reference sees its
slots at their new places, and a commit may replace the content of its own slot. -/
def Call.Keeps (slots : ℕ → Option α) (live' : List MapRef) (slots' : ℕ → Option α) :
    Call α → Prop
  | .extend r added backwards => ∃ r', live' = [r'] ∧ Extended slots r added backwards r' slots'
  | .commit _ index _ _ _ => (slots index ≠ none → slots' index ≠ none) ∧
      ∀ i, i ≠ index → slots' i = slots i
  | _ => ∀ i, 0 < coverage live' i → slots' i = slots i

/-- The stops that remain: a caller out of its range, and 32-bit many references. -/
def Call.MayStop (live : List MapRef) (p : Panic) : Call α → Prop
  | .clone _ => p = .amapReferenceOverflow ∧ 2 ^ 31 - 2 ≤ live.length
  | .clipped r offset count => p = .amapReferenceOverflow ∧ 2 ^ 31 - 2 ≤ live.length ∨
      p = .clipOutsideReference ∧ ¬(r.offset ≤ offset ∧ offset + count ≤ r.offset + r.length)
  | _ => False

inductive Reachable [DecidableEq α] : Session α → Prop
  | allocate {pages : ℕ} {supply rest : Supply} {m : Amap α} {r : MapRef}
      (h : AnonymousMap.allocate pages supply = (.ok (m, r), rest)) : Reachable ⟨⟨m, rest⟩, [r]⟩
  | ok {σ : Session α} {c : Call α} {live : List MapRef} {s : AmapCell α} (hσ : Reachable σ)
      (hc : c.Allowed σ.live) (h : c.exec σ.live σ.cell = .ok live s) : Reachable ⟨s, live⟩
  | err {σ : Session α} {c : Call α} {e : Error} {s : AmapCell α} (hσ : Reachable σ)
      (hc : c.Allowed σ.live) (h : c.exec σ.live σ.cell = .err e s) : Reachable ⟨s, σ.live⟩

theorem allocate_tracks {pages : ℕ} {supply rest : Supply} {m : Amap α} {r : MapRef}
    (h : AnonymousMap.allocate pages supply = (.ok (m, r), rest)) : m.Tracks [r] := by
  simp only [AnonymousMap.allocate] at h
  split_ifs at h
  · simp only [AnonymousMap.withOwner] at h
    split_ifs at h
    · cases h
    split at h
    · cases h
    · next m' supply' hm =>
      obtain ⟨capacity, hcap, rfl⟩ := allocate_blank (congrArg Prod.fst hm)
      split_ifs at h
      · obtain ⟨⟨rfl, rfl⟩, -⟩ : (Amap.blank pages capacity = m ∧ (⟨0, pages⟩ : MapRef) = r) ∧ _ := by
          simpa using h
        exact (Amap.Alone.of_counts (.blank pages capacity) hcap rfl (Nat.zero_add pages).le
          (fun cells hc => by cases hc) (fun _ => Nat.zero_add pages) fun _ _ => rfl).toTracks
      · cases h
  · cases h

variable [DecidableEq α]

theorem Call.exec_spec {s : AmapCell α} {live : List MapRef} (h : s.amap.Tracks live) {c : Call α}
    (hc : c.Allowed live) :
    wp (fun p => c.MayStop live p) (c.exec live)
      (fun live' s' => s'.amap.Tracks live' ∧ c.Keeps s.amap.slots live' s'.amap.slots)
      (fun _ s' => s'.amap.Tracks live ∧
        ∀ i, 0 < coverage live i → s'.amap.slots i = s.amap.slots i) s := by
  cases c with
  | clone r =>
    simp only [exec, AmapM.clone, wp_bind, wp_pure]
    refine wp_imp (addReference_spec h hc le_rfl) (fun _ s' hs => ?_) fun _ _ he => he.elim
    exact ⟨hs.1, fun i _ => by rw [hs.2]⟩
  | clipped r offset count =>
    simp only [exec, wp_bind]
    refine wp_imp (clipped_spec h hc offset count) (fun r' s' hs => ?_)
      fun _ _ he => he.elim
    exact ⟨hs.2.1, fun i _ => by rw [hs.2.2]⟩
  | extend r added backwards =>
    simp only [exec, wp_bind]
    refine wp_post (extend_spec h hc added backwards) (fun r' s' hs => ?_)
    obtain ⟨rfl, htracks, hext⟩ := hs
    have hlive : r' :: [r].erase r = [r'] := by simp
    rw [hlive]
    exact ⟨htracks, r', rfl, hext⟩
  | drop r =>
    simp only [exec, wp_bind]
    exact wp_imp (drop_spec h hc) (fun _ s' hs => hs) fun _ _ he => he.elim
  | commit r index expected replacement install =>
    simp only [exec, wp_bind]
    refine wp_imp (commit_spec h hc.1 hc.2 expected replacement install)
      (fun done s' hs => ⟨hs.1, ?_⟩) fun _ s' he => by
        rw [he]
        exact ⟨h, fun _ _ => rfl⟩
    obtain ⟨-, hslots⟩ := hs
    rw [hslots]
    split
    · exact ⟨fun _ => by simp, fun i hi => Function.update_of_ne hi _ _⟩
    · exact ⟨fun hne => hne, fun _ _ => rfl⟩

theorem Reachable.tracks {σ : Session α} (h : Reachable σ) : σ.cell.amap.Tracks σ.live := by
  induction h with
  | allocate h => exact allocate_tracks h
  | ok _ hc hrun ih =>
    have hspec := wp_ok (Call.exec_spec ih hc) hrun
    exact hspec.1
  | err _ hc hrun ih =>
    have hspec := wp_err (Call.exec_spec ih hc) hrun
    exact hspec.1

/-- After any run the counts of a map decode to the number of live references over every slot, as long
as one is alive; unless counts could not be had, a slot that no reference covers is empty; and no
operation stops, or takes the content of a slot that stays covered. -/
theorem amap_coverage_exact {σ : Session α} (h : Reachable σ) :
    (∀ cells, σ.cell.amap.counts = .counts cells → σ.live ≠ [] →
      decodeRuns cells σ.cell.amap.nslot σ.cell.amap.nslot 0 =
        some ((List.range σ.cell.amap.nslot).map fun i => (coverage σ.live i : ℤ))) ∧
    (σ.cell.amap.counts ≠ .disabled ∨ σ.live = [] →
      ∀ i, coverage σ.live i = 0 → σ.cell.amap.slots i = none) ∧
    ∀ c : Call α, c.Allowed σ.live →
      (∀ p, c.exec σ.live σ.cell = .panic p → c.MayStop σ.live p) ∧
      (∀ live s, c.exec σ.live σ.cell = .ok live s →
        c.Keeps σ.cell.amap.slots live s.amap.slots) ∧
      ∀ e s, c.exec σ.live σ.cell = .err e s →
        ∀ i, 0 < coverage σ.live i → s.amap.slots i = σ.cell.amap.slots i := by
  have htracks := h.tracks
  refine ⟨fun cells hc hlive => ?_, htracks.vacant, fun c hc => ?_⟩
  · have hruns := htracks.counted cells hc hlive
    rw [hruns.decodeRuns_eq _ le_rfl, List.range_eq_range', Nat.sub_zero]
  · have hspec := Call.exec_spec htracks hc
    refine ⟨fun p hrun => ?_, fun live s hrun => ?_, fun e s hrun => ?_⟩
    · exact (wp_panic hspec hrun :)
    · have hok := wp_ok hspec hrun
      exact hok.2
    · have herr := wp_err hspec hrun
      exact herr.2

theorem amap_coverage_exact_clipped : ∃ σ : Session ℕ, Reachable σ ∧ σ.live = [⟨0, 1⟩] ∧
    σ.cell.amap.slots 0 = some 7 ∧ ∃ cells, σ.cell.amap.counts = .counts cells ∧
      decodeRuns cells 2 2 0 = some [1, 0] := by
  have h : Reachable (α := ℕ) ⟨⟨Amap.blank 2 16, []⟩, [⟨0, 2⟩]⟩ :=
    .allocate (show AnonymousMap.allocate 2 [] = _ from rfl)
  have h := Reachable.ok (c := .commit ⟨0, 2⟩ 0 none (some 7) (.ok ())) h (by decide) rfl
  have h := Reachable.ok (c := .clipped ⟨0, 2⟩ 0 1) h (by decide) rfl
  have h := Reachable.ok (c := .drop ⟨0, 2⟩) h (by decide) rfl
  exact ⟨_, h, rfl, rfl, _, rfl, (amap_coverage_exact h).1 _ rfl (by decide)⟩

/-- Without storage for the counts, a slot outlives the only reference that covered it; and the
counts of a map whose last reference is gone still show that reference. -/
theorem amap_coverage_inexact :
    (∃ σ : Session ℕ, Reachable σ ∧ σ.cell.amap.counts = .disabled ∧ coverage σ.live 1 = 0 ∧
      σ.cell.amap.slots 1 = some 7) ∧
    ∃ σ : Session ℕ, Reachable σ ∧ σ.live = [] ∧ ∃ cells, σ.cell.amap.counts = .counts cells ∧
      decodeRuns cells 2 2 0 = some [1, 1] := by
  constructor
  · have h₀ : Reachable (α := ℕ) ⟨⟨Amap.blank 2 16, [false]⟩, [⟨0, 2⟩]⟩ :=
      .allocate (show AnonymousMap.allocate 2 [true, true, true, true, true, false] = _ from rfl)
    have h₁ := Reachable.ok (c := .commit ⟨0, 2⟩ 1 none (some 7) (.ok ())) h₀ (by decide) rfl
    have h₂ := Reachable.ok (c := .clipped ⟨0, 2⟩ 0 1) h₁ (by decide) rfl
    have h₃ := Reachable.ok (c := .drop ⟨0, 2⟩) h₂ (by decide) rfl
    exact ⟨_, h₃, rfl, rfl, rfl⟩
  · have h₀ : Reachable (α := ℕ) ⟨⟨Amap.blank 2 16, []⟩, [⟨0, 2⟩]⟩ :=
      .allocate (show AnonymousMap.allocate 2 [] = _ from rfl)
    have h₁ := Reachable.ok (c := .clone ⟨0, 2⟩) h₀ (by decide) rfl
    have h₂ := Reachable.ok (c := .drop ⟨0, 2⟩) h₁ (by decide) rfl
    have h₃ := Reachable.ok (c := .drop ⟨0, 2⟩) h₂ (by decide) rfl
    exact ⟨_, h₃, rfl, _, rfl, rfl⟩

/-- The only reference of a map grows by just the slots asked for: it sees what it saw before,
after any slots added in front, and nothing in the added ones. A failure leaves it as it was. -/
theorem amap_extend {σ : Session α} (h : Reachable σ) (hone : σ.cell.amap.references = 1)
    {r : MapRef} (hr : r ∈ σ.live) (added : ℕ) (backwards : Bool) :
    (∀ r' s, extend r added backwards σ.cell = .ok r' s → r'.length = r.length + added ∧
      (∀ k < r.length, s.amap.slots (r'.offset + if backwards then k + added else k) =
        σ.cell.amap.slots (r.offset + k)) ∧
      (∀ k < added, s.amap.slots (r'.offset + if backwards then k else r.length + k) = none) ∧
      r'.offset + r'.length ≤ s.amap.nslot ∧ s.amap.Indexed) ∧
    ∀ e s, extend r added backwards σ.cell = .err e s → s.amap.Tracks [r] ∧
      ∀ k < r.length, s.amap.slots (r.offset + k) = σ.cell.amap.slots (r.offset + k) := by
  have hspec := extend_spec h.tracks hr added backwards
  constructor
  · intro r' s hrun
    have hok := wp_ok hspec hrun
    obtain ⟨-, htracks, hext⟩ := hok
    refine ⟨hext.length, fun k hk => ?_, fun k hk => ?_, htracks.inside r' (by simp),
      htracks.indexed⟩
    · rw [← hext.kept k hk]
      congr 1
      split_ifs <;> omega
    · rw [← hext.added k hk]
      congr 1
      split_ifs <;> omega
  · intro e s hrun
    have herr := wp_err hspec hrun
    obtain ⟨htracks, hsame⟩ := herr
    have hlive : σ.live = [r] := by
      obtain ⟨q, hq⟩ := List.length_eq_one_iff.mp (h.tracks.references.symm.trans hone)
      rw [hq] at hr ⊢
      rw [List.mem_singleton.mp hr]
    rw [hlive] at htracks
    exact ⟨htracks, fun k hk => hsame _ (coverage_pos hr ⟨by omega, by omega⟩)⟩

theorem amap_extend_backwards : ∃ (σ : Session ℕ) (s : AmapCell ℕ), Reachable σ ∧
    extend ⟨0, 2⟩ 1 true σ.cell = .ok ⟨13, 3⟩ s ∧ s.amap.slots 14 = some 7 ∧
    s.amap.slots 13 = none := by
  have h₀ : Reachable (α := ℕ) ⟨⟨Amap.blank 2 16, []⟩, [⟨0, 2⟩]⟩ :=
    .allocate (show AnonymousMap.allocate 2 [] = _ from rfl)
  have h₁ := Reachable.ok (c := .commit ⟨0, 2⟩ 0 none (some 7) (.ok ())) h₀ (by decide) rfl
  obtain ⟨-, hkept, hadded, -⟩ :=
    (amap_extend (r := ⟨0, 2⟩) h₁ rfl (by decide) 1 true).1 ⟨13, 3⟩ _ rfl
  exact ⟨_, _, h₁, rfl, hkept 0 (by decide), hadded 0 (by decide)⟩

end AmapM
end Roanix.Mem
