import Mathlib.Order.Basic
import Mathlib.Algebra.Ring.Nat
import Mathlib.Algebra.Group.Basic

/-! Spans of addresses cut into pieces without gap or overlap and without two free neighbours in one
span. Splitting a piece and merging pieces are both a replacement of the pieces in one window. The
pieces in use determine the others. -/
namespace Roanix.Lib
open Option

structure Piece where
  size : ℕ
  span : ℕ
  free : Bool
deriving DecidableEq, Repr

/-- The pieces `g`, given by their first addresses, tile the spans in multiples of `q`. -/
structure Tiled (q : ℕ) (spans : ℕ → Option ℕ) (g : ℕ → Option Piece) : Prop where
  pos : ∀ {k p}, g k = some p → 0 < p.size
  aligned : ∀ {k p}, g k = some p → q ∣ k ∧ q ∣ p.size
  inside : ∀ {k p}, g k = some p →
    ∃ n, spans p.span = some n ∧ p.span ≤ k ∧ k + p.size ≤ p.span + n
  cover : ∀ {b n a}, spans b = some n → b ≤ a → a < b + n →
    ∃ k p, g k = some p ∧ p.span = b ∧ k ≤ a ∧ a < k + p.size
  apart : ∀ {k k' p p'}, g k = some p → g k' = some p' → k < k' → k + p.size ≤ k'
  coalesced : ∀ {k p p'}, g k = some p → g (k + p.size) = some p' → p.span = p'.span →
    p.free = true → p'.free = false

namespace Tiled
variable {q : ℕ} {spans : ℕ → Option ℕ} {g g' : ℕ → Option Piece}

theorem empty (q : ℕ) : Tiled q (fun _ => none) (fun _ => none) where
  pos h := by cases h
  aligned h := by cases h
  inside h := by cases h
  cover h := by cases h
  apart h := by cases h
  coalesced h := by cases h

theorem unique (h : Tiled q spans g) {k k' a : ℕ} {p p' : Piece} (hp : g k = some p)
    (hp' : g k' = some p') (hk : k ≤ a ∧ a < k + p.size) (hk' : k' ≤ a ∧ a < k' + p'.size) :
    k = k' := by
  rcases lt_trichotomy k k' with hlt | heq | hgt
  · have := h.apart hp hp' hlt
    omega
  · exact heq
  · have := h.apart hp' hp hgt
    omega

section
variable (h : Tiled q spans g) {lo hi b n : ℕ} (hb : spans b = some n) (hlo : b ≤ lo)
  (hhi : hi ≤ b + n) (hout : ∀ k, k < lo ∨ hi ≤ k → g' k = g k)
  (hleft : ∀ k p, g k = some p → k < lo → k + p.size ≤ lo)
  (hright : ∀ k p, g k = some p → lo ≤ k → k < hi → k + p.size ≤ hi)
include h hb hlo hhi hout hleft hright

/-- Replace the pieces of a window of one span, cut at piece boundaries on both sides. -/
theorem replace
    (hnew : ∀ k p, g' k = some p → lo ≤ k → k < hi →
      0 < p.size ∧ (q ∣ k ∧ q ∣ p.size) ∧ p.span = b ∧ k + p.size ≤ hi)
    (hcover : ∀ a, lo ≤ a → a < hi → ∃ k p, g' k = some p ∧ lo ≤ k ∧ k ≤ a ∧ a < k + p.size)
    (hapart : ∀ k k' p p', g' k = some p → g' k' = some p' → lo ≤ k → k' < hi → k < k' →
      k + p.size ≤ k')
    (hmerged : ∀ k p p', g' k = some p → g' (k + p.size) = some p' → p.span = b → p'.span = b →
      lo ≤ k + p.size → k < hi → p.free = true → p'.free = false) : Tiled q spans g' := by
  -- a piece of the new tiling is new, or stands outside the window and is old
  have hcases : ∀ k p, g' k = some p →
      (lo ≤ k ∧ k < hi) ∨ ((k < lo ∨ hi ≤ k) ∧ g k = some p) := by
    intro k p hp
    by_cases hk : k < lo ∨ hi ≤ k
    · exact .inr ⟨hk, hout k hk ▸ hp⟩
    · exact .inl (by omega)
  refine ⟨fun {k p} hp => ?_, fun {k p} hp => ?_, fun {k p} hp => ?_,
    fun {c m a} hc hca ham => ?_, fun {k k' p p'} hp hp' hlt => ?_,
    fun {k p p'} hp hp' hs hf => ?_⟩
  · rcases hcases k p hp with hk | ⟨-, hg⟩
    · exact (hnew k p hp hk.1 hk.2).1
    · exact h.pos hg
  · rcases hcases k p hp with hk | ⟨-, hg⟩
    · exact (hnew k p hp hk.1 hk.2).2.1
    · exact h.aligned hg
  · rcases hcases k p hp with hk | ⟨-, hg⟩
    · obtain ⟨-, -, hs, he⟩ := hnew k p hp hk.1 hk.2
      exact ⟨n, hs ▸ hb, by omega, by omega⟩
    · exact h.inside hg
  · obtain ⟨k, p, hp, hs, hka, hak⟩ := h.cover hc hca ham
    by_cases hk : k < lo ∨ hi ≤ k
    · exact ⟨k, p, (hout k hk).trans hp, hs, hka, hak⟩
    · -- the old piece stood in the window, so the window is part of its span
      have hend := hright k p hp (by omega) (by omega)
      obtain ⟨k', p', hp', hlo', hka', hak'⟩ := hcover a (by omega) (by omega)
      obtain ⟨-, -, hs', -⟩ := hnew k' p' hp' hlo' (by omega)
      obtain ⟨kb, pb, hpb, hsb, hkb, hbk⟩ := h.cover hb (by omega : b ≤ a) (by omega)
      have hkk : kb = k := h.unique hpb hp ⟨hkb, hbk⟩ ⟨hka, hak⟩
      subst hkk
      rw [hp, some.injEq] at hpb
      exact ⟨k', p', hp', by rw [hs', ← hsb, ← hpb, hs], hka', hak'⟩
  · rcases hcases k p hp with hk | ⟨hk, hg⟩ <;> rcases hcases k' p' hp' with hk' | ⟨hk', hg'⟩
    · exact hapart k k' p p' hp hp' hk.1 hk'.2 hlt
    · have := (hnew k p hp hk.1 hk.2).2.2.2
      omega
    · have := hleft k p hg (by omega)
      omega
    · exact h.apart hg hg' hlt
  · by_cases hw : p.span = b ∧ lo ≤ k + p.size ∧ k < hi
    · exact hmerged k p p' hp hp' hw.1 (hs ▸ hw.1) hw.2.1 hw.2.2 hf
    · -- both pieces are old: a new one would be of span `b` and touch the window
      have hold : g k = some p := by
        rcases hcases k p hp with hk | ⟨-, hg⟩
        · exact absurd ⟨(hnew k p hp hk.1 hk.2).2.2.1, by omega, hk.2⟩ hw
        · exact hg
      have hold' : g (k + p.size) = some p' := by
        rcases hcases _ p' hp' with hk | ⟨-, hg⟩
        · have := (hnew _ p' hp' hk.1 hk.2).2.2.1
          exact absurd ⟨hs.trans this, hk.1, by omega⟩ hw
        · exact hg
      exact h.coalesced hold hold' hs hf

/-- Merge the pieces of a window into one free piece, where no free piece adjoins the window. -/
theorem merge (hlt : lo < hi) (hqlo : q ∣ lo) (hqhi : q ∣ hi)
    (hat : g' lo = some ⟨hi - lo, b, true⟩) (hin : ∀ k, lo < k → k < hi → g' k = none)
    (hbefore : ∀ k p, g k = some p → k + p.size = lo → p.span = b → p.free = false)
    (hafter : ∀ p, g hi = some p → p.span = b → p.free = false) : Tiled q spans g' := by
  have hwin : ∀ k p, g' k = some p → lo ≤ k → k < hi → k = lo ∧ p = ⟨hi - lo, b, true⟩ := by
    intro k p hp hk hke
    rcases hk.eq_or_lt with rfl | hk
    · exact ⟨rfl, mem_unique hp hat⟩
    · rw [hin k hk hke] at hp
      cases hp
  refine h.replace hb hlo hhi hout hleft hright (fun k p hp hk hke => ?_) (fun a ha hae => ?_)
    (fun k k' p p' hp hp' hk hke hkk => ?_) (fun k p p' hp hp' hs hs' hlo' hke hf => ?_)
  · obtain ⟨rfl, rfl⟩ := hwin k p hp hk hke
    exact ⟨by simp only; omega, ⟨hqlo, Nat.dvd_sub hqhi hqlo⟩, rfl, by simp only; omega⟩
  · exact ⟨lo, _, hat, le_rfl, ha, by simp only; omega⟩
  · have h2 := (hwin k' p' hp' (by omega) hke).1
    omega
  · by_cases hk : k < lo
    · have hg := (hout k (.inl hk)).symm.trans hp
      have := hbefore k p hg (le_antisymm (hleft k p hg hk) hlo') hs
      rw [hf] at this
      cases this
    · obtain ⟨rfl, rfl⟩ := hwin k p hp (by omega) hke
      have hend : k + (hi - k) = hi := by omega
      simp only [hend, hout hi (.inr le_rfl)] at hp'
      exact hafter p' hp' hs'

end

theorem add (h : Tiled q spans g) {b n : ℕ} (hn : 0 < n) (hqb : q ∣ b) (hqn : q ∣ n)
    (hfresh : ∀ k p, g k = some p → k + p.size ≤ b ∨ b + n ≤ k) :
    Tiled q (fun c => if c = b then some n else spans c)
      (fun k => if k = b then some ⟨n, b, true⟩ else g k) := by
  -- a piece of an old span at `b` would meet the new span there
  have hspan : ∀ k p, g k = some p → p.span ≠ b := by
    intro k p hp he
    have hpos := h.pos hp
    obtain ⟨m, hm, hle, hend⟩ := h.inside hp
    obtain ⟨k', p', hp', -, hk', hlt⟩ := h.cover hm le_rfl (by omega)
    rcases hfresh k' p' hp' with hf | hf <;> omega
  have hcases : ∀ k p, (if k = b then some ⟨n, b, true⟩ else g k) = some p →
      (k = b ∧ p = ⟨n, b, true⟩) ∨ (k ≠ b ∧ g k = some p) := by
    intro k p hp
    split_ifs at hp with hk
    · exact .inl ⟨hk, (some.inj hp).symm⟩
    · exact .inr ⟨hk, hp⟩
  refine ⟨fun {k p} hp => ?_, fun {k p} hp => ?_, fun {k p} hp => ?_,
    fun {c m a} hc hca ham => ?_, fun {k k' p p'} hp hp' hlt => ?_,
    fun {k p p'} hp hp' hs hf => ?_⟩
  · rcases hcases k p hp with ⟨-, rfl⟩ | ⟨-, hg⟩
    · exact hn
    · exact h.pos hg
  · rcases hcases k p hp with ⟨rfl, rfl⟩ | ⟨-, hg⟩
    · exact ⟨hqb, hqn⟩
    · exact h.aligned hg
  · rcases hcases k p hp with ⟨rfl, rfl⟩ | ⟨-, hg⟩
    · exact ⟨n, if_pos rfl, le_rfl, le_rfl⟩
    · obtain ⟨m, hm, hin⟩ := h.inside hg
      exact ⟨m, by rw [if_neg (hspan k p hg), hm], hin⟩
  · by_cases hcb : c = b
    · subst hcb
      obtain rfl : n = m := by simpa using hc
      exact ⟨c, _, if_pos rfl, rfl, hca, ham⟩
    · rw [if_neg hcb] at hc
      obtain ⟨k, p, hp, hs, hk, hlt⟩ := h.cover hc hca ham
      have hkb : k ≠ b := by
        rcases hfresh k p hp with hf | hf <;> omega
      exact ⟨k, p, by rw [if_neg hkb, hp], hs, hk, hlt⟩
  · rcases hcases k p hp with ⟨rfl, rfl⟩ | ⟨hk, hg⟩ <;>
      rcases hcases k' p' hp' with ⟨rfl, rfl⟩ | ⟨hk', hg'⟩
    · omega
    · rcases hfresh k' p' hg' with hf | hf
      · omega
      · exact hf
    · rcases hfresh k p hg with hf | hf <;> omega
    · exact h.apart hg hg' hlt
  · rcases hcases k p hp with ⟨hk, rfl⟩ | ⟨-, hg⟩ <;>
      rcases hcases _ p' hp' with ⟨hk', rfl⟩ | ⟨-, hg'⟩
    · simp only at hk'
      omega
    · exact absurd hs.symm (hspan _ p' hg')
    · exact absurd hs (hspan k p hg)
    · exact h.coalesced hg hg' hs hf

/-- The size of the piece in use at an address. -/
def live (g : ℕ → Option Piece) (k : ℕ) : Option ℕ := ((g k).filter fun p => !p.free).map Piece.size

section Equal
variable {q' k k' a : ℕ} {p p' : Piece}

theorem live_eq_some {n : ℕ} :
    live g k = some n ↔ ∃ p, g k = some p ∧ p.free = false ∧ p.size = n := by
  simp [live, map_eq_some_iff, filter_eq_some_iff, and_assoc]

section
variable (h' : Tiled q' spans g') (hp : g k = some p) (hp' : g' k' = some p')
  (hk : k ≤ a ∧ a < k + p.size) (hk' : k' ≤ a ∧ a < k' + p'.size)
include h' hp hp' hk hk'

/-- Pieces of two tilings that share an address lie in one span. -/
theorem span_eq (h : Tiled q spans g) : p.span = p'.span := by
  obtain ⟨n, hn, hlo, hhi⟩ := h'.inside hp'
  obtain ⟨j, r, hr, hspan, hj⟩ := h.cover hn (hlo.trans hk'.1) (hk'.2.trans_le hhi)
  obtain rfl := h.unique hp hr hk hj
  rw [← hspan, mem_unique hp hr]

theorem free_of_shared (hlive : ∀ k, live g k = live g' k) (hfree : p'.free = true) :
    p.free = true := by
  by_contra hused
  rw [Bool.not_eq_true] at hused
  obtain ⟨r, hr, hrf, hrs⟩ :=
    live_eq_some.mp ((hlive k).symm.trans (live_eq_some.mpr ⟨p, hp, hused, rfl⟩))
  obtain rfl := h'.unique hr hp' (hrs ▸ hk) hk'
  rw [mem_unique hr hp', hfree] at hrf
  cases hrf

end

section
variable (h : Tiled q spans g) (h' : Tiled q' spans g') (hlive : ∀ k, live g k = live g' k)
include h h' hlive

/-- Coalescing stops a free piece where one of the other tiling stops: the piece beside it
would be free as well. -/
theorem free_within (hp : g k = some p) (hp' : g' k' = some p')
    (hk : k ≤ a ∧ a < k + p.size) (hk' : k' ≤ a ∧ a < k' + p'.size) (hf : p.free = true)
    (hf' : p'.free = true) : k ≤ k' ∧ k' + p'.size ≤ k + p.size := by
  obtain ⟨n, hn, hlo, hhi⟩ := h'.inside hp'
  have hspan := h'.span_eq hp hp' hk hk' h
  have hbeside : ∀ {x}, k' ≤ x → x < k' + p'.size →
      ∃ j r, g j = some r ∧ r.span = p.span ∧ (j ≤ x ∧ x < j + r.size) ∧ r.free = true := by
    intro x hx hxe
    obtain ⟨j, r, hr, hrs, hj⟩ := h.cover hn (hlo.trans hx) (hxe.trans_le hhi)
    exact ⟨j, r, hr, hrs.trans hspan.symm, hj, h'.free_of_shared hr hp' hj ⟨hx, hxe⟩ hlive hf'⟩
  constructor
  · by_contra hlt
    obtain ⟨j, r, hr, hrs, hj, hrf⟩ := hbeside (x := k - 1) (by omega) (by omega)
    have hend : j + r.size = k := by
      have := h.apart hr hp (by omega)
      omega
    rw [h.coalesced hr (hend ▸ hp) hrs hrf] at hf
    cases hf
  · by_contra hlt
    obtain ⟨j, r, hr, hrs, hj, hrf⟩ := hbeside (x := k + p.size) (by omega) (by omega)
    have hjk : j = k + p.size := by
      rcases lt_trichotomy j k with hjk | rfl | hjk
      · have := h.apart hr hp hjk
        omega
      · rw [mem_unique hr hp] at hj
        omega
      · have := h.apart hp hr hjk
        omega
    rw [h.coalesced hp (hjk ▸ hr) hrs.symm hf] at hrf
    cases hrf

theorem get_of_live (hp : g k = some p) : g' k = some p := by
  obtain ⟨n, hn, hlo, hhi⟩ := h.inside hp
  have hpos := h.pos hp
  obtain ⟨k', p', hp', -, hk'⟩ := h'.cover hn hlo (a := k) (by omega)
  have hk : k ≤ k ∧ k < k + p.size := ⟨le_rfl, by omega⟩
  cases hf : p.free with
  | false =>
    obtain ⟨r, hr, hrf, hrs⟩ :=
      live_eq_some.mp ((hlive k).symm.trans (live_eq_some.mpr ⟨p, hp, hf, rfl⟩))
    have hspan := h'.span_eq hp hr hk (hrs ▸ hk) h
    rw [hr, some.injEq, Piece.mk.injEq]
    exact ⟨hrs, hspan.symm, hrf.trans hf.symm⟩
  | true =>
    have hf' := h.free_of_shared hp' hp hk' hk (fun k => (hlive k).symm) hf
    have hin := h.free_within h' hlive hp hp' hk hk' hf hf'
    have hout := h'.free_within h (fun k => (hlive k).symm) hp' hp hk' hk hf' hf
    have hspan := h'.span_eq hp hp' hk hk' h
    obtain rfl : k = k' := by omega
    rw [hp', some.injEq, Piece.mk.injEq]
    exact ⟨by omega, hspan.symm, hf'.trans hf.symm⟩

/-- A coalesced tiling is determined by its spans and the pieces in use. -/
theorem eq_of_live : g = g' := by
  funext k
  cases hk : g k with
  | some p => exact (h.get_of_live h' hlive hk).symm
  | none =>
    cases hk' : g' k with
    | none => rfl
    | some p => rw [h'.get_of_live h (fun k => (hlive k).symm) hk'] at hk; cases hk

end

end Equal
end Tiled
end Roanix.Lib
