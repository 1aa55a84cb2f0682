import Mathlib.Algebra.Ring.Nat
import Mathlib.Order.Lattice

/-! Tournaments kept in an array: node 1 is the root, the players are in the upper half, and each node
below holds the winner of its two children. -/
namespace Roanix.Lib.Tournament
open Function

inductive Below (root : ℕ) : ℕ → Prop
  | self : Below root root
  | left {k : ℕ} (h : Below root k) : Below root (2 * k)
  | right {k : ℕ} (h : Below root k) : Below root (2 * k + 1)

namespace Below
variable {m x y : ℕ}

theorem le (h : Below m x) : m ≤ x := by
  induction h with
  | self => exact Nat.le_refl _
  | left _ ih | right _ ih => omega

theorem trans (h : Below m x) (h' : Below x y) : Below m y := by
  induction h' with
  | self => exact h
  | left _ ih => exact ih.left
  | right _ ih => exact ih.right

theorem child (h : Below m x) : x = m ∨ Below (2 * m) x ∨ Below (2 * m + 1) x := by
  induction h with
  | self => exact .inl rfl
  | left _ ih =>
    obtain rfl | h | h := ih
    · exact .inr (.inl .self)
    · exact .inr (.inl h.left)
    · exact .inr (.inr h.left)
  | right _ ih =>
    obtain rfl | h | h := ih
    · exact .inr (.inr .self)
    · exact .inr (.inl h.right)
    · exact .inr (.inr h.right)

theorem eq_or_two_mul_le (h : Below m x) : x = m ∨ 2 * m ≤ x := by
  obtain rfl | h | h := h.child
  · exact .inl rfl
  · exact .inr h.le
  · exact .inr (Nat.le_of_succ_le h.le)

theorem parent (h : Below m x) (hne : m ≠ x) : Below m (x / 2) := by
  cases h with
  | self => exact absurd rfl hne
  | left h => rwa [Nat.mul_div_cancel_left _ (by decide)]
  | right h => rwa [show ∀ k, (2 * k + 1) / 2 = k from fun k => by omega]

theorem root (hx : 1 ≤ x) : Below 1 x := by
  induction x using Nat.strongRecOn with
  | ind x ih =>
    obtain rfl | hx := Nat.eq_or_lt_of_le hx
    · exact .self
    · have hhalf := ih (x / 2) (by omega) (by omega)
      obtain h | h : x = 2 * (x / 2) ∨ x = 2 * (x / 2) + 1 := by omega
      · rw [h]; exact hhalf.left
      · rw [h]; exact hhalf.right

end Below

variable {α β : Type} [LinearOrder β] {n m x node : ℕ} {key key' : α → β} {win win' : ℕ → α}
  {play : α → α → α}

/-- The node holds a player of its tree that no other player of it beats. -/
structure Best (n : ℕ) (key : α → β) (win : ℕ → α) (m : ℕ) : Prop where
  won : ∃ x, Below m x ∧ n ≤ x ∧ x < 2 * n ∧ win m = win x
  least : ∀ x, Below m x → n ≤ x → x < 2 * n → key (win m) ≤ key (win x)

/-- A match is won by one of the two, which the other does not beat. -/
structure Fair (key : α → β) (play : α → α → α) : Prop where
  one : ∀ a b, play a b = a ∨ play a b = b
  left : ∀ a b, key (play a b) ≤ key a
  right : ∀ a b, key (play a b) ≤ key b

namespace Best

theorem leaf (hn : n ≤ x) (hx : x < 2 * n) : Best n key win x where
  won := ⟨x, .self, hn, hx, rfl⟩
  least y h _ hy := by
    obtain rfl | hle := h.eq_or_two_mul_le
    · exact le_refl _
    · omega

theorem congr (h : Best n key win m) (hm : win' m = win m)
    (hleaf : ∀ x, Below m x → n ≤ x → x < 2 * n → win' x = win x ∧ key' (win x) = key (win x)) :
    Best n key' win' m := by
  obtain ⟨y, hy, hny, hyn, hwon⟩ := h.won
  refine ⟨⟨y, hy, hny, hyn, ?_⟩, ?_⟩
  · rw [hm, hwon, (hleaf y hy hny hyn).1]
  · intro x hx hnx hxn
    have hle := h.least x hx hnx hxn
    rw [hm, hwon, (hleaf y hy hny hyn).2, ← hwon, (hleaf x hx hnx hxn).1, (hleaf x hx hnx hxn).2]
    exact hle

theorem match_won (hplay : Fair key play) (hm : m < n) (hl : Best n key win (2 * m))
    (hr : Best n key win (2 * m + 1)) (h : win m = play (win (2 * m)) (win (2 * m + 1))) :
    Best n key win m := by
  constructor
  · obtain hone | hone := hplay.one (win (2 * m)) (win (2 * m + 1))
    · obtain ⟨x, hx, hnx, hxn, hwon⟩ := hl.won
      exact ⟨x, (Below.self.left).trans hx, hnx, hxn, by rw [h, hone, hwon]⟩
    · obtain ⟨x, hx, hnx, hxn, hwon⟩ := hr.won
      exact ⟨x, (Below.self.right).trans hx, hnx, hxn, by rw [h, hone, hwon]⟩
  · intro x hx hnx hxn
    rw [h]
    obtain rfl | hx | hx := hx.child
    · omega
    · exact (hplay.left _ _).trans (hl.least x hx hnx hxn)
    · exact (hplay.right _ _).trans (hr.least x hx hnx hxn)

theorem of_matches (hplay : Fair key play)
    (h : ∀ m, 1 ≤ m → m < n → win m = play (win (2 * m)) (win (2 * m + 1))) (hm : 1 ≤ m)
    (hmn : m < 2 * n) : Best n key win m := by
  -- Down the tree, which ends at the players.
  induction hd : 2 * n - m using Nat.strongRecOn generalizing m with
  | ind d ih =>
    by_cases hleaf : n ≤ m
    · exact leaf hleaf hmn
    · have hl : Best n key win (2 * m) := ih _ (by omega) (by omega) (by omega) rfl
      have hr : Best n key win (2 * m + 1) := ih _ (by omega) (by omega) (by omega) rfl
      exact match_won hplay (by omega) hl hr (h m hm (by omega))

end Best

/-- Plays the matches above a node again. -/
def repair (play : α → α → α) : ℕ → ℕ → (ℕ → α) → ℕ → α
  | 0, _, win => win
  | fuel + 1, node, win =>
    if 1 < node then
      let node := node / 2
      repair play fuel node
        (update win node (play (win (node * 2)) (win (node * 2 + 1))))
    else win

theorem repair_leaf {fuel : ℕ} (hnode : node < 2 * n) (hx : n ≤ x) :
    repair play fuel node win x = win x := by
  induction fuel generalizing node win with
  | zero => rfl
  | succ fuel ih =>
    unfold repair
    split_ifs with h
    · rw [ih (by omega), update_of_ne (by omega)]
    · rfl

/-- Once every node that is not above the changed one is right, the matches above it put the whole
tree right. -/
theorem repair_best {fuel : ℕ} (hplay : Fair key play) (hfuel : node < 2 ^ (fuel + 1))
    (hpos : 1 ≤ node) (hnode : node < 2 * n)
    (h : ∀ m, 1 ≤ m → m < 2 * n → (Below m node → m = node) → Best n key win m) :
    ∀ m, 1 ≤ m → m < 2 * n → Best n key (repair play fuel node win) m := by
  induction fuel generalizing node win with
  | zero =>
    intro m hm hmn
    refine h m hm hmn fun hbelow => ?_
    have := hbelow.le
    omega
  | succ fuel ih =>
    unfold repair
    split_ifs with hgt
    · have hchild : ∀ m, 2 * (node / 2) ≤ m → Below m node → m = node := by
        intro m hle hbelow
        obtain rfl | h2 := hbelow.eq_or_two_mul_le
        · rfl
        · omega
      -- A match decides its own node only.
      have hframe : ∀ m, m ≠ node / 2 → Best n key win m → Best n key
          (update win (node / 2) (play (win (node / 2 * 2)) (win (node / 2 * 2 + 1)))) m :=
        fun m hne hb => hb.congr (update_of_ne hne _ _) fun x _ hx _ =>
          ⟨update_of_ne (by omega) _ _, rfl⟩
      refine ih (by rw [Nat.pow_succ] at hfuel; omega) (by omega) (by omega) ?_
      intro m hm hmn hbelow
      by_cases hself : m = node / 2
      · subst hself
        have hl := h (2 * (node / 2)) (by omega) (by omega) (hchild _ (Nat.le_refl _))
        have hr := h (2 * (node / 2) + 1) (by omega) (by omega) (hchild _ (Nat.le_succ _))
        refine Best.match_won hplay (by omega) (hframe _ (by omega) hl) (hframe _ (by omega) hr) ?_
        rw [update_self, update_of_ne (by omega), update_of_ne (by omega),
          Nat.mul_comm]
      · refine hframe m hself (h m hm hmn fun hb => ?_)
        by_contra hne
        exact hself (hbelow (hb.parent hne))
    · intro m hm hmn
      refine h m hm hmn fun hbelow => ?_
      have := hbelow.le
      omega

end Roanix.Lib.Tournament
