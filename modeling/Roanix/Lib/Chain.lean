import Mathlib.Data.List.Nodup

/-! Doubly linked lists given by two link functions. `Chain` relates the links to the list of nodes
they visit. -/
namespace Roanix.Lib
open Function List Option
variable {κ : Type} {prev next prev' next' : κ → Option κ}

/-- Starting after the predecessor `p`, the links visit exactly the nodes of the list. -/
def Chain (prev next : κ → Option κ) : Option κ → List κ → Prop
  | _, [] => True
  | p, x :: xs => prev x = p ∧ next x = xs.head? ∧ Chain prev next (some x) xs

variable {p : Option κ} {xs l r : List κ} {x y n q : κ}

theorem Chain.links (h : Chain prev next p (l ++ x :: r)) :
    prev x = l.getLast?.or p ∧ next x = r.head? := by
  induction l generalizing p with
  | nil => exact ⟨h.1, h.2.1⟩
  | cons y l ih =>
    obtain ⟨hp, hn⟩ := ih h.2.2
    refine ⟨hp.trans ?_, hn⟩
    rw [getLast?_cons]
    cases l.getLast? <;> rfl

theorem Chain.congr (h : Chain prev next p xs)
    (hl : ∀ x ∈ xs, prev' x = prev x ∧ next' x = next x) : Chain prev' next' p xs := by
  induction xs generalizing p with
  | nil => trivial
  | cons x xs ih =>
    obtain ⟨hp, hn, hc⟩ := h
    obtain ⟨hp', hn'⟩ := hl x (by simp)
    exact ⟨hp'.trans hp, hn'.trans hn, ih hc fun y hy => hl y (by simp [hy])⟩

theorem Chain.next_mem (h : Chain prev next p xs) (hx : x ∈ xs) (hn : next x = some n) :
    n ∈ xs := by
  obtain ⟨l, r, rfl⟩ := append_of_mem hx
  have hr := mem_of_mem_head? (h.links.2.symm.trans hn)
  simp [hr]

/-- The successor of a node comes strictly after it, so it is never the first node. -/
theorem Chain.next_mem_tail (h : Chain prev next p (y :: xs)) (hx : x ∈ y :: xs)
    (hn : next x = some n) : n ∈ xs := by
  obtain ⟨-, hy, hc⟩ := h
  rcases mem_cons.mp hx with rfl | hx
  · exact mem_of_mem_head? (hy.symm.trans hn)
  · exact hc.next_mem hx hn

theorem Chain.prev_mem (h : Chain prev next p xs) (hx : x ∈ xs) (hq : prev x = some q) :
    q ∈ xs ∨ p = some q := by
  obtain ⟨l, r, rfl⟩ := append_of_mem hx
  obtain hl | ⟨-, hp⟩ := or_eq_some_iff.mp (h.links.1.symm.trans hq)
  · exact .inl (mem_append_left _ (mem_of_mem_getLast? hl))
  · exact .inr hp

/-- Only the first node of a list without predecessor has no predecessor. -/
theorem Chain.head_of_prev_none (h : Chain prev next none xs) (hx : x ∈ xs) (hp : prev x = none) :
    xs.head? = some x := by
  obtain ⟨l, r, rfl⟩ := append_of_mem hx
  have hl := h.links.1.symm.trans hp
  rw [or_none, getLast?_eq_none_iff] at hl
  rw [hl]
  rfl

theorem Chain.next_ne_self (h : Chain prev next p xs) (hd : xs.Nodup) (hx : x ∈ xs) :
    next x ≠ some x := by
  intro hn
  obtain ⟨l, r, rfl⟩ := append_of_mem hx
  have hr := mem_of_mem_head? (h.links.2.symm.trans hn)
  exact (nodup_cons.mp (nodup_append.mp hd).2.1).1 hr

theorem Chain.prev_ne_self (h : Chain prev next p xs) (hd : xs.Nodup) (hp : p ≠ some x)
    (hx : x ∈ xs) : prev x ≠ some x := by
  intro hn
  obtain ⟨l, r, rfl⟩ := append_of_mem hx
  obtain hl | ⟨-, hp'⟩ := or_eq_some_iff.mp (h.links.1.symm.trans hn)
  · exact (nodup_append.mp hd).2.2 x (mem_of_mem_getLast? hl) x (by simp) rfl
  · exact hp hp'

theorem Chain.push (h : Chain prev next none xs) (hx : x ∉ xs)
    (hpx : prev' x = none) (hnx : next' x = xs.head?)
    (hhead : ∀ y, xs.head? = some y → prev' y = some x)
    (hp : ∀ y ∈ xs, xs.head? ≠ some y → prev' y = prev y) (hn : ∀ y ∈ xs, next' y = next y)
    (hd : xs.Nodup) : Chain prev' next' none (x :: xs) := by
  refine ⟨hpx, hnx, ?_⟩
  cases xs with
  | nil => trivial
  | cons y xs =>
    obtain ⟨-, hy, hc⟩ := h
    have hyx := (nodup_cons.mp hd).1
    refine ⟨hhead y rfl, (hn y (by simp)).trans hy, hc.congr fun z hz => ⟨?_, hn z (by simp [hz])⟩⟩
    exact hp z (by simp [hz]) fun he => hyx (some.inj he ▸ hz)

theorem Chain.erase [DecidableEq κ] (h : Chain prev next p xs) (hd : xs.Nodup)
    (hp : ∀ q, p = some q → q ∉ xs) (hx : x ∈ xs)
    (hprev : ∀ y ∈ xs, y ≠ x → prev' y = if next x = some y then prev x else prev y)
    (hnext : ∀ y ∈ xs, y ≠ x → next' y = if prev x = some y then next x else next y) :
    Chain prev' next' p (xs.erase x) := by
  induction xs generalizing p with
  | nil => simp at hx
  | cons y xs ih =>
    obtain ⟨hyn, hdx⟩ := nodup_cons.mp hd
    obtain ⟨hy, hny, hc⟩ := id h
    by_cases hxy : y = x
    · subst hxy
      rw [erase_cons_head]
      cases xs with
      | nil => trivial
      | cons z zs =>
        obtain ⟨hz, hnz, hcz⟩ := hc
        have hzy : z ≠ y := fun he => hyn (by simp [he])
        have hzs := (nodup_cons.mp hdx).1
        refine ⟨?_, ?_, hcz.congr fun t ht => ⟨?_, ?_⟩⟩
        · rw [hprev z (by simp) hzy, hny]
          simp [hy]
        · rw [hnext z (by simp) hzy, if_neg, hnz]
          intro he
          exact hp z (hy ▸ he) (by simp)
        · have hty : t ≠ y := fun he => hyn (by simp [← he, ht])
          rw [hprev t (by simp [ht]) hty, if_neg]
          intro he
          rw [hny, head?_cons, some.injEq] at he
          exact hzs (he ▸ ht)
        · have hty : t ≠ y := fun he => hyn (by simp [← he, ht])
          rw [hnext t (by simp [ht]) hty, if_neg]
          intro he
          exact hp t (hy ▸ he) (by simp [ht])
    · have hx' : x ∈ xs := (mem_cons.mp hx).resolve_left (Ne.symm hxy)
      rw [erase_cons_tail (by simpa using hxy)]
      refine ⟨?_, ?_, ih hc hdx (fun q hq => some.inj hq ▸ hyn) hx'
        (fun t ht => hprev t (by simp [ht])) (fun t ht => hnext t (by simp [ht]))⟩
      · rw [hprev y (by simp) hxy, if_neg, hy]
        intro he
        exact hyn (h.next_mem_tail hx he)
      · rw [hnext y (by simp) hxy]
        cases xs with
        | nil => simp at hx'
        | cons z zs =>
          obtain ⟨hz, hnz, hcz⟩ := hc
          by_cases hzx : z = x
          · subst hzx
            rw [if_pos hz, hnz, erase_cons_head]
          · rw [erase_cons_tail (by simpa using hzx), if_neg, hny]
            · rfl
            intro he
            have hxz : x ∈ zs := (mem_cons.mp hx').resolve_left (Ne.symm hzx)
            rcases hcz.prev_mem hxz he with hm | hm
            · exact hyn (mem_cons_of_mem _ hm)
            · exact hyn (by simp [some.inj hm])

theorem Chain.head_erase [DecidableEq κ] (h : Chain prev next none xs)
    (hx : x ∈ xs) : (xs.erase x).head? = if prev x = none then next x else xs.head? := by
  cases xs with
  | nil => simp at hx
  | cons y xs =>
    by_cases hxy : y = x
    · subst hxy
      rw [erase_cons_head, if_pos h.1, h.2.1]
    · rw [erase_cons_tail (by simpa using hxy), if_neg]
      · rfl
      · intro hp
        exact hxy (some.inj (h.head_of_prev_none hx hp))

section Family
variable {β : Type} {head head' : β → Option κ} {lists : β → List κ} {b : β}

/-- Lists that share their link functions, each with a head; no node is on two of them. -/
structure Family (head : β → Option κ) (prev next : κ → Option κ) (lists : β → List κ) : Prop where
  head : ∀ b, head b = (lists b).head?
  nodup : ∀ b, (lists b).Nodup
  chain : ∀ b, Chain prev next none (lists b)
  apart : ∀ b c x, x ∈ lists b → x ∈ lists c → b = c

theorem Family.congr (h : Family head prev next lists)
    (hlinks : ∀ b, ∀ x ∈ lists b, prev' x = prev x ∧ next' x = next x) :
    Family head prev' next' lists :=
  { h with chain := fun b => (h.chain b).congr (hlinks b) }

variable [DecidableEq β]

theorem mem_update_cons {y : κ} {c : β} :
    y ∈ update lists b (x :: lists b) c ↔ c = b ∧ y = x ∨ y ∈ lists c := by
  obtain rfl | hc := eq_or_ne c b
  · simp
  · simp [hc]

section
variable (h : Family head prev next lists)
include h

theorem Family.push [DecidableEq κ] (hx : ∀ c, x ∉ lists c) (hhead : head' = update head b (some x))
    (hprev : ∀ y, prev' y = if y = x then none else if head b = some y then some x else prev y)
    (hnext : ∀ y, next' y = if y = x then head b else next y) :
    Family head' prev' next' (update lists b (x :: lists b)) := by
  -- a node of another list is neither the new node nor the old head
  have hother : ∀ c, c ≠ b → ∀ y ∈ lists c, y ≠ x ∧ head b ≠ some y := by
    intro c hc y hy
    refine ⟨fun he => hx c (he ▸ hy), fun he => hc ?_⟩
    exact h.apart c b y hy (mem_of_mem_head? (by rw [← h.head, he]; rfl))
  refine ⟨fun c => ?_, fun c => ?_, fun c => ?_, fun c d y hc hd => ?_⟩
  · by_cases hc : c = b
    · subst hc
      simp [hhead]
    · simp [hhead, hc, h.head c]
  · by_cases hc : c = b
    · subst hc
      simp [hx c, h.nodup c]
    · simp [hc, h.nodup c]
  · by_cases hc : c = b
    · subst hc
      rw [update_self]
      have hne : ∀ y ∈ lists c, y ≠ x := fun y hy he => hx c (he ▸ hy)
      refine (h.chain c).push (hx c) (by simp [hprev]) (by simp [hnext, h.head]) (fun y hy => ?_)
        (fun y hy hy' => ?_) (fun y hy => ?_) (h.nodup c)
      · rw [hprev, if_neg (hne y (mem_of_mem_head? hy)), h.head, if_pos hy]
      · rw [hprev, if_neg (hne y hy), h.head, if_neg hy']
      · rw [hnext, if_neg (hne y hy)]
    · rw [update_of_ne hc]
      refine (h.chain c).congr fun y hy => ?_
      obtain ⟨hyx, hyb⟩ := hother c hc y hy
      rw [hprev, if_neg hyx, if_neg hyb, hnext, if_neg hyx]
      exact ⟨rfl, rfl⟩
  · obtain ⟨rfl, rfl⟩ | hc' := mem_update_cons.mp hc
    · obtain ⟨rfl, -⟩ | hd' := mem_update_cons.mp hd
      · rfl
      · exact absurd hd' (hx d)
    · obtain ⟨rfl, rfl⟩ | hd' := mem_update_cons.mp hd
      · exact absurd hc' (hx c)
      · exact h.apart c d y hc' hd'

theorem Family.mem_update_erase [DecidableEq κ] (hx : x ∈ lists b) {y : κ} {c : β} :
    y ∈ update lists b ((lists b).erase x) c ↔ y ≠ x ∧ y ∈ lists c := by
  obtain rfl | hc := eq_or_ne c b
  · rw [update_self, (h.nodup c).mem_erase_iff]
  · rw [update_of_ne hc]
    refine (and_iff_right_of_imp ?_).symm
    rintro hy rfl
    exact hc (h.apart c b y hy hx)

theorem Family.erase [DecidableEq κ] (hx : x ∈ lists b)
    (hhead : head' = update head b (if prev x = none then next x else head b))
    (hprev : ∀ y, y ≠ x → prev' y = if next x = some y then prev x else prev y)
    (hnext : ∀ y, y ≠ x → next' y = if prev x = some y then next x else next y) :
    Family head' prev' next' (update lists b ((lists b).erase x)) := by
  -- the neighbours of the node are on its own list
  have hother : ∀ c, c ≠ b → ∀ y ∈ lists c, y ≠ x ∧ next x ≠ some y ∧ prev x ≠ some y := by
    intro c hc y hy
    refine ⟨fun he => hc (h.apart c b y hy (he ▸ hx)), fun he => hc ?_, fun he => hc ?_⟩
    · exact h.apart c b y hy ((h.chain b).next_mem hx he)
    · obtain hm | hm := (h.chain b).prev_mem hx he
      · exact h.apart c b y hy hm
      · cases hm
  refine ⟨fun c => ?_, fun c => ?_, fun c => ?_, fun c d y hc hd => ?_⟩
  · by_cases hc : c = b
    · subst hc
      rw [hhead, update_self, update_self, (h.chain c).head_erase hx, h.head]
    · simp [hhead, hc, h.head c]
  · by_cases hc : c = b
    · subst hc
      rw [update_self]
      exact (h.nodup c).erase x
    · simp [hc, h.nodup c]
  · by_cases hc : c = b
    · subst hc
      rw [update_self]
      exact (h.chain c).erase (h.nodup c) (fun q hq => by cases hq) hx (fun y _ hy => hprev y hy)
        (fun y _ hy => hnext y hy)
    · rw [update_of_ne hc]
      refine (h.chain c).congr fun y hy => ?_
      obtain ⟨hyx, hyn, hyp⟩ := hother c hc y hy
      rw [hprev y hyx, if_neg hyn, hnext y hyx, if_neg hyp]
      exact ⟨rfl, rfl⟩
  · rw [h.mem_update_erase hx] at hc hd
    exact h.apart c d y hc.2 hd.2

end

end Family
end Roanix.Lib
