import Roanix.Lib.Word

/-! Computations of which only the returned value matters: they never stop, and what they return
satisfies a condition. And those of which only the state matters: they leave it within an invariant.
-/
namespace Roanix.Lib.Act
variable {ε π σ α β : Type}

def Safe (m : Act ε π σ α) (Q : α → Prop) : Prop :=
  ∀ s, wp (fun _ => False) m (fun a _ => Q a) (fun _ _ => True) s

variable {m : Act ε π σ α} {f : α → Act ε π σ β} {P Q : α → Prop} {R : β → Prop}

theorem Safe.bind (hm : Safe m P) (hf : ∀ a, P a → Safe (f a) R) : Safe (m >>= f) R := by
  intro s
  rw [wp_bind]
  exact wp_post (hm s) (fun a s' ha => hf a ha s')

theorem Safe.mono (hm : Safe m P) (h : ∀ a, P a → Q a) : Safe m Q := fun s =>
  wp_post (hm s) (fun a _ ha => h a ha)

theorem safe_pure {a : α} (h : Q a) : Safe (pure a : Act ε π σ α) Q := fun _ => h

theorem safe_ensure (p : Prop) [Decidable p] (e : ε) :
    Safe (ensure p e : Act ε π σ Unit) fun _ => p :=
  fun _ => wp_ensure (fun h => h) fun _ => trivial

theorem safe_okOr (o : Option α) (e : ε) : Safe (okOr o e : Act ε π σ α) fun a => o = some a :=
  fun _ => wp_okOr (fun _ h => h) fun _ => trivial

theorem safe_check {p : Prop} [Decidable p] (h : p) (r : π) :
    Safe (check p r : Act ε π σ Unit) fun _ => True := by
  intro s
  rw [wp_check h]
  trivial

theorem safe_checked (width n : ℕ) (e : ε) :
    Safe (okOr (checked width n) e : Act ε π σ ℕ) fun k => k = n ∧ n < 2 ^ width :=
  (safe_okOr _ e).mono fun _ h => checked_eq_some.mp h

theorem safe_add {width a b : ℕ} (h : a + b < 2 ^ width) (r : π) :
    Safe (add width r a b : Act ε π σ ℕ) fun k => k = a + b := by
  intro s
  rw [wp_add h]

theorem safe_sub {a b : ℕ} (h : b ≤ a) (r : π) :
    Safe (sub r a b : Act ε π σ ℕ) fun k => k = a - b := by
  intro s
  rw [wp_sub h]

theorem safe_mul {width a b : ℕ} (h : a * b < 2 ^ width) (r : π) :
    Safe (mul width r a b : Act ε π σ ℕ) fun k => k = a * b := by
  intro s
  rw [wp_mul h]

variable {ε' : Type} {T : π → Prop} {I : σ → Prop}

/-- Wherever the computation ends, an invariant holds that held before. -/
def Stable (T : π → Prop) (I : σ → Prop) (m : Act ε π σ α) : Prop :=
  ∀ s, I s → wp T m (fun _ => I) (fun _ => I) s

theorem Stable.bind (hm : Stable T I m) (hf : ∀ a, Stable T I (f a)) : Stable T I (m >>= f) := by
  intro s h
  rw [wp_bind]
  exact wp_post (hm s h) fun a s' h' => hf a s' h'

theorem Stable.attempt (hm : Stable T I m) : Stable T I (attempt m : Act ε' π σ (Except ε α)) := by
  intro s h
  rw [wp_attempt]
  exact hm s h

theorem stable_pure (a : α) : Stable T I (pure a : Act ε π σ α) := fun _ h => h

theorem stable_get : Stable T I (get : Act ε π σ σ) := fun _ h => h

theorem stable_fail (e : ε) : Stable T I (fail e : Act ε π σ α) := fun _ h => h

theorem stable_stop {r : π} (h : T r) : Stable T I (stop r : Act ε π σ α) := fun _ _ => h

theorem stable_check {p : Prop} [Decidable p] {r : π} (h : T r) :
    Stable T I (check p r : Act ε π σ Unit) := fun _ hs => wp_check_or (fun _ => hs) fun _ => h

theorem stable_modify {g : σ → σ} (h : ∀ s, I s → I (g s)) :
    Stable T I (modify g : Act ε π σ Unit) := h

end Roanix.Lib.Act
