import Mathlib.Logic.Basic
import Mathlib.Tactic.SplitIfs

/-! Stateful computations that return, fail or stop. A failure keeps the state reached so
far, as an early return does; a stop is a failed internal assertion and keeps nothing. `wp`
gives the weakest precondition, so that one rule per operation composes whole programs. -/
namespace Roanix.Lib

inductive Outcome (ε π σ α : Type) where
  | ok (value : α) (state : σ)
  | err (error : ε) (state : σ)
  | panic (reason : π)
deriving DecidableEq, Repr

def Act (ε π σ α : Type) : Type := σ → Outcome ε π σ α

namespace Act
variable {ε ε' π σ τ α β : Type}
variable {m : Act ε π σ α} {f : α → Act ε π σ β} {s' : σ} {a : α} {e : ε} {r : π} {p : Prop}
  {T' : π → Prop}

instance : Monad (Act ε π σ) where
  pure a := fun s => .ok a s
  bind m f := fun s =>
    match m s with
    | .ok a s' => f a s'
    | .err e s' => .err e s'
    | .panic r => .panic r

def get : Act ε π σ σ := fun s => .ok s s

def set (s : σ) : Act ε π σ Unit := fun _ => .ok () s

def modify (f : σ → σ) : Act ε π σ Unit := fun s => .ok () (f s)

def fail (e : ε) : Act ε π σ α := fun s => .err e s

def stop (r : π) : Act ε π σ α := fun _ => .panic r

def check (p : Prop) [Decidable p] (r : π) : Act ε π σ Unit :=
  if p then pure () else stop r

def ensure (p : Prop) [Decidable p] (e : ε) : Act ε π σ Unit :=
  if p then pure () else fail e

def okOr (o : Option α) (e : ε) : Act ε π σ α :=
  match o with
  | some a => pure a
  | none => fail e

/-- Inspect a result instead of propagating its failure. -/
def attempt (m : Act ε π σ α) : Act ε' π σ (Except ε α) := fun s =>
  match m s with
  | .ok a s' => .ok (.ok a) s'
  | .err e s' => .ok (.error e) s'
  | .panic r => .panic r

def mapErr (f : ε → ε') (m : Act ε π σ α) : Act ε' π σ α := fun s =>
  match m s with
  | .ok a s' => .ok a s'
  | .err e s' => .err (f e) s'
  | .panic r => .panic r

/-- Run a computation on one part of a larger state. -/
def zoom (view : σ → τ) (put : τ → σ → σ) (m : Act ε π τ α) : Act ε π σ α := fun s =>
  match m (view s) with
  | .ok a t => .ok a (put t s)
  | .err e t => .err e (put t s)
  | .panic r => .panic r

/-- Weakest precondition: `Q` after a return, `E` after a failure, and only stops in `T`. -/
def wp (T : π → Prop) (m : Act ε π σ α) (Q : α → σ → Prop) (E : ε → σ → Prop) (s : σ) : Prop :=
  match m s with
  | .ok a s' => Q a s'
  | .err e s' => E e s'
  | .panic r => T r

theorem bind_ok {s : σ} (h : m s = .ok a s') : (m >>= f) s = f a s' := by
  simp only [bind, h]

theorem bind_err {s : σ} (h : m s = .err e s') : (m >>= f) s = .err e s' := by
  simp only [bind, h]

theorem bind_panic {s : σ} (h : m s = .panic r) : (m >>= f) s = .panic r := by
  simp only [bind, h]

theorem get_ok (s : σ) : (get : Act ε π σ σ) s = .ok s s := rfl

theorem set_ok (t s : σ) : (set t : Act ε π σ Unit) s = .ok () t := rfl

theorem okOr_some (a : α) (e : ε) (s : σ) : (okOr (some a) e : Act ε π σ α) s = .ok a s := rfl

theorem ensure_ok [Decidable p] (hp : p) (e : ε) (s : σ) :
    (ensure p e : Act ε π σ Unit) s = .ok () s := by
  rw [ensure, if_pos hp]
  rfl

theorem ensure_err [Decidable p] (hp : ¬ p) (e : ε) (s : σ) :
    (ensure p e : Act ε π σ Unit) s = .err e s := by
  rw [ensure, if_neg hp]
  rfl

/-- The state after a return or a failure. -/
def Leaves (m : Act ε π σ α) (s s' : σ) : Prop := (∃ a, m s = .ok a s') ∨ ∃ e, m s = .err e s'

section Rules
variable {T : π → Prop} {Q Q' : α → σ → Prop} {R : β → σ → Prop} {E E' : ε → σ → Prop} {s : σ}

@[simp] theorem wp_pure (a : α) : wp T (pure a : Act ε π σ α) Q E s = Q a s := rfl

@[simp] theorem wp_bind (m : Act ε π σ α) (f : α → Act ε π σ β) :
    wp T (m >>= f) R E s = wp T m (fun a s' => wp T (f a) R E s') E s := by
  simp only [wp, bind]
  cases m s <;> rfl

@[simp] theorem wp_map (f : α → β) (m : Act ε π σ α) :
    wp T (f <$> m) R E s = wp T m (fun a s' => R (f a) s') E s :=
  wp_bind m (fun a => pure (f a))

@[simp] theorem wp_get (Q : σ → σ → Prop) : wp T (get : Act ε π σ σ) Q E s = Q s s := rfl

@[simp] theorem wp_set (t : σ) (Q : Unit → σ → Prop) :
    wp T (set t : Act ε π σ Unit) Q E s = Q () t := rfl

@[simp] theorem wp_modify (f : σ → σ) (Q : Unit → σ → Prop) :
    wp T (modify f : Act ε π σ Unit) Q E s = Q () (f s) := rfl

@[simp] theorem wp_fail (e : ε) : wp T (fail e : Act ε π σ α) Q E s = E e s := rfl

@[simp] theorem wp_stop (r : π) : wp T (stop r : Act ε π σ α) Q E s = T r := rfl

theorem wp_ite (p : Prop) [Decidable p] (m n : Act ε π σ α) :
    wp T (if p then m else n) Q E s = if p then wp T m Q E s else wp T n Q E s := by
  split <;> rfl

theorem wp_ite_bind (p : Prop) [Decidable p] (m n : Act ε π σ α) (f : α → Act ε π σ β) :
    wp T (if p then m >>= f else n >>= f) R E s =
      wp T (if p then m else n) (fun a s' => wp T (f a) R E s') E s := by
  split <;> exact wp_bind _ f

theorem wp_check [Decidable p] (hp : p) (r : π) (Q : Unit → σ → Prop) :
    wp T (check p r : Act ε π σ Unit) Q E s = Q () s := by
  simp [check, hp]

theorem wp_check_or [Decidable p] {Q : Unit → σ → Prop} (hQ : p → Q () s) (hT : ¬ p → T r) :
    wp T (check p r : Act ε π σ Unit) Q E s := by
  unfold check
  split_ifs with hp
  · exact hQ hp
  · exact hT hp

theorem wp_ensure [Decidable p] {Q : Unit → σ → Prop} (hQ : p → Q () s) (hE : ¬ p → E e s) :
    wp T (ensure p e : Act ε π σ Unit) Q E s := by
  unfold ensure
  split_ifs with hp
  · exact hQ hp
  · exact hE hp

theorem wp_ensure_pos [Decidable p] (hp : p) (e : ε) (Q : Unit → σ → Prop) :
    wp T (ensure p e : Act ε π σ Unit) Q E s = Q () s := by
  simp [ensure, hp]

theorem wp_okOr {o : Option α} (hQ : ∀ a, o = some a → Q a s) (hE : o = none → E e s) :
    wp T (okOr o e : Act ε π σ α) Q E s := by
  cases o with
  | none => exact hE rfl
  | some a => exact hQ a rfl

@[simp] theorem wp_attempt (m : Act ε π σ α) (Q : Except ε α → σ → Prop) (E : ε' → σ → Prop) :
    wp T (attempt m) Q E s =
      wp T m (fun a s' => Q (.ok a) s') (fun e s' => Q (.error e) s') s := by
  simp only [wp, attempt]
  cases m s <;> rfl

@[simp] theorem wp_mapErr (f : ε → ε') (m : Act ε π σ α) (E : ε' → σ → Prop) :
    wp T (mapErr f m) Q E s = wp T m Q (fun e s' => E (f e) s') s := by
  simp only [wp, mapErr]
  cases m s <;> rfl

@[simp] theorem wp_zoom (view : σ → τ) (put : τ → σ → σ) (m : Act ε π τ α) :
    wp T (zoom view put m) Q E s =
      wp T m (fun a t => Q a (put t s)) (fun e t => E e (put t s)) (view s) := by
  simp only [wp, zoom]
  cases m (view s) <;> rfl

section
variable (h : wp T m Q E s)
include h

theorem wp_and (h' : wp T' m Q' E' s) :
    wp T m (fun a s' => Q a s' ∧ Q' a s') (fun e s' => E e s' ∧ E' e s') s := by
  unfold wp at *
  split at h <;> simp_all only [and_self]

theorem wp_mono (hT : ∀ r, T r → T' r) (hQ : ∀ a s', Q a s' → Q' a s')
    (hE : ∀ e s', E e s' → E' e s') : wp T' m Q' E' s := by
  unfold wp at *
  split at h
  · exact hQ _ _ h
  · exact hE _ _ h
  · exact hT _ h

theorem wp_imp (hQ : ∀ a s', Q a s' → Q' a s') (hE : ∀ e s', E e s' → E' e s') :
    wp T m Q' E' s :=
  wp_mono h (fun _ h => h) hQ hE

theorem wp_post (hQ : ∀ a s', Q a s' → Q' a s') : wp T m Q' E s :=
  wp_imp h hQ fun _ _ h => h

theorem wp_ok (hm : m s = .ok a s') : Q a s' := by
  simpa only [wp, hm] using h

theorem wp_err (hm : m s = .err e s') : E e s' := by
  simpa only [wp, hm] using h

theorem wp_panic (hm : m s = .panic r) : T r := by
  simpa only [wp, hm] using h

theorem wp_leaves (hm : m.Leaves s s') (hQ : ∀ a, Q a s' → p) (hE : ∀ e, E e s' → p) : p := by
  rcases hm with ⟨a, hm⟩ | ⟨e, hm⟩
  · exact hQ a (wp_ok h hm)
  · exact hE e (wp_err h hm)

end

theorem wp_returns (h : wp (fun _ => False) m Q (fun _ _ => False) s) :
    ∃ a s', m s = .ok a s' ∧ Q a s' := by
  unfold wp at h
  split at h
  · exact ⟨_, _, ‹_›, h⟩
  · exact h.elim
  · exact h.elim

end Rules

end Act
end Roanix.Lib
