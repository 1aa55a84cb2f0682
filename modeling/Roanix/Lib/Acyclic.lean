import Mathlib.Logic.Relation

/-! Relations without a cycle: one edge more makes none if its end does not lead back to its start,
and a closed set around the end shows that it does not. -/
namespace Roanix.Lib
open Relation

variable {α : Type} {r r' : α → α → Prop} {a b c p : α}

def Acyclic (r : α → α → Prop) : Prop := ∀ a, ¬ TransGen r a a

theorem Acyclic.mono (h : Acyclic r) (hr : ∀ a b, r' a b → r a b) : Acyclic r' :=
  fun a ha => h a (TransGen.mono hr a a ha)

theorem ReflTransGen.mem_of_closed {S : α → Prop} (hS : ∀ a b, S a → r a b → S b) (ha : S a)
    (h : ReflTransGen r a b) : S b := by
  induction h with
  | refl => exact ha
  | tail _ hbc ih => exact hS _ _ ih hbc

/-- A walk through a new edge comes from before its start and goes on after its end. -/
theorem transGen_insert (hr : ∀ a b, r' a b → r a b ∨ a = c ∧ b = p) (h : TransGen r' a b) :
    TransGen r a b ∨ ReflTransGen r a c ∧ ReflTransGen r p b := by
  induction h with
  | single h =>
    obtain h | ⟨rfl, rfl⟩ := hr _ _ h
    · exact .inl (.single h)
    · exact .inr ⟨.refl, .refl⟩
  | tail _ h ih =>
    obtain h | ⟨rfl, rfl⟩ := hr _ _ h
    · exact ih.imp (·.tail h) (fun hw => ⟨hw.1, hw.2.tail h⟩)
    · exact .inr ⟨ih.elim TransGen.to_reflTransGen And.left, .refl⟩

theorem Acyclic.insert (h : Acyclic r) (hr : ∀ a b, r' a b → r a b ∨ a = c ∧ b = p)
    (hback : ¬ ReflTransGen r p c) : Acyclic r' := by
  intro a ha
  obtain ha | ⟨hac, hpa⟩ := transGen_insert hr ha
  · exact h a ha
  · exact hback (hpa.trans hac)

end Roanix.Lib
