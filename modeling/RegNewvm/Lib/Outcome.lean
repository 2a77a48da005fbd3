import Mathlib.Data.Nat.Notation

/-!
# How a computation ends

`Ends P E x`: what `x` returns satisfies `P`, and the error that it fails with satisfies `E`.
`Cut E x y`: `x` ends as `y` does, or it fails, with an error that satisfies `E`.  The rules follow
the structure of a computation.
-/

namespace Outcome

variable {ε α β : Type} {P : α → Prop} {Q : β → Prop} {E : ε → Prop} {x y : Except ε α}
  {f g : α → Except ε β}

/-- Whatever `x` returns satisfies `P`, and whatever it fails with satisfies `E`. -/
def Ends (P : α → Prop) (E : ε → Prop) : Except ε α → Prop
  | .ok a => P a
  | .error e => E e

theorem Ends.bind (hx : Ends P E x) (hf : ∀ a, P a → Ends Q E (f a)) : Ends Q E (x >>= f) := by
  cases x with
  | ok a => exact hf a hx
  | error e => exact hx

/-- `x` is `y`, but for an error of `E` that comes first. -/
def Cut (E : ε → Prop) (x y : Except ε α) : Prop := x = y ∨ ∃ e, x = .error e ∧ E e

theorem Cut.refl (E : ε → Prop) (x : Except ε α) : Cut E x x := Or.inl rfl

theorem Cut.bind (hx : Cut E x y) (hf : ∀ a, Cut E (f a) (g a)) : Cut E (x >>= f) (y >>= g) := by
  obtain rfl | ⟨e, rfl, he⟩ := hx
  · cases x with
    | ok a => exact hf a
    | error e => exact Or.inl rfl
  · exact Or.inr ⟨e, rfl, he⟩

end Outcome
