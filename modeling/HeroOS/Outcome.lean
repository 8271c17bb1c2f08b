import Mathlib

/-! # Outcomes of system code

Code that may stop the machine returns `Except Halt α`: the value, or the reason why no value
is ever returned.  A loop whose termination depends on the data takes a fuel argument, and
running out of it is a halt of its own, so that a result is only ever reported for a loop that
ended by itself.  A read past the end of a buffer has no defined result either. -/

namespace HeroOS

/-- Why a call does not return. -/
inductive Halt where
  | panic (msg : String)
  | outOfFuel
  | overrun
deriving DecidableEq, Repr

/-- The value of a call that does not return is never used. -/
theorem bind_eq_ok {α β : Type} {x : Except Halt α} {f : α → Except Halt β} {b : β} :
    (x >>= f) = .ok b ↔ ∃ a, x = .ok a ∧ f a = .ok b := by
  cases x with
  | error e =>
      constructor
      · intro h
        cases h
      · rintro ⟨a, h, _⟩
        cases h
  | ok a =>
      constructor
      · intro h
        exact ⟨a, rfl, h⟩
      · rintro ⟨a', h, hf⟩
        cases h
        exact hf

/-- A call that returns has not failed. -/
theorem ok_ne_error {α : Type} (a : α) (e : Halt) : (.ok a : Except Halt α) ≠ .error e := by
  intro h
  cases h

/-- A reason for which neither of two calls fails is none for which both together fail. -/
theorem bind_ne_error {α β : Type} {x : Except Halt α} {f : α → Except Halt β} {e : Halt} (hx : x ≠ .error e)
    (hf : ∀ a, x = .ok a → f a ≠ .error e) : (x >>= f) ≠ .error e := by
  cases x with
  | error e' => exact fun h => hx (congrArg Except.error (Except.error.inj h))
  | ok a => exact hf a rfl

/-- The call with outcome `x` ended like the one with outcome `y`, or ran out of fuel before. -/
def Approx {α : Type} (x y : Except Halt α) : Prop := x = .error .outOfFuel ∨ x = y

theorem Approx.refl {α : Type} (x : Except Halt α) : Approx x x := .inr rfl

/-- Less fuel for a call and for what follows it. -/
theorem Approx.bind {α β : Type} {x y : Except Halt α} {f g : α → Except Halt β} (h : Approx x y)
    (hf : ∀ a, Approx (f a) (g a)) : Approx (x >>= f) (y >>= g) := by
  obtain rfl | rfl := h
  · exact .inl rfl
  · cases x with
    | error e => exact .inr rfl
    | ok a => exact hf a

theorem toOption_eq_some {α : Type} {x : Except Halt α} {a : α} : x.toOption = some a ↔ x = .ok a := by
  cases x with
  | error e => simp [Except.toOption]
  | ok b => simp [Except.toOption]

end HeroOS
