import Mathlib

/-!
# Computations of two monads that run alike

A `Likeness` of two monads relates computations that return the same value, one for which a
postcondition holds, and it is kept by `pure` and `bind`. A program that is generic in its monad and
takes its effects as arguments is then related to itself as soon as its arguments are.
-/

structure Likeness (m m' : Type → Type) [Monad m] [Monad m'] where
  /-- `x` and `x'` run alike and what they return satisfies `p`. -/
  rel : {α : Type} → (α → Prop) → m α → m' α → Prop
  mono : ∀ {α : Type} {p q : α → Prop} {x : m α} {x' : m' α}, rel p x x' → (∀ a, p a → q a) → rel q x x'
  pure : ∀ {α : Type} {p : α → Prop} {a : α}, p a → rel p (pure a) (pure a)
  bind : ∀ {α β : Type} {p : α → Prop} {q : β → Prop} {x : m α} {x' : m' α} {f : α → m β} {f' : α → m' β},
    rel p x x' → (∀ a, p a → rel q (f a) (f' a)) → rel q (x >>= f) (x' >>= f')

namespace Likeness

/-- A program and itself, for a postcondition of a pure one. -/
def ofId : Likeness Id Id where
  rel p x x' := x = x' ∧ p x
  mono h hpq := ⟨h.1, hpq _ h.2⟩
  pure h := ⟨rfl, h⟩
  bind := by
    rintro α β p q x x' f f' ⟨rfl, hx⟩ hf
    exact hf x hx

/-- A program without effects and one that may stop, but does not. -/
def ofOption : Likeness Id Option where
  rel p x y := y = some x ∧ p x
  mono h hpq := ⟨h.1, hpq _ h.2⟩
  pure h := ⟨rfl, h⟩
  bind := by
    rintro α β p q x y f g ⟨rfl, hx⟩ hf
    exact hf x hx

theorem map {m : Type → Type} [Monad m] (R : Likeness Id m) {α β : Type} {p : α → Prop} {q : β → Prop}
    {x : Id α} {x' : m α} (h : R.rel p x x') (f : α → β) (hf : ∀ a, p a → q (f a)) :
    R.rel q (f x) (x' >>= fun a => Pure.pure (f a)) :=
  R.bind (f := fun a => (Pure.pure (f a) : Id β)) h fun a ha => R.pure (hf a ha)

end Likeness
