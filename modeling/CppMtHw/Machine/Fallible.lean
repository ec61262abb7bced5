import Mathlib.Init

/-!
# Computations that may fail

A sequence of fallible steps succeeds when every step does. The inversion below
takes such a sequence apart, one step at a time. Two computations agree if they fail
together, or succeed with related results; sequences agree when their steps do.
-/

namespace CppMtHw.Machine

universe u v

/-- Two steps that succeed together succeed one after the other. -/
theorem ok_of_bind {ε : Type u} {α β : Type v} {x : Except ε α} {f : α → Except ε β} {b : β}
    (h : (x >>= f) = .ok b) : ∃ a, x = .ok a ∧ f a = .ok b := by
  cases hx : x with
  | error err =>
      rw [hx] at h
      cases h
  | ok a =>
      rw [hx] at h
      exact ⟨a, rfl, h⟩

theorem ok_of_toOption {ε : Type u} {α : Type v} {x : Except ε α} {a : α}
    (h : x.toOption = some a) : x = .ok a := by
  cases x with
  | error err => cases h
  | ok b => rw [Option.some.inj h]

/-- Of two steps the first fails, or the second after the first has succeeded. -/
theorem error_of_bind {ε : Type u} {α β : Type v} {x : Except ε α} {f : α → Except ε β} {err : ε}
    (h : (x >>= f) = .error err) : x = .error err ∨ ∃ a, x = .ok a ∧ f a = .error err := by
  cases hx : x with
  | error err' =>
      rw [hx] at h
      cases h
      exact Or.inl rfl
  | ok a =>
      rw [hx] at h
      exact Or.inr ⟨a, rfl, h⟩

/-- A step after which nothing can fail. -/
theorem error_of_bind_ok {ε : Type u} {α β : Type v} {x : Except ε α} {f : α → β} {err : ε}
    (h : (x >>= fun a ↦ Except.ok (f a)) = .error err) : x = .error err := by
  rcases error_of_bind h with hx | ⟨a, -, hok⟩
  · exact hx
  · cases hok

@[simp] theorem ok_bind {ε : Type u} {α β : Type v} (a : α) (f : α → Except ε β) :
    (Except.ok a >>= f) = f a := rfl

/-- Two computations that fail together, or succeed with related results. -/
inductive Agree {ε : Type u} {α β : Type v} (rel : α → β → Prop) : Except ε α → Except ε β → Prop
  | ok {a : α} {b : β} (h : rel a b) : Agree rel (.ok a) (.ok b)
  | error {err err' : ε} : Agree rel (.error err) (.error err')

section

variable {ε : Type u} {α β α' β' : Type v} {rel : α → β → Prop} {rel' : α' → β' → Prop}
  {x : Except ε α} {y : Except ε β} {f : α → Except ε α'} {g : β → Except ε β'}

theorem Agree.bind (h : Agree rel x y) (hnext : ∀ a b, rel a b → Agree rel' (f a) (g b)) :
    Agree rel' (x >>= f) (y >>= g) := by
  cases h with
  | ok h => exact hnext _ _ h
  | error => exact Agree.error

theorem Agree.mono {rel₁ : α → β → Prop} (h : Agree rel x y) (hmono : ∀ a b, rel a b → rel₁ a b) :
    Agree rel₁ x y := by
  cases h with
  | ok h => exact Agree.ok (hmono _ _ h)
  | error => exact Agree.error

theorem Agree.of_ok_left {a : α} (h : Agree rel (.ok a) y) : ∃ b, y = .ok b ∧ rel a b := by
  cases h with
  | ok h => exact ⟨_, rfl, h⟩

theorem Agree.trans {γ : Type v} {rel₁ : β → γ → Prop} {z : Except ε γ} (h : Agree rel x y)
    (h₁ : Agree rel₁ y z) : Agree (fun a c ↦ ∃ b, rel a b ∧ rel₁ b c) x z := by
  cases h with
  | ok h =>
      obtain ⟨c, rfl, hc⟩ := h₁.of_ok_left
      exact Agree.ok ⟨_, h, hc⟩
  | error =>
      cases h₁ with
      | error => exact Agree.error

theorem Agree.of_ok_right {b : β} (h : Agree rel x (.ok b)) : ∃ a, x = .ok a ∧ rel a b := by
  cases h with
  | ok h => exact ⟨_, rfl, h⟩

end

end CppMtHw.Machine
