import CobsIoAsync.Reasoning.Exec

/-!
# Both — two programs side by side

`Both rel x y` runs two computations next to each other: they panic together, or return values that
are related.  The rules below follow the computations, so that neither is taken apart.
-/

namespace CobsIoAsync.Reasoning

/-- Two computations panic together, or return values that are related. -/
inductive Both {α β : Type} (rel : α → β → Prop) : Exec α → Exec β → Prop
  | panic : Both rel none none
  | ret {a : α} {b : β} (h : rel a b) : Both rel (some a) (some b)

namespace Both

variable {α β γ δ : Type} {x : Exec α} {y : Exec β} {P : α → β → Prop} {Q : γ → δ → Prop}

theorem bind {f : α → Exec γ} {g : β → Exec δ} (hx : Both P x y)
    (hf : ∀ a b, P a b → Both Q (f a) (g b)) : Both Q (x.bind f) (y.bind g) := by
  cases hx with
  | panic => exact .panic
  | ret h => exact hf _ _ h

/-- Both sides make the same computation first. -/
theorem bind_same {f : α → Exec γ} {g : α → Exec δ} (hf : ∀ a, Both Q (f a) (g a)) :
    Both Q (x.bind f) (x.bind g) := by
  cases x with
  | none => exact .panic
  | some a => exact hf a

/-- One side goes on alone, to a value. -/
theorem bind_left {f : α → Exec γ} {Q : γ → β → Prop} (hx : Both P x y)
    (hf : ∀ a b, P a b → ∃ c, f a = some c ∧ Q c b) : Both Q (x.bind f) y := by
  cases hx with
  | panic => exact .panic
  | ret h =>
      obtain ⟨c, hc, hq⟩ := hf _ _ h
      rw [Option.bind_some, hc]
      exact .ret hq

theorem bind_right {g : β → Exec δ} {Q : α → δ → Prop} (hx : Both P x y)
    (hg : ∀ a b, P a b → ∃ d, g b = some d ∧ Q a d) : Both Q x (y.bind g) := by
  cases hx with
  | panic => exact .panic
  | ret h =>
      obtain ⟨d, hd, hq⟩ := hg _ _ h
      rw [Option.bind_some, hd]
      exact .ret hq

theorem returns {a : α} (h : Both P (some a) y) : ∃ b, y = some b ∧ P a b := by
  cases h with
  | ret h => exact ⟨_, rfl, h⟩

end Both

end CobsIoAsync.Reasoning
