import Mathlib.Data.List.Basic
import Mathlib.Tactic.Common

/-!
# Exec — programs that may panic

A Rust computation either produces a value or panics; `Exec` is the option of the two, with the
checked arithmetic and slice indexing that can panic.  `Returns x post` is total correctness:
`x` does not panic and its value satisfies `post`.  Proofs about a program go through the rules
below and never through the shape of the option.
-/

namespace CobsIoAsync.Reasoning

/-- A computation that may panic (an index out of range, a failed `expect`, an overflow) or, when
it is a loop with fuel, run out of it; either is `none`. -/
abbrev Exec (α : Type) := Option α

/-- The width of `usize` on the compilation target; Rust guarantees at least 16 bits. -/
class Target where
  usizeMax : Nat
  sixteen_bits : 65535 ≤ usizeMax

/-- The largest `u8`, `u32` and `u64`. -/
def u8Max : Nat := 255
def u32Max : Nat := 4294967295
def u64Max : Nat := 18446744073709551615

/-- A 64-bit machine. -/
abbrev target64 : Target := ⟨u64Max, by decide⟩

/-- `a + b` in a type whose largest value is `max`. -/
def checkedAdd (max a b : Nat) : Exec Nat :=
  if a + b ≤ max then some (a + b) else none

/-- `a - b` in an unsigned type. -/
def checkedSub (a b : Nat) : Exec Nat :=
  if b ≤ a then some (a - b) else none

/-- `xs[i..j]`. -/
def slice {α : Type} (xs : List α) (i j : Nat) : Exec (List α) :=
  if i ≤ j ∧ j ≤ xs.length then some ((xs.take j).drop i) else none

/-- `x` returns, and what it returns satisfies `post`. -/
def Returns {α : Type} (x : Exec α) (post : α → Prop) : Prop :=
  ∃ a, x = some a ∧ post a

namespace Returns

variable {α β : Type} {x : Exec α} {P Q : α → Prop}

theorem ret {a : α} (h : P a) : Returns (some a) P := ⟨a, rfl, h⟩

theorem bind {f : α → Exec β} {R : β → Prop} (hx : Returns x P)
    (hf : ∀ a, P a → Returns (f a) R) : Returns (x.bind f) R := by
  obtain ⟨a, rfl, ha⟩ := hx
  exact hf a ha

theorem mono (hx : Returns x P) (h : ∀ a, P a → Q a) : Returns x Q := by
  obtain ⟨a, rfl, ha⟩ := hx
  exact ⟨a, rfl, h a ha⟩

/-- A computation returns one value only. -/
theorem post (hx : Returns x P) {a : α} (ha : x = some a) : P a := by
  obtain ⟨b, rfl, hb⟩ := hx
  exact Option.some.inj ha ▸ hb

theorem isSome (hx : Returns x P) : x.isSome := by
  obtain ⟨a, rfl, -⟩ := hx
  rfl

/-- What a computation returns. -/
def get (hx : Returns x P) : α := x.get hx.isSome

theorem get_post (hx : Returns x P) : P hx.get := hx.post (Option.some_get hx.isSome).symm

end Returns

theorem checkedAdd_eq {max a b : Nat} (h : a + b ≤ max) : checkedAdd max a b = some (a + b) :=
  if_pos h

theorem checkedSub_eq {a b : Nat} (h : b ≤ a) : checkedSub a b = some (a - b) := if_pos h

theorem slice_eq {α : Type} {xs : List α} {i j : Nat} (hij : i ≤ j) (hj : j ≤ xs.length) :
    slice xs i j = some ((xs.take j).drop i) :=
  if_pos ⟨hij, hj⟩

theorem slice_zero {α : Type} {xs : List α} {j : Nat} (hj : j ≤ xs.length) :
    slice xs 0 j = some (xs.take j) := by
  rw [slice_eq (Nat.zero_le j) hj, List.drop_zero]

/-- The same equations in the form the rule for `bind` uses. -/
theorem checkedAdd_returns {max a b : Nat} (h : a + b ≤ max) :
    Returns (checkedAdd max a b) (· = a + b) :=
  ⟨_, checkedAdd_eq h, rfl⟩

theorem checkedSub_returns {a b : Nat} (h : b ≤ a) : Returns (checkedSub a b) (· = a - b) :=
  ⟨_, checkedSub_eq h, rfl⟩

theorem slice_returns {α : Type} {xs : List α} {i j : Nat} (hij : i ≤ j) (hj : j ≤ xs.length) :
    Returns (slice xs i j) (· = (xs.take j).drop i) :=
  ⟨_, slice_eq hij hj, rfl⟩

theorem slice_zero_returns {α : Type} {xs : List α} {j : Nat} (hj : j ≤ xs.length) :
    Returns (slice xs 0 j) (· = xs.take j) :=
  ⟨_, slice_zero hj, rfl⟩

end CobsIoAsync.Reasoning
