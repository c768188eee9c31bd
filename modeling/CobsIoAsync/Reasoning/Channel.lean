import Mathlib.Data.List.Basic
import Mathlib.Tactic.Common

/-!
# Channel — a bounded first-in-first-out channel

A channel holds a sequence of items.  Some are put behind the others while there is room, and some
are got from the front.
-/

namespace CobsIoAsync.Reasoning.Channel

variable {α : Type}

inductive Action (α : Type) where
  | put (xs : List α)
  | get (xs : List α)

/-- What an action puts, and what it gets. -/
def Action.puts : Action α → List α
  | .put xs => xs
  | .get _ => []

def Action.gets : Action α → List α
  | .put _ => []
  | .get xs => xs

/-- An action on the contents of a channel. -/
inductive Step (capacity : Nat) : List α → Action α → List α → Prop
  | put (contents xs : List α) (hroom : contents.length + xs.length ≤ capacity) :
      Step capacity contents (.put xs) (contents ++ xs)
  | get (xs contents : List α) : Step capacity (xs ++ contents) (.get xs) contents

/-- Actions one after the other. -/
inductive Run (capacity : Nat) : List α → List (Action α) → List α → Prop
  | nil (contents : List α) : Run capacity contents [] contents
  | snoc {contents contents' contents'' : List α} {actions : List (Action α)} {action : Action α}
      (h : Run capacity contents actions contents') (hstep : Step capacity contents' action contents'') :
      Run capacity contents (actions ++ [action]) contents''

variable {capacity : Nat} {contents contents' : List α}

theorem Step.conserves {action : Action α} (h : Step capacity contents action contents') :
    contents ++ action.puts = action.gets ++ contents' := by
  cases h with
  | put => rfl
  | get => exact List.append_nil _

theorem Step.bounded {action : Action α} (h : Step capacity contents action contents')
    (hroom : contents.length ≤ capacity) : contents'.length ≤ capacity := by
  cases h with
  | put _ xs hput => rwa [List.length_append]
  | get xs =>
      rw [List.length_append] at hroom
      exact Nat.le_trans (Nat.le_add_left ..) hroom

/-- What was put comes out in its order, and what did not come out is still there. -/
theorem Run.conserves {actions : List (Action α)} (h : Run capacity contents actions contents') :
    contents ++ actions.flatMap Action.puts = actions.flatMap Action.gets ++ contents' := by
  induction h with
  | nil => simp
  | snoc _ hstep ih =>
      rw [List.flatMap_append, List.flatMap_singleton, ← List.append_assoc, ih, List.append_assoc,
        hstep.conserves, List.flatMap_append, List.flatMap_singleton, List.append_assoc]

theorem Run.bounded {actions : List (Action α)} (h : Run capacity contents actions contents')
    (hroom : contents.length ≤ capacity) : contents'.length ≤ capacity := by
  induction h with
  | nil => exact hroom
  | snoc _ hstep ih => exact hstep.bounded ih

end CobsIoAsync.Reasoning.Channel
