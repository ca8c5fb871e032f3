/-!
# Calculations that may stop without an answer

Every calculation of the library runs in {lit}`Calc`: it either yields its result or stops with a
{lit}`Fault`.  A fault is not a verdict about a linear program; it says that the calculation itself
could not go on, because an index lay beyond the stored data, because an exact result did not fit
the arithmetic in use, or because the step budget of a method was used up.

Main results:

- Theorem {lit}`Calc.fetch_eq_ok_iff`: a look-up succeeds exactly on stored entries.
- Theorem {lit}`Calc.bind_eq_ok`: a composed calculation succeeds exactly when both parts do.
-/

namespace ExactSimplex

/-- Why a calculation stops without an answer. -/
inductive Fault where
  /-- An index lies beyond the stored data. -/
  | outOfRange
  /-- An exact result does not fit the arithmetic in use. -/
  | overflow (exact : Int)
  /-- A method used up its step budget before it ended. -/
  | budgetSpent
  deriving Repr, DecidableEq

/-- A calculation that yields a result or stops with a fault. -/
abbrev Calc := Except Fault

namespace Calc

/-- The entry found by a look-up; a missing entry is an index out of range. -/
def fetch {α : Type} : Option α → Calc α
  | some a => .ok a
  | none => .error .outOfRange

@[simp]
theorem fetch_some {α : Type} (a : α) : fetch (some a) = .ok a :=
  rfl

@[simp]
theorem fetch_none {α : Type} : fetch (none : Option α) = .error .outOfRange :=
  rfl

/-- A look-up succeeds exactly on stored entries. -/
theorem fetch_eq_ok_iff {α : Type} {found : Option α} {a : α} :
    fetch found = .ok a ↔ found = some a := by
  cases found <;> simp [fetch]

/-- A composed calculation yields a result exactly when both of its parts do. -/
theorem bind_eq_ok {α β : Type} {first : Calc α} {next : α → Calc β} {b : β} :
    (first >>= next) = .ok b ↔ ∃ a, first = .ok a ∧ next a = .ok b := by
  cases first <;> simp [bind, Except.bind]

theorem pure_eq_ok {α : Type} {a b : α} : (pure a : Calc α) = .ok b ↔ a = b := by
  simp [pure, Except.pure]

end Calc

/-! ## Searching a range of indices -/

/-- The first of `count` indices from `start` on that passes `test`, tried in increasing order. -/
def firstIndex (test : Nat → Calc Bool) : (start count : Nat) → Calc (Option Nat)
  | _, 0 => pure none
  | start, count + 1 => do
      if ← test start then pure (some start) else firstIndex test (start + 1) count

/-- Whether all of `count` indices from `start` on pass `test`; the first failure decides. -/
def allIndices (test : Nat → Calc Bool) : (start count : Nat) → Calc Bool
  | _, 0 => pure true
  | start, count + 1 => do
      if ← test start then allIndices test (start + 1) count else pure false

@[simp]
theorem firstIndex_zero (test : Nat → Calc Bool) (start : Nat) :
    firstIndex test start 0 = .ok none :=
  rfl

/-- The search tries the first index, then the others. -/
theorem firstIndex_succ (test : Nat → Calc Bool) (start count : Nat) :
    firstIndex test start (count + 1) =
      (do if ← test start then pure (some start) else firstIndex test (start + 1) count) :=
  rfl

@[simp]
theorem allIndices_zero (test : Nat → Calc Bool) (start : Nat) :
    allIndices test start 0 = .ok true :=
  rfl

/-- A range passes if its first index does and then the others do. -/
theorem allIndices_succ (test : Nat → Calc Bool) (start count : Nat) :
    allIndices test start (count + 1) =
      (do if ← test start then allIndices test (start + 1) count else pure false) :=
  rfl

end ExactSimplex
