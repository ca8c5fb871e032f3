import ExactSimplex.Proofs.Arithmetic
import Mathlib.Tactic.GCongr

/-!
# Calculations with the same results

One calculation refines another if the second yields every result of the first; where the first stops
with a fault, nothing is said of the second.  Calculations are put together from parts, and the relation
goes through every way of doing so.

Wherever checked arithmetic stores a result, wrapping arithmetic of the same width and exact arithmetic
store the same one.  A calculation that checked arithmetic completes is therefore the same calculation in
all three, however long it is and whatever it branches on.

Main results:

- Theorem {lit}`Calc.Refines.bind`: composed calculations refine each other if their parts do.
- Theorems {lit}`Arithmetic.refines_wrapping` and {lit}`Arithmetic.refines_exact`: what checked
  arithmetic stores is stored by the two others.
- Theorem {lit}`Arithmetic.gcd_checked`: checked arithmetic refuses sums, differences, products and
  negations, but never a greatest common divisor.
-/

namespace ExactSimplex
namespace Calc

/-- The second calculation yields every result of the first. -/
def Refines {α : Type} (c c' : Calc α) : Prop :=
  ∀ a, c = .ok a → c' = .ok a

namespace Refines

variable {α β : Type} {c c' d d' : Calc α}

@[refl]
theorem refl (c : Calc α) : Refines c c := by
  intro a ha
  exact ha

/-- A composed calculation refines part by part. -/
@[gcongr]
theorem bind {f f' : α → Calc β} (h : Refines c c') (hf : ∀ a, Refines (f a) (f' a)) :
    Refines (c >>= f) (c' >>= f') := by
  intro b hb
  rcases bind_eq_ok.mp hb with ⟨a, ha, hb⟩
  exact bind_eq_ok.mpr ⟨a, h a ha, hf a b hb⟩

/-- A function of the value does not matter. -/
@[gcongr]
theorem map {f : α → β} (h : Refines c c') : Refines (f <$> c) (f <$> c') := by
  intro b hb
  rcases map_eq_ok.mp hb with ⟨a, ha, hb⟩
  exact map_eq_ok.mpr ⟨a, h a ha, hb⟩

/-- The same test decides between the alternatives of both calculations. -/
@[gcongr]
theorem ite {p : Prop} [Decidable p] (h : Refines c c') (h' : Refines d d') :
    Refines (if p then c else d) (if p then c' else d') := by
  split
  · exact h
  · exact h'

/-! ## Lists and searches -/

/-- The calculations for the members of a list, by induction on the list. -/
@[gcongr]
theorem mapM {f f' : α → Calc β} (hf : ∀ a, Refines (f a) (f' a)) (l : List α) :
    Refines (l.mapM f) (l.mapM f') := by
  induction l with
  | nil => rfl
  | cons a l ih =>
      rw [List.mapM_cons, List.mapM_cons]
      gcongr
      exact hf a

/-- The tests of a range, by induction on their number; the first failure ends both checks. -/
@[gcongr]
theorem allIndices {test test' : ℕ → Calc Bool} (htest : ∀ i, Refines (test i) (test' i))
    (start count : ℕ) :
    Refines (ExactSimplex.allIndices test start count)
      (ExactSimplex.allIndices test' start count) := by
  induction count generalizing start with
  | zero => rfl
  | succ count ih =>
      rw [allIndices_succ, allIndices_succ]
      gcongr
      · exact htest start
      · exact ih (start + 1)

end Refines
end Calc

namespace Arithmetic

open Calc

/-! ## Arithmetics -/

/-- The second arithmetic stores every result that the first one stores, and it holds every integer that
has to be representable and is so in the first. -/
structure Refines (A A' : Arithmetic) : Prop where
  store : ∀ n, Calc.Refines (A.store n) (A'.store n)
  demand : ∀ n, Calc.Refines (A.demand n) (A'.demand n)

/-- The words of checked arithmetic are words of wrapping arithmetic. -/
theorem holds_wrapping_of_checked {bits : ℕ} {n : ℤ} (h : (checked bits).holds n = true) :
    (wrapping bits).holds n = true := by
  rw [holds_checked_iff] at h
  rw [holds_wrapping_iff]
  omega

/-- An integer of less than half the range of a word is its own two's complement word. -/
theorem bmod_of_holds_checked {bits : ℕ} {n : ℤ} (h : (checked bits).holds n = true) :
    n.bmod (2 ^ bits) = n := by
  rw [holds_checked_iff] at h
  cases bits with
  | zero =>
      -- A word of no bits has only the value zero.
      have hhalf : halfRange 0 = 1 := rfl
      obtain rfl : n = 0 := by omega
      rfl
  | succ bits =>
      have hhalf : halfRange (bits + 1) = 2 ^ bits := rfl
      rw [hhalf] at h
      have hpow : ((2 ^ (bits + 1) : ℕ) : ℤ) = 2 * 2 ^ bits := by
        push_cast
        ring
      exact Int.bmod_eq_of_le_mul_two (by omega) (by omega)

/-- What checked arithmetic stores, wrapping arithmetic of the same width stores. -/
theorem refines_wrapping (bits : ℕ) : (checked bits).Refines (wrapping bits) where
  store n stored h := by
    rcases store_checked_eq_ok h with ⟨rfl, hn⟩
    rw [store_wrapping, bmod_of_holds_checked hn]
  demand n stored h := by
    rcases demand_eq_ok h with ⟨rfl, hn⟩
    exact if_pos (holds_wrapping_of_checked hn)

/-- What checked arithmetic stores is the exact result. -/
theorem refines_exact (bits : ℕ) : (checked bits).Refines exact where
  store n stored h := by
    rw [store_exact, (store_checked_eq_ok h).1]
  demand n stored h := by
    rw [demand_exact, (demand_eq_ok h).1]

/-- A greatest common divisor of integers that checked arithmetic holds is never refused. -/
theorem gcd_checked {bits : ℕ} {a b : ℤ} (ha : (checked bits).holds a = true)
    (hb : (checked bits).holds b = true) : (checked bits).gcd a b = .ok (Int.gcd a b) := by
  refine if_pos ?_
  rw [holds_checked_iff] at *
  rcases eq_or_ne a 0 with rfl | hne
  · rw [Int.gcd_zero_left]
    omega
  · have hle : Int.gcd a b ≤ a.natAbs := Int.gcd_le_natAbs_left b hne
    omega

section Operations

variable {A A' : Arithmetic}

/-- The differences of two arithmetics. -/
@[gcongr]
theorem refines_sub (hA : A.Refines A') (a b : ℤ) : Calc.Refines (A.sub a b) (A'.sub a b) :=
  hA.store (a - b)

/-- The products of two arithmetics. -/
@[gcongr]
theorem refines_mul (hA : A.Refines A') (a b : ℤ) : Calc.Refines (A.mul a b) (A'.mul a b) :=
  hA.store (a * b)

/-- The negations of two arithmetics. -/
@[gcongr]
theorem refines_neg (hA : A.Refines A') (a : ℤ) : Calc.Refines (A.neg a) (A'.neg a) :=
  hA.store (-a)

/-- The greatest common divisors of two arithmetics. -/
@[gcongr]
theorem refines_gcd (hA : A.Refines A') (a b : ℤ) : Calc.Refines (A.gcd a b) (A'.gcd a b) :=
  hA.demand (Int.gcd a b)

end Operations

end Arithmetic
end ExactSimplex
