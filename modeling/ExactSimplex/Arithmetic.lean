import ExactSimplex.Calc

/-!
# Integer arithmetics

Fractions are built over integers, and an {lit}`Arithmetic` says what becomes of the exact result of
an operation on them.  Exact arithmetic keeps every result.  Wrapping arithmetic stores the two's
complement word of a fixed width that is congruent to the result.  Checked arithmetic refuses a
result whose magnitude reaches half the range of the word, so the least word is refused too.

Integers of every arithmetic are plain values of {lit}`Int`, hence results of different arithmetics
can be compared directly.

Main results:

- Theorem {lit}`Arithmetic.demand_eq_ok`: a demanded integer is held and comes out as it is.
- Theorem {lit}`Arithmetic.store_checked_eq_ok`: checked arithmetic only ever returns exact results.
-/

namespace ExactSimplex

/-- What becomes of the exact result of an integer operation. -/
inductive Arithmetic where
  /-- Every result is kept. -/
  | exact
  /-- Results wrap around in a two's complement word. -/
  | wrapping (bits : Nat)
  /-- Results of a magnitude from half the range of the word on are refused. -/
  | checked (bits : Nat)
  deriving Repr, DecidableEq

namespace Arithmetic

/-- Half the range of a two's complement word. -/
def halfRange (bits : Nat) : Int := Int.pow 2 (bits - 1)

/-- The integers that an arithmetic can hold. -/
def holds : Arithmetic → Int → Bool
  | exact, _ => true
  | wrapping bits, n => decide (-halfRange bits ≤ n) && decide (n < halfRange bits)
  | checked bits, n => decide (-halfRange bits < n) && decide (n < halfRange bits)

/-- An integer that has to be representable as it is. -/
def demand (A : Arithmetic) (n : Int) : Calc Int :=
  if A.holds n then .ok n else .error (.overflow n)

/-- What is stored for an exact result. -/
def store : Arithmetic → Int → Calc Int
  | exact, n => .ok n
  | wrapping bits, n => .ok (n.bmod (Nat.pow 2 bits))
  | checked bits, n => (checked bits).demand n

/-- The stored sum. -/
def add (A : Arithmetic) (a b : Int) : Calc Int := A.store (a + b)

/-- The stored difference. -/
def sub (A : Arithmetic) (a b : Int) : Calc Int := A.store (a - b)

/-- The stored product. -/
def mul (A : Arithmetic) (a b : Int) : Calc Int := A.store (a * b)

/-- The stored negation. -/
def neg (A : Arithmetic) (a : Int) : Calc Int := A.store (-a)

/-- The greatest common divisor.  Two least words have one that their own width cannot hold. -/
def gcd (A : Arithmetic) (a b : Int) : Calc Int := A.demand (Int.gcd a b)

/-- Exact arithmetic holds every integer that is demanded. -/
@[simp]
theorem demand_exact (n : Int) : exact.demand n = .ok n :=
  rfl

/-- A demanded integer is held and comes out as it is. -/
theorem demand_eq_ok {A : Arithmetic} {n m : Int} (h : A.demand n = .ok m) :
    m = n ∧ A.holds n = true := by
  unfold demand at h
  split at h
  · next hn => exact ⟨(Except.ok.inj h).symm, hn⟩
  · cases h

/-- Exact arithmetic stores every result. -/
@[simp]
theorem store_exact (n : Int) : exact.store n = .ok n :=
  rfl

/-- What checked arithmetic stores is the exact result, and it is held. -/
theorem store_checked_eq_ok {bits : Nat} {n stored : Int}
    (h : (checked bits).store n = .ok stored) :
    stored = n ∧ (checked bits).holds n = true :=
  demand_eq_ok h

end Arithmetic

end ExactSimplex
