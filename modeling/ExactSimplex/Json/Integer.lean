import ExactSimplex.Json.Shape

/-!
# Integers of an arithmetic in documents

Integers of a fixed width are numerals.  Unbounded integers are a pair: their sign, and the digits of
their magnitude in base {lit}`2 ^ 32` with the least significant first.  Zero has the sign zero and no
digits; in reading, a sign of zero makes any digits zero.

Main results:

- Theorem {lit}`Json.ofLimbs_limbs`: the digits of a number give the number.
- Theorem {lit}`Json.readInteger_ofInteger`: an integer that the arithmetic holds is read back.
-/

namespace ExactSimplex
namespace Json

/-! ## Digits of unbounded integers -/

/-- The base of the digits. -/
def limbBase : Nat := Nat.pow 2 32

/-- The digits of a number, the least significant first. -/
def limbs (n : Nat) : List Nat :=
  if h : n = 0 then []
  else
    have : n / limbBase < n := Nat.div_lt_self (Nat.pos_of_ne_zero h) (by decide)
    n % limbBase :: limbs (n / limbBase)
termination_by n

/-- The number of given digits. -/
def ofLimbs : List Nat → Nat
  | [] => 0
  | limb :: rest => limb + limbBase * ofLimbs rest

/-- A digit of a document. -/
def readLimb (document : Json) : Option Nat := document.readIndex.filter (· < limbBase)

/-- A sign of a document: minus one, zero or one. -/
def readSign (document : Json) : Option Int :=
  (document.readInt (.wrapping 8)).filter fun sign => decide (sign.natAbs ≤ 1)

/-! ## Integers -/

/-- The document of an integer. -/
def ofInteger : Arithmetic → Int → Json
  | .exact, n => .array [ofInt n.sign, .array ((limbs n.natAbs).map fun limb : Nat => ofInt limb)]
  | .wrapping _, n => ofInt n
  | .checked _, n => ofInt n

/-- The unbounded integer of a sign and digits. -/
def readUnbounded : Json → Option Int
  | .array [sign, .array digits] => do
      let sign ← readSign sign
      let digits ← digits.mapM readLimb
      some (sign * ofLimbs digits)
  | _ => none

/-- The integer of a document, if the arithmetic can hold it. -/
def readInteger : Arithmetic → Json → Option Int
  | .exact, document => readUnbounded document
  | .wrapping bits, document => document.readInt (.wrapping bits)
  | .checked bits, document => document.readInt (.checked bits)

/-! ## First facts -/

theorem limbs_zero : limbs 0 = [] := by
  rw [limbs]
  rfl

/-- The limbs of a positive number begin with its remainder. -/
theorem limbs_of_ne {n : Nat} (h : n ≠ 0) : limbs n = n % limbBase :: limbs (n / limbBase) := by
  rw [limbs]
  simp [h]

/-- A number is the value of its limbs. -/
theorem ofLimbs_limbs (n : Nat) : ofLimbs (limbs n) = n := by
  induction n using Nat.strongRecOn with
  | ind n ih =>
      by_cases h : n = 0
      · subst h
        rw [limbs_zero]
        rfl
      · rw [limbs_of_ne h, ofLimbs,
          ih (n / limbBase) (Nat.div_lt_self (Nat.pos_of_ne_zero h) (by decide))]
        exact Nat.mod_add_div n limbBase

/-- Every limb is below the base. -/
theorem lt_limbBase_of_mem_limbs {n limb : Nat} (h : limb ∈ limbs n) : limb < limbBase := by
  induction n using Nat.strongRecOn with
  | ind n ih =>
      by_cases hn : n = 0
      · subst hn
        rw [limbs_zero] at h
        cases h
      · rw [limbs_of_ne hn] at h
        rcases List.mem_cons.mp h with rfl | h
        · exact Nat.mod_lt n (by decide)
        · exact ih (n / limbBase) (Nat.div_lt_self (Nat.pos_of_ne_zero hn) (by decide)) h

/-- A limb is read back from its document. -/
theorem readLimb_ofInt {limb : Nat} (h : limb < limbBase) : readLimb (ofInt limb) = some limb := by
  have hindex : limb < Text.indexBound := Nat.lt_trans h (by decide)
  simp [readLimb, readIndex_ofInt hindex, Option.filter, h]

/-- A list of limbs is read back from its documents. -/
theorem mapM_readLimb {digits : List Nat} (h : ∀ limb ∈ digits, limb < limbBase) :
    (digits.map fun limb : Nat => ofInt limb).mapM readLimb = some digits := by
  induction digits with
  | nil => rfl
  | cons limb rest ih =>
      simp only [List.map_cons, List.mapM_cons]
      rw [readLimb_ofInt (h limb List.mem_cons_self),
        ih fun c hc => h c (List.mem_cons_of_mem limb hc)]
      rfl

/-- The sign of an integer is read back from its document. -/
theorem readSign_ofInt_sign (n : Int) : readSign (ofInt n.sign) = some n.sign := by
  have hsign : n.sign = -1 ∨ n.sign = 0 ∨ n.sign = 1 := by
    rcases Int.lt_trichotomy n 0 with h | h | h
    · exact Or.inl (Int.sign_eq_neg_one_of_neg h)
    · exact Or.inr (Or.inl (by simp [h]))
    · exact Or.inr (Or.inr (Int.sign_eq_one_of_pos h))
  have hholds : (Arithmetic.wrapping 8).holds n.sign = true := by
    rcases hsign with h | h | h <;> rw [h] <;> decide
  have habs : n.sign.natAbs ≤ 1 := by omega
  simp [readSign, readInt_ofInt hholds, Option.filter, habs]

/-- An exact integer is read back from its sign and its limbs. -/
theorem readUnbounded_ofInteger (n : Int) : readUnbounded (ofInteger .exact n) = some n := by
  have hdigits := mapM_readLimb fun limb h => lt_limbBase_of_mem_limbs (n := n.natAbs) h
  simp only [ofInteger, readUnbounded, readSign_ofInt_sign, hdigits]
  show some (n.sign * (ofLimbs (limbs n.natAbs) : Int)) = some n
  rw [ofLimbs_limbs, Int.sign_mul_natAbs]

/-- An integer that the arithmetic holds is read back from its document. -/
theorem readInteger_ofInteger {A : Arithmetic} {n : Int} (h : A.holds n = true) :
    readInteger A (ofInteger A n) = some n := by
  cases A with
  | exact => exact readUnbounded_ofInteger n
  | wrapping bits => exact readInt_ofInt h
  | checked bits => exact readInt_ofInt h

end Json
end ExactSimplex
