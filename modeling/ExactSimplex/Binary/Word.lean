import ExactSimplex.Arithmetic

/-!
# Words in bytes

A word is a two's complement integer of 32 bits, stored as four bytes with the least significant first.

Main results:

- Theorem {lit}`Binary.length_wordBytes`: a word takes four bytes.
- Theorem {lit}`Binary.length_readWords`: four bytes make a word, and a shorter rest makes none.
-/

namespace ExactSimplex

/-- The arithmetic of stored words. -/
def Arithmetic.word : Arithmetic := .wrapping 32

namespace Binary

/-- The number of bytes of a word. -/
def wordSize : Nat := 4

/-- The four bytes of an integer modulo the range of a word. -/
def wordBytes (n : Int) : List UInt8 :=
  let rest := (n % Int.pow 2 32).toNat
  [UInt8.ofNat rest, UInt8.ofNat (rest >>> 8), UInt8.ofNat (rest >>> 16), UInt8.ofNat (rest >>> 24)]

/-- The word of four bytes. -/
def ofBytes (a b c d : UInt8) : Int :=
  ((a.toNat + b.toNat <<< 8 + c.toNat <<< 16 + d.toNat <<< 24 : Nat) : Int).bmod (Nat.pow 2 32)

/-- The words of a sequence of bytes. -/
def readWords : List UInt8 → List Int
  | a :: b :: c :: d :: rest => ofBytes a b c d :: readWords rest
  | _ => []

/-- Every word is written in the same number of bytes. -/
@[simp]
theorem length_wordBytes (n : Int) : (wordBytes n).length = wordSize :=
  rfl

/-- Only whole words are read. -/
theorem length_readWords (bytes : List UInt8) :
    (readWords bytes).length = bytes.length / wordSize := by
  fun_induction readWords bytes with
  | case1 a b c d rest ih =>
      simp only [List.length_cons, ih, wordSize]
      omega
  | case2 bytes hshort =>
      have hlength : bytes.length < wordSize := by
        refine Nat.lt_of_not_le fun hlong => ?_
        match bytes, hlong with
        | a :: b :: c :: d :: rest, _ => exact hshort a b c d rest rfl
      rw [List.length_nil, Nat.div_eq_of_lt hlength]

end Binary
end ExactSimplex
