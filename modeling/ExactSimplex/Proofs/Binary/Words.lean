import ExactSimplex.Binary.Word
import ExactSimplex.Proofs.Arithmetic

/-!
# Words and their bytes

Four bytes and a word determine each other, so words and whole words of bytes are the same data.

Main results:

- Theorem {lit}`Binary.readWords_wordBytes`: a word is found again in its bytes.
- Theorem {lit}`Binary.wordBytes_ofBytes`: four bytes are found again in their word.
- Theorem {lit}`Binary.readWords_flatMap`: words are read again.
- Theorem {lit}`Binary.flatMap_readWords`: whole words of bytes are written again.
-/

namespace ExactSimplex
namespace Binary

/-! ## Bytes of a number -/

/-- A number below the range of a word is the sum of its bytes. -/
theorem sum_bytes_of_lt {k : ℕ} (hk : k < 2 ^ 32) :
    (UInt8.ofNat k).toNat + (UInt8.ofNat (k >>> 8)).toNat <<< 8 +
      (UInt8.ofNat (k >>> 16)).toNat <<< 16 + (UInt8.ofNat (k >>> 24)).toNat <<< 24 = k := by
  simp only [UInt8.toNat_ofNat', Nat.shiftLeft_eq, Nat.shiftRight_eq_div_pow]
  omega

/-- Four bytes are those of their sum, and the sum is below the range of a word. -/
theorem bytes_of_sum {a b c d : UInt8} {k : ℕ}
    (hk : k = a.toNat + b.toNat <<< 8 + c.toNat <<< 16 + d.toNat <<< 24) :
    k < 2 ^ 32 ∧ [UInt8.ofNat k, UInt8.ofNat (k >>> 8), UInt8.ofNat (k >>> 16),
      UInt8.ofNat (k >>> 24)] = [a, b, c, d] := by
  have ha := a.toNat_lt
  have hb := b.toNat_lt
  have hc := c.toNat_lt
  have hd := d.toNat_lt
  simp only [Nat.shiftLeft_eq] at hk
  simp only [List.cons.injEq, ← UInt8.toNat_inj, UInt8.toNat_ofNat', Nat.shiftRight_eq_div_pow,
    and_true]
  omega

/-! ## Words -/

/-- Words hold one. -/
theorem holds_one_word : Arithmetic.word.holds 1 = true := by
  decide

/-- The word of four bytes is held and congruent to their sum. -/
theorem ofBytes_stored (a b c d : UInt8) : Arithmetic.word.holds (ofBytes a b c d) = true ∧
    ofBytes a b c d ≡ (a.toNat + b.toNat <<< 8 + c.toNat <<< 16 + d.toNat <<< 24 : ℕ)
      [ZMOD 2 ^ 32] := by
  have hstore : Arithmetic.word.store
      (a.toNat + b.toNat <<< 8 + c.toNat <<< 16 + d.toNat <<< 24 : ℕ) = .ok (ofBytes a b c d) := rfl
  exact (Arithmetic.safe_store holds_one_word _).of_eq_ok hstore

/-- The bytes of a word are those of its remainder. -/
theorem wordBytes_eq {n : ℤ} {k : ℕ} (hk : (n % 2 ^ 32).toNat = k) :
    wordBytes n = [UInt8.ofNat k, UInt8.ofNat (k >>> 8), UInt8.ofNat (k >>> 16),
      UInt8.ofNat (k >>> 24)] := by
  rw [← hk]
  rfl

/-- A word is found again in its bytes. -/
theorem readWords_wordBytes {n : ℤ} (hn : Arithmetic.word.holds n = true) (rest : List UInt8) :
    readWords (wordBytes n ++ rest) = n :: readWords rest := by
  have hnonneg : 0 ≤ n % 2 ^ 32 := Int.emod_nonneg n (by decide)
  have hlt := Int.emod_lt_of_pos n (show (0 : ℤ) < 2 ^ 32 by decide)
  obtain ⟨k, hk⟩ := Int.eq_ofNat_of_zero_le hnonneg
  have hstored := ofBytes_stored (UInt8.ofNat k) (UInt8.ofNat (k >>> 8)) (UInt8.ofNat (k >>> 16))
    (UInt8.ofNat (k >>> 24))
  rw [sum_bytes_of_lt (by omega), ← hk] at hstored
  have hword := Arithmetic.eq_of_modEq holds_one_word hstored.1 hn (hstored.2.trans (Int.mod_modEq n _))
  rw [wordBytes_eq (show (n % 2 ^ 32).toNat = k by omega)]
  simp only [List.cons_append, List.nil_append, readWords, hword]

/-- Four bytes are found again in their word. -/
theorem wordBytes_ofBytes (a b c d : UInt8) : wordBytes (ofBytes a b c d) = [a, b, c, d] := by
  obtain ⟨k, hk⟩ : ∃ k, k = a.toNat + b.toNat <<< 8 + c.toNat <<< 16 + d.toNat <<< 24 := ⟨_, rfl⟩
  rcases bytes_of_sum hk with ⟨hlt, hbytes⟩
  have hmod := (ofBytes_stored a b c d).2
  rw [← hk, Int.ModEq] at hmod
  have hrest : (ofBytes a b c d % 2 ^ 32).toNat = k := by omega
  rw [wordBytes_eq hrest, hbytes]

/-! ## Sequences of words -/

/-- Whatever is read is held. -/
theorem holds_of_mem_readWords {bytes : List UInt8} {n : ℤ} (hn : n ∈ readWords bytes) :
    Arithmetic.word.holds n = true := by
  fun_induction readWords bytes with
  | case1 a b c d rest ih =>
      rcases List.mem_cons.mp hn with heq | hn
      · rw [heq]
        exact (ofBytes_stored a b c d).1
      · exact ih hn
  | case2 bytes _ => cases hn

/-- Words are read again, by induction on their list. -/
theorem readWords_flatMap {words : List ℤ} (h : ∀ n ∈ words, Arithmetic.word.holds n = true) :
    readWords (words.flatMap wordBytes) = words := by
  induction words with
  | nil => rfl
  | cons n rest ih =>
      rw [List.forall_mem_cons] at h
      rw [List.flatMap_cons, readWords_wordBytes h.1, ih h.2]

/-- Whole words of bytes are written again. -/
theorem flatMap_readWords {bytes : List UInt8} (h : wordSize ∣ bytes.length) :
    (readWords bytes).flatMap wordBytes = bytes := by
  fun_induction readWords bytes with
  | case1 a b c d rest ih =>
      have hrest : wordSize ∣ rest.length := (Nat.dvd_add_left (dvd_refl wordSize)).mp h
      rw [List.flatMap_cons, wordBytes_ofBytes, ih hrest]
      rfl
  | case2 bytes hshort =>
      rcases bytes with _ | ⟨a, _ | ⟨b, _ | ⟨c, _ | ⟨d, rest⟩⟩⟩⟩
      · rfl
      · exact absurd h (by decide : ¬4 ∣ 1)
      · exact absurd h (by decide : ¬4 ∣ 2)
      · exact absurd h (by decide : ¬4 ∣ 3)
      · exact absurd rfl (hshort a b c d rest)

/-- A list of words is written in as many bytes as they have together. -/
theorem length_flatMap_wordBytes (words : List ℤ) :
    (words.flatMap wordBytes).length = wordSize * words.length := by
  induction words with
  | nil => rfl
  | cons n rest ih =>
      rw [List.flatMap_cons, List.length_append, length_wordBytes, ih, List.length_cons]
      ring

end Binary
end ExactSimplex
