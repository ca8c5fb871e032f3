import ExactSimplex.Proofs.Binary.Loading

/-!
# Interrupted writing

Writing alternates between the two sinks, each numerator before its denominator, and a sink takes a word only if
all of it fits.  So the words that are kept are whole, they are the first ones of the tableau, and there is at most
one numerator more than denominators.  Where a word is refused, at least the denominators are too few, and the two
streams are not loaded again with the sizes of the tableau.

Main results:

- Theorem {lit}`Binary.writeEntries_rooms`: what sinks keep of some fractions.
- Theorem {lit}`Binary.readTableau_of_cut`: streams that end too early are refused for their lengths.
- Theorem {lit}`Binary.writeTableau_rooms`: what sinks keep of a tableau, and that a part of it is not loaded.
-/

namespace ExactSimplex
namespace Binary

/-! ## Sinks with a limit -/

/-- A sink takes a word that fits, and its room shrinks by the word. -/
theorem write_of_le {sink : Sink} {room : ℕ} (h : sink.room = some room) (hfits : wordSize ≤ room) (n : ℤ) :
    ∃ sink', sink.write (wordBytes n) = some sink' ∧ sink'.room = some (room - wordSize) ∧
      sink'.bytes = sink.bytes ++ wordBytes n := by
  have hwrite : sink.write (wordBytes n) = some ⟨some (room - wordSize), wordBytes n :: sink.accepted⟩ := by
    unfold Sink.write
    rw [h]
    exact if_pos hfits
  exact ⟨_, hwrite, rfl, Sink.bytes_write hwrite⟩

/-- A sink refuses a word that does not fit. -/
theorem write_of_lt {sink : Sink} {room : ℕ} (h : sink.room = some room) (hlarge : room < wordSize) (n : ℤ) :
    sink.write (wordBytes n) = none :=
  Sink.write_isNone_iff.mpr ⟨room, h, hlarge⟩

/-- How many of `count` numerators are written: as many as fit, but at most one more than denominators fit. -/
def fittingNumerators (count numRoom denRoom : ℕ) : ℕ :=
  min count (min (numRoom / wordSize) (denRoom / wordSize + 1))

/-- How many of `count` denominators are written: as many as fit, each after its numerator. -/
def fittingDenominators (count numRoom denRoom : ℕ) : ℕ :=
  min count (min (numRoom / wordSize) (denRoom / wordSize))

/-- Once both words of a fraction fit, what fits of all of them is one more than what fits of the others. -/
theorem fitting_succ (count : ℕ) {numRoom denRoom : ℕ} (hnum : wordSize ≤ numRoom) (hden : wordSize ≤ denRoom) :
    fittingNumerators (count + 1) numRoom denRoom =
        fittingNumerators count (numRoom - wordSize) (denRoom - wordSize) + 1 ∧
      fittingDenominators (count + 1) numRoom denRoom =
        fittingDenominators count (numRoom - wordSize) (denRoom - wordSize) + 1 := by
  unfold fittingNumerators fittingDenominators
  unfold wordSize at *
  omega

/-- What two sinks keep of some fractions, by induction on the fractions. -/
theorem writeEntries_rooms (fractions : List Fraction) {nums dens : Sink} {numRoom denRoom : ℕ}
    (hnums : nums.room = some numRoom) (hdens : dens.room = some denRoom) :
    (writeEntries fractions nums dens).numerators.bytes = nums.bytes ++
        ((numerators fractions).take (fittingNumerators fractions.length numRoom denRoom)).flatMap wordBytes ∧
      (writeEntries fractions nums dens).denominators.bytes = dens.bytes ++
        ((denominators fractions).take
          (fittingDenominators fractions.length numRoom denRoom)).flatMap wordBytes ∧
      ((writeEntries fractions nums dens).failed = true ↔
        fittingDenominators fractions.length numRoom denRoom < fractions.length) := by
  induction fractions generalizing nums dens numRoom denRoom with
  | nil => simp [writeEntries, numerators, denominators, fittingDenominators]
  | cons a rest ih =>
      rw [List.length_cons]
      rcases Nat.lt_or_ge numRoom wordSize with hnumLarge | hnumFits
      · have hnumNone : fittingNumerators (rest.length + 1) numRoom denRoom = 0 := by
          rw [fittingNumerators, Nat.div_eq_of_lt hnumLarge, Nat.zero_min, Nat.min_zero]
        have hdenNone : fittingDenominators (rest.length + 1) numRoom denRoom = 0 := by
          rw [fittingDenominators, Nat.div_eq_of_lt hnumLarge, Nat.zero_min, Nat.min_zero]
        simp [writeEntries, write_of_lt hnums hnumLarge, hnumNone, hdenNone]
      rcases write_of_le hnums hnumFits a.num with ⟨nums', hnumWrite, hnums', hnumBytes⟩
      rcases Nat.lt_or_ge denRoom wordSize with hdenLarge | hdenFits
      · have hnumOne : fittingNumerators (rest.length + 1) numRoom denRoom = 1 := by
          have hroom : 1 ≤ numRoom / wordSize := (Nat.one_le_div_iff (by decide)).mpr hnumFits
          rw [fittingNumerators, Nat.div_eq_of_lt hdenLarge]
          omega
        have hdenNone : fittingDenominators (rest.length + 1) numRoom denRoom = 0 := by
          rw [fittingDenominators, Nat.div_eq_of_lt hdenLarge, Nat.min_zero, Nat.min_zero]
        simp [writeEntries, hnumWrite, write_of_lt hdens hdenLarge, hnumOne, hdenNone, hnumBytes]
      · rcases write_of_le hdens hdenFits a.den with ⟨dens', hdenWrite, hdens', hdenBytes⟩
        rcases ih hnums' hdens' with ⟨hnumRest, hdenRest, hfailed⟩
        rw [hnumBytes, List.append_assoc] at hnumRest
        rw [hdenBytes, List.append_assoc] at hdenRest
        rcases fitting_succ rest.length hnumFits hdenFits with ⟨hnumCount, hdenCount⟩
        simp only [writeEntries, hnumWrite, hdenWrite, hnumCount, hdenCount, numerators_cons,
          denominators_cons, List.take_succ_cons, List.flatMap_cons, Nat.add_lt_add_iff_right]
        exact ⟨hnumRest, hdenRest, hfailed⟩

/-! ## Reading what was kept -/

/-- What is written of a tableau into sinks with room for `numRoom` and `denRoom` bytes. -/
def writeInto (T : Tableau) (numRoom denRoom : ℕ) : Written :=
  writeTableau T ⟨some numRoom, []⟩ ⟨some denRoom, []⟩

/-- What is loaded from the bytes that were written. -/
def Written.load (written : Written) (rows cols : ℕ) : Calc (Except LoadError Loaded) :=
  readTableau ⟨written.numerators.bytes, none⟩ ⟨written.denominators.bytes, none⟩ rows cols

/-- The length of the first stream that does not have the expected one. -/
def lengthError (expected numLength denLength : ℕ) : LoadError :=
  if numLength < expected then .length .numerators expected numLength
  else .length .denominators expected denLength

/-- Streams that end too early are refused for the length of the first one of them. -/
theorem readTableau_of_cut {nums dens : Source} {rows cols numLength denLength : ℕ}
    (hsize : 4 * rows * cols < 2 ^ 64) (hnums : nums.Holds numLength) (hdens : dens.Holds denLength)
    (hnumLe : numLength ≤ 4 * rows * cols) (hdenLt : denLength < 4 * rows * cols) :
    readTableau nums dens rows cols = .ok (.error (lengthError (4 * rows * cols) numLength denLength)) := by
  rcases hnums with ⟨rfl, hnumEnds⟩
  rcases hdens with ⟨rfl, hdenEnds⟩
  unfold lengthError
  rcases hnumLe.lt_or_eq with hshort | hfull
  · rw [if_pos hshort]
    exact (Defect.numerators hsize (.short hshort hnumEnds)).readTableau
  · rw [if_neg hfull.not_lt]
    exact (Defect.denominators hsize ⟨hfull, hnumEnds⟩ (.short hdenLt hdenEnds)).readTableau

/-- The first words of some fractions take four bytes each. -/
theorem length_take_words (words : List ℤ) {count : ℕ} (h : count ≤ words.length) :
    ((words.take count).flatMap wordBytes).length = 4 * count := by
  rw [length_flatMap_wordBytes, List.length_take, Nat.min_eq_left h]
  rfl

/-- Streams are not loaded if the denominators end too early. -/
theorem Written.load_ne_ok {written : Written} {rows cols : ℕ}
    (h : written.denominators.bytes.length < 4 * rows * cols) (loaded : Loaded) :
    written.load rows cols ≠ .ok (.ok loaded) :=
  fun hread => h.ne (sound_of_readTableau hread).denominators.length

/-- Writing a tableau into two sinks fails exactly if one of them has too little room for all of its words.  The
sinks then hold the first words of the tableau, as many as fit and at most one numerator more than denominators.
After a failure the two streams are refused for the length of the first one that is too short, and in no case
loaded. -/
theorem writeTableau_rooms {T : Tableau} (hT : T.Shaped) (numRoom denRoom : ℕ) :
    ((writeInto T numRoom denRoom).failed = true ↔
      numRoom < 4 * T.entries.size ∨ denRoom < 4 * T.entries.size) ∧
    (writeInto T numRoom denRoom).numerators.bytes =
      ((numerators T.entries.toList).take
        (fittingNumerators T.entries.size numRoom denRoom)).flatMap wordBytes ∧
    (writeInto T numRoom denRoom).denominators.bytes =
      ((denominators T.entries.toList).take
        (fittingDenominators T.entries.size numRoom denRoom)).flatMap wordBytes ∧
    ((writeInto T numRoom denRoom).failed = true →
      (Addressable T → (writeInto T numRoom denRoom).load (T.constraints + 1) (T.columns + 1) =
        .ok (.error (lengthError (4 * T.entries.size) (4 * fittingNumerators T.entries.size numRoom denRoom)
          (4 * fittingDenominators T.entries.size numRoom denRoom)))) ∧
      ∀ loaded, (writeInto T numRoom denRoom).load (T.constraints + 1) (T.columns + 1) ≠
        .ok (.ok loaded)) := by
  rcases @writeEntries_rooms T.entries.toList ⟨some numRoom, []⟩ ⟨some denRoom, []⟩ numRoom denRoom rfl rfl with
    ⟨hnumBytes, hdenBytes, hfailed⟩
  rw [Array.length_toList] at hnumBytes hdenBytes hfailed
  have hexpected : 4 * (T.constraints + 1) * (T.columns + 1) = 4 * T.entries.size := by
    rw [hT, Nat.mul_assoc]
    rfl
  have hnumLe : fittingNumerators T.entries.size numRoom denRoom ≤ T.entries.size := Nat.min_le_left ..
  have hdenLe : fittingDenominators T.entries.size numRoom denRoom ≤ T.entries.size := Nat.min_le_left ..
  have hnumLength : (writeInto T numRoom denRoom).numerators.bytes.length =
      4 * fittingNumerators T.entries.size numRoom denRoom := by
    rw [← length_take_words (numerators T.entries.toList) (by simpa [numerators] using hnumLe)]
    exact congrArg List.length hnumBytes
  have hdenLength : (writeInto T numRoom denRoom).denominators.bytes.length =
      4 * fittingDenominators T.entries.size numRoom denRoom := by
    rw [← length_take_words (denominators T.entries.toList) (by simpa [denominators] using hdenLe)]
    exact congrArg List.length hdenBytes
  refine ⟨hfailed.trans ?_, hnumBytes, hdenBytes, fun hfail => ?_⟩
  · unfold fittingDenominators wordSize
    omega
  · have hcut : fittingDenominators T.entries.size numRoom denRoom < T.entries.size := hfailed.mp hfail
    refine ⟨fun hsize => ?_, Written.load_ne_ok (by omega)⟩
    have hbytes : 4 * (T.constraints + 1) * (T.columns + 1) < 2 ^ 64 := by
      rw [← mul_wordSize]
      exact hsize
    rw [← hexpected]
    exact readTableau_of_cut hbytes ⟨hnumLength, rfl⟩ ⟨hdenLength, rfl⟩ (by omega) (by omega)

/-- A tableau of two entries, where the second denominator does not fit any more. -/
theorem writeTableau_rooms_secondDenominator :
    leastDenominator.Shaped ∧ Addressable leastDenominator ∧
      (writeInto leastDenominator 9 7).failed = true ∧
      (writeInto leastDenominator 9 7).numerators.bytes = [255, 255, 255, 255, 1, 0, 0, 0] ∧
      (writeInto leastDenominator 9 7).denominators.bytes = [0, 0, 0, 128] ∧
      (writeInto leastDenominator 9 7).load 1 2 = .ok (.error (.length .denominators 8 4)) := by
  have hT : leastDenominator.Shaped := by decide
  have hsize : Addressable leastDenominator := by decide
  rcases writeTableau_rooms hT 9 7 with ⟨hfailed, hnums, hdens, hload⟩
  have hfail : (writeInto leastDenominator 9 7).failed = true := hfailed.mpr (Or.inr (by decide))
  exact ⟨hT, hsize, hfail, hnums, hdens, (hload hfail).1 hsize⟩

end Binary
end ExactSimplex
