import ExactSimplex.Binary.Coefficients
import ExactSimplex.Proofs.Binary.Words
import ExactSimplex.Proofs.Fraction.Reread

/-!
# Stored tableaux are read again

Writing stores the words of every pair as they are, while reading reduces the pairs.  What the operations
build is reduced already, so a tableau that is written is read as an equal one, and as the same one if no
denominator is negative.  In the other direction the bytes survive exactly where reading had nothing to
reduce.

Main results:

- Theorem {lit}`Binary.writeTableau_bytes`: the bytes of a tableau.
- Theorem {lit}`Binary.readTableau_eq_ok_iff`: the streams that are accepted.
- Theorem {lit}`Binary.pairWords_words`: the words of a tableau are read as equal fractions.
- Theorem {lit}`Binary.pairWords_eq_self_iff`: the words that survive reading.
- Theorem {lit}`Binary.stored_roundTrip`: both round trips.
-/

namespace ExactSimplex
namespace Binary

open Calc

/-- The numerators of some fractions. -/
def numerators (fractions : List Fraction) : List ℤ := fractions.map Fraction.num

/-- The denominators of some fractions. -/
def denominators (fractions : List Fraction) : List ℤ := fractions.map Fraction.den

@[simp]
theorem numerators_cons (a : Fraction) (rest : List Fraction) :
    numerators (a :: rest) = a.num :: numerators rest :=
  rfl

@[simp]
theorem denominators_cons (a : Fraction) (rest : List Fraction) :
    denominators (a :: rest) = a.den :: denominators rest :=
  rfl

/-! ## Writing -/

/-- A sink without a limit takes a piece and stays without a limit. -/
theorem write_unlimited {sink : Sink} (h : sink.room = none) (piece : List UInt8) :
    ∃ sink', sink.write piece = some sink' ∧ sink'.room = none ∧ sink'.bytes = sink.bytes ++ piece := by
  have hwrite : sink.write piece = some ⟨none, piece :: sink.accepted⟩ := by
    unfold Sink.write
    rw [h]
  exact ⟨_, hwrite, rfl, Sink.bytes_write hwrite⟩

/-- Sinks without a limit take all numerators and all denominators in order, by induction on the
fractions. -/
theorem writeEntries_bytes (fractions : List Fraction) {nums dens : Sink} (hnums : nums.room = none)
    (hdens : dens.room = none) :
    (writeEntries fractions nums dens).numerators.bytes =
        nums.bytes ++ (numerators fractions).flatMap wordBytes ∧
      (writeEntries fractions nums dens).denominators.bytes =
        dens.bytes ++ (denominators fractions).flatMap wordBytes := by
  induction fractions generalizing nums dens with
  | nil => simp [writeEntries, numerators, denominators]
  | cons a rest ih =>
      rcases write_unlimited hnums (wordBytes a.num) with ⟨nums', hnumWrite, hnums', hnumBytes⟩
      rcases write_unlimited hdens (wordBytes a.den) with ⟨dens', hdenWrite, hdens', hdenBytes⟩
      have hrest := ih hnums' hdens'
      rw [hnumBytes, hdenBytes, List.append_assoc, List.append_assoc] at hrest
      simpa only [writeEntries, hnumWrite, hdenWrite, numerators_cons, denominators_cons,
        List.flatMap_cons] using hrest

/-- The bytes of a tableau are those of its numerators and of its denominators. -/
theorem writeTableau_bytes (T : Tableau) :
    (writeTableau T {} {}).numerators.bytes = (numerators T.entries.toList).flatMap wordBytes ∧
      (writeTableau T {} {}).denominators.bytes = (denominators T.entries.toList).flatMap wordBytes :=
  writeEntries_bytes T.entries.toList rfl rfl

/-! ## Reading -/

/-- A source that yields a number of bytes and then ends. -/
structure Source.Holds (source : Source) (count : ℕ) : Prop where
  length : source.bytes.length = count
  breaks : source.breaks = none

/-- A stream is accepted exactly if it holds the expected bytes, and its words are read. -/
theorem readStream_eq_ok_iff {source : Source} {stream : CoefficientStream} {expected : ℕ}
    {words : List ℤ} : readStream source stream expected = .ok words ↔
      source.Holds expected ∧ words = readWords source.bytes := by
  unfold readStream
  constructor
  · intro h
    by_cases hlong : expected + 1 ≤ source.bytes.length
    · rw [Source.take_of_le hlong] at h
      dsimp only at h
      rw [if_neg (by rw [List.length_take]; omega)] at h
      cases h
    · unfold Source.take at h
      rw [if_neg hlong] at h
      cases hbreaks : source.breaks with
      | some reason =>
          rw [hbreaks] at h
          cases h
      | none =>
          rw [hbreaks] at h
          dsimp only at h
          split at h
          · next hlength => exact ⟨⟨hlength, hbreaks⟩, (Except.ok.inj h).symm⟩
          · cases h
  · rintro ⟨⟨hlength, hbreaks⟩, rfl⟩
    unfold Source.take
    rw [if_neg (by omega), hbreaks]
    exact if_pos hlength

/-- Both streams are accepted exactly if the sizes are possible and each stream holds its bytes. -/
theorem readStreams_eq_ok_iff {nums dens : Source} {rows cols : ℕ} {words words' : List ℤ} :
    readStreams nums dens rows cols = .ok (words, words') ↔
      rows * cols * wordSize < Text.indexBound ∧ nums.Holds (rows * cols * wordSize) ∧
        dens.Holds (rows * cols * wordSize) ∧ words = readWords nums.bytes ∧
          words' = readWords dens.bytes := by
  unfold readStreams
  dsimp only
  split
  · next hlarge =>
      constructor
      · exact nofun
      · rintro ⟨hsmall, -⟩
        omega
  · next hsmall =>
      constructor
      · intro h
        cases hnums : readStream nums .numerators (rows * cols * wordSize) with
        | error e =>
            rw [hnums] at h
            cases h
        | ok found =>
            cases hdens : readStream dens .denominators (rows * cols * wordSize) with
            | error e =>
                rw [hnums, hdens] at h
                cases h
            | ok found' =>
                rw [hnums, hdens] at h
                cases h
                rcases readStream_eq_ok_iff.mp hnums with ⟨hnumsHeld, hwords⟩
                rcases readStream_eq_ok_iff.mp hdens with ⟨hdensHeld, hwords'⟩
                exact ⟨Nat.lt_of_not_le hsmall, hnumsHeld, hdensHeld, hwords, hwords'⟩
      · rintro ⟨-, hnums, hdens, rfl, rfl⟩
        rw [readStream_eq_ok_iff.mpr ⟨hnums, rfl⟩, readStream_eq_ok_iff.mpr ⟨hdens, rfl⟩]
        rfl

/-- What is read from the words that are found, with the sizes of a tableau. -/
theorem readTableau_eq_ok_iff {nums dens : Source} {rows cols : ℕ} {loaded : Loaded} :
    readTableau nums dens rows cols = .ok (.ok loaded) ↔
      (rows * cols * wordSize < Text.indexBound ∧ nums.Holds (rows * cols * wordSize) ∧
        dens.Holds (rows * cols * wordSize)) ∧
      ∃ fractions, pairWords (readWords nums.bytes) (readWords dens.bytes) =
          .ok (fractions, loaded.covered) ∧
        Tableau.ofEntries rows cols fractions = .ok loaded.tableau := by
  unfold readTableau
  constructor
  · intro h
    rcases hstreams : readStreams nums dens rows cols with e | ⟨words, words'⟩
    · rw [hstreams] at h
      cases pure_eq_ok.mp h
    · rw [hstreams] at h
      rcases readStreams_eq_ok_iff.mp hstreams with ⟨hsmall, hnums, hdens, rfl, rfl⟩
      rcases bind_eq_ok.mp h with ⟨⟨fractions, covered⟩, hpairs, h⟩
      have hloaded := pure_eq_ok.mp h
      rcases htableau : Tableau.ofEntries rows cols fractions with e | T
      · rw [htableau] at hloaded
        cases hloaded
      · rw [htableau] at hloaded
        cases hloaded
        exact ⟨⟨hsmall, hnums, hdens⟩, fractions, hpairs, htableau⟩
  · rintro ⟨⟨hsmall, hnums, hdens⟩, fractions, hpairs, htableau⟩
    rw [readStreams_eq_ok_iff.mpr ⟨hsmall, hnums, hdens, rfl, rfl⟩]
    refine bind_eq_ok.mpr ⟨_, hpairs, ?_⟩
    dsimp only
    rw [htableau]
    rfl

/-! ## Pairs of words -/

/-- The words of proper fractions are read as equal fractions without an error, by induction on the
fractions; nothing changes where the denominators are positive. -/
theorem pairWords_words {fractions : List Fraction} (h : ∀ a ∈ fractions, Fraction.Proper .word a) :
    ∃ found, pairWords (numerators fractions) (denominators fractions) = .ok (found, []) ∧
      found.length = fractions.length ∧ Tableau.sameEntries .word found fractions = .ok true ∧
      ((∀ a ∈ fractions, 0 < a.den) → found = fractions) := by
  induction fractions with
  | nil => exact ⟨[], rfl, rfl, rfl, fun _ => rfl⟩
  | cons a rest ih =>
      rw [List.forall_mem_cons] at h
      rcases ih h.2 with ⟨found, hfound, hlength, hsame, hkept⟩
      rcases h.1.reread holds_one_word with ⟨b, hreduce, hequal, hself⟩
      have houtcome : Fraction.tryOfRatio .word a.num a.den = .ok (.ok b) := by
        rw [Fraction.tryOfRatio_of_ne _ h.1.den_ne_zero]
        exact map_eq_ok.mpr ⟨b, hreduce, rfl⟩
      refine ⟨b :: found, ?_, congrArg (· + 1) hlength, ?_, fun hpos => ?_⟩
      · rw [numerators_cons, denominators_cons, pairWords, houtcome]
        exact bind_eq_ok.mpr ⟨_, rfl, bind_eq_ok.mpr ⟨_, hfound, rfl⟩⟩
      · exact bind_eq_ok.mpr ⟨true, hequal, hsame⟩
      · rw [List.forall_mem_cons] at hpos
        rw [hself hpos.1, hkept hpos.2]

/-- What is read from the first pair and from those that follow it. -/
theorem pairWords_cons {num den : ℤ} {nums dens : List ℤ} {fractions : List Fraction}
    {covered : List ArithmeticError}
    (h : pairWords (num :: nums) (den :: dens) = .ok (fractions, covered)) :
    ∃ outcome rest errors, Fraction.tryOfRatio .word num den = .ok outcome ∧
      pairWords nums dens = .ok (rest, errors) ∧ fractions = Fraction.orZero outcome :: rest := by
  rcases bind_eq_ok.mp h with ⟨outcome, houtcome, h⟩
  rcases bind_eq_ok.mp h with ⟨⟨rest, errors⟩, hrest, h⟩
  cases pure_eq_ok.mp h
  exact ⟨outcome, rest, errors, houtcome, hrest, rfl⟩

/-- Whatever is read is proper, by induction on the words. -/
theorem pairWords_proper {nums dens : List ℤ} {fractions : List Fraction}
    {covered : List ArithmeticError} (hnums : ∀ n ∈ nums, Arithmetic.word.holds n = true)
    (hdens : ∀ n ∈ dens, Arithmetic.word.holds n = true)
    (h : pairWords nums dens = .ok (fractions, covered)) :
    ∀ a ∈ fractions, Fraction.Proper .word a := by
  induction nums generalizing dens fractions covered with
  | nil =>
      cases pure_eq_ok.mp h
      exact nofun
  | cons num nums ih =>
      cases dens with
      | nil =>
          cases pure_eq_ok.mp h
          exact nofun
      | cons den dens =>
          rw [List.forall_mem_cons] at hnums hdens
          rcases pairWords_cons h with ⟨outcome, rest, errors, houtcome, hrest, rfl⟩
          have hratio : Fraction.ofRatio .word num den = .ok (Fraction.orZero outcome) :=
            map_eq_ok.mpr ⟨outcome, houtcome, rfl⟩
          have hproper := (Fraction.safe_ofRatio holds_one_word hnums.1 hdens.1).of_eq_ok hratio
          exact List.forall_mem_cons.mpr ⟨hproper, ih hnums.2 hdens.2 hrest⟩

/-- The words that survive reading are coprime pairs with positive denominators, by induction on the
words. -/
theorem pairWords_eq_self_iff {nums dens : List ℤ} {fractions : List Fraction}
    {covered : List ArithmeticError} (hlength : nums.length = dens.length)
    (hnums : ∀ n ∈ nums, Arithmetic.word.holds n = true)
    (hdens : ∀ n ∈ dens, Arithmetic.word.holds n = true)
    (h : pairWords nums dens = .ok (fractions, covered)) :
    (numerators fractions = nums ∧ denominators fractions = dens) ↔
      ∀ pair ∈ nums.zip dens, 0 < pair.2 ∧ Int.gcd pair.1 pair.2 = 1 := by
  induction nums generalizing dens fractions covered with
  | nil =>
      obtain rfl := List.length_eq_zero_iff.mp hlength.symm
      cases pure_eq_ok.mp h
      simp [numerators, denominators]
  | cons num nums ih =>
      cases dens with
      | nil => cases hlength
      | cons den dens =>
          rw [List.forall_mem_cons] at hnums hdens
          rcases pairWords_cons h with ⟨outcome, rest, errors, houtcome, hrest, rfl⟩
          have hfirst := Fraction.orZero_eq_self_iff holds_one_word hnums.1 hdens.1 houtcome
          have hothers := ih (Nat.succ.inj hlength) hnums.2 hdens.2 hrest
          rw [List.zip_cons_cons, List.forall_mem_cons, ← hothers, ← hfirst]
          rw [numerators_cons, denominators_cons, List.cons.injEq, List.cons.injEq]
          constructor
          · rintro ⟨⟨hnum, hrestNums⟩, hden, hrestDens⟩
            exact ⟨by rw [← hnum, ← hden], hrestNums, hrestDens⟩
          · rintro ⟨hpair, hrestNums, hrestDens⟩
            rw [hpair]
            exact ⟨⟨rfl, hrestNums⟩, rfl, hrestDens⟩

/-! ## Both round trips -/

/-- The bytes of the streams of a tableau can be counted in an index, as those of every tableau can that is
held in memory. -/
def Addressable (T : Tableau) : Prop :=
  (T.constraints + 1) * (T.columns + 1) * wordSize < Text.indexBound

instance (T : Tableau) : Decidable (Addressable T) := inferInstanceAs (Decidable (_ < _))

/-- A tableau of proper fractions is written in full and read as an equal one. -/
theorem readTableau_of_written {T : Tableau} (hT : T.Shaped)
    (hentries : ∀ a ∈ T.entries.toList, Fraction.Proper .word a) (hsize : Addressable T) :
    ∃ loaded, readTableau ⟨(writeTableau T {} {}).numerators.bytes, none⟩
        ⟨(writeTableau T {} {}).denominators.bytes, none⟩ (T.constraints + 1) (T.columns + 1) =
          .ok (.ok loaded) ∧
      loaded.covered = [] ∧ loaded.tableau.same .word T = .ok true ∧
      ((∀ a ∈ T.entries.toList, 0 < a.den) → loaded.tableau = T) := by
  have hcount : T.entries.toList.length = (T.constraints + 1) * (T.columns + 1) := hT
  have hnums : ∀ n ∈ numerators T.entries.toList, Arithmetic.word.holds n = true := by
    intro n hn
    rcases List.mem_map.mp hn with ⟨a, ha, rfl⟩
    exact (hentries a ha).num_held
  have hdens : ∀ n ∈ denominators T.entries.toList, Arithmetic.word.holds n = true := by
    intro n hn
    rcases List.mem_map.mp hn with ⟨a, ha, rfl⟩
    exact (hentries a ha).den_held
  rcases pairWords_words hentries with ⟨found, hfound, hlength, hsame, hkept⟩
  rw [(writeTableau_bytes T).1, (writeTableau_bytes T).2]
  refine ⟨⟨⟨T.columns, T.constraints, found.toArray⟩, []⟩, ?_, rfl, ?_, fun hpos => ?_⟩
  · refine readTableau_eq_ok_iff.mpr ⟨⟨hsize, ⟨?_, rfl⟩, ⟨?_, rfl⟩⟩, found, ?_, ?_⟩
    · rw [length_flatMap_wordBytes, numerators, List.length_map, hcount, Nat.mul_comm]
    · rw [length_flatMap_wordBytes, denominators, List.length_map, hcount, Nat.mul_comm]
    · rw [readWords_flatMap hnums, readWords_flatMap hdens]
      exact hfound
    · unfold Tableau.ofEntries
      rw [if_neg (by omega), if_pos (by rw [hlength, hcount])]
      rfl
  · unfold Tableau.same
    rw [if_pos ⟨rfl, rfl⟩]
    exact hsame
  · rw [hkept hpos]

/-- Streams that are accepted are written again as they were exactly if no pair of their words changes when it
is read. -/
theorem writeTableau_of_read {nums dens : Source} {rows cols : ℕ} {loaded : Loaded}
    (h : readTableau nums dens rows cols = .ok (.ok loaded)) :
    ((writeTableau loaded.tableau {} {}).numerators.bytes = nums.bytes ∧
      (writeTableau loaded.tableau {} {}).denominators.bytes = dens.bytes) ↔
        ∀ pair ∈ (readWords nums.bytes).zip (readWords dens.bytes),
          0 < pair.2 ∧ Int.gcd pair.1 pair.2 = 1 := by
  rcases readTableau_eq_ok_iff.mp h with ⟨⟨-, hnums, hdens⟩, fractions, hpairs, htableau⟩
  have hstored : loaded.tableau.entries.toList = fractions := by
    unfold Tableau.ofEntries at htableau
    split at htableau
    · cases htableau
    · split at htableau
      · rw [← Except.ok.inj htableau]
      · cases htableau
  have hnumWords : ∀ n ∈ readWords nums.bytes, Arithmetic.word.holds n = true :=
    fun _ => holds_of_mem_readWords
  have hdenWords : ∀ n ∈ readWords dens.bytes, Arithmetic.word.holds n = true :=
    fun _ => holds_of_mem_readWords
  have hlength : (readWords nums.bytes).length = (readWords dens.bytes).length := by
    rw [length_readWords, length_readWords, hnums.length, hdens.length]
  have hproper := pairWords_proper hnumWords hdenWords hpairs
  rw [← pairWords_eq_self_iff hlength hnumWords hdenWords hpairs, (writeTableau_bytes _).1,
    (writeTableau_bytes _).2, hstored]
  -- Words and whole words of bytes determine each other.
  have hiff : ∀ (words : List ℤ) (source : Source), source.Holds (rows * cols * wordSize) →
      (∀ n ∈ words, Arithmetic.word.holds n = true) →
      (words.flatMap wordBytes = source.bytes ↔ words = readWords source.bytes) := by
    intro words source hsource hwords
    constructor
    · intro hbytes
      rw [← hbytes, readWords_flatMap hwords]
    · rintro rfl
      exact flatMap_readWords (hsource.length ▸ Nat.dvd_mul_left _ _)
  refine and_congr (hiff _ nums hnums fun n hn => ?_) (hiff _ dens hdens fun n hn => ?_)
  · rcases List.mem_map.mp hn with ⟨a, ha, rfl⟩
    exact (hproper a ha).num_held
  · rcases List.mem_map.mp hn with ⟨a, ha, rfl⟩
    exact (hproper a ha).den_held

/-- A tableau of built fractions, the least words included, is written as two streams of four bytes for every
entry, and reading them covers up no error and yields an equal tableau, which is the same one if all
denominators are positive.  In the other direction, streams that are accepted are written again as they were if
and only if their pairs are coprime with positive denominators. -/
theorem stored_roundTrip :
    (∀ T : Tableau, T.Shaped → (∀ a ∈ T.entries, Fraction.Built .word a) → Addressable T →
      (writeTableau T {} {}).failed = false ∧
      (writeTableau T {} {}).numerators.bytes.length = 4 * (T.constraints + 1) * (T.columns + 1) ∧
      (writeTableau T {} {}).denominators.bytes.length =
        4 * (T.constraints + 1) * (T.columns + 1) ∧
      ∃ loaded, readTableau ⟨(writeTableau T {} {}).numerators.bytes, none⟩
          ⟨(writeTableau T {} {}).denominators.bytes, none⟩ (T.constraints + 1) (T.columns + 1) =
            .ok (.ok loaded) ∧
        loaded.covered = [] ∧ loaded.tableau.same .word T = .ok true ∧
        ((∀ a ∈ T.entries, 0 < a.den) → loaded.tableau = T)) ∧
    ∀ (nums dens : Source) (rows cols : ℕ) (loaded : Loaded),
      readTableau nums dens rows cols = .ok (.ok loaded) →
      (((writeTableau loaded.tableau {} {}).numerators.bytes = nums.bytes ∧
        (writeTableau loaded.tableau {} {}).denominators.bytes = dens.bytes) ↔
          ∀ pair ∈ (readWords nums.bytes).zip (readWords dens.bytes),
            0 < pair.2 ∧ Int.gcd pair.1 pair.2 = 1) := by
  refine ⟨fun T hT hbuilt hsize => ?_, fun nums dens rows cols loaded h => writeTableau_of_read h⟩
  have hcount : T.entries.toList.length = (T.constraints + 1) * (T.columns + 1) := hT
  have hentries : ∀ a ∈ T.entries.toList, Fraction.Proper .word a := fun a ha =>
    (hbuilt a (Array.mem_toList_iff.mp ha)).proper holds_one_word
  refine ⟨writeEntries_unlimited T.entries.toList rfl rfl, ?_, ?_, ?_⟩
  · rw [(writeTableau_bytes T).1, length_flatMap_wordBytes, numerators, List.length_map, hcount,
      Nat.mul_assoc]
    rfl
  · rw [(writeTableau_bytes T).2, length_flatMap_wordBytes, denominators, List.length_map, hcount,
      Nat.mul_assoc]
    rfl
  · rcases readTableau_of_written hT hentries hsize with ⟨loaded, hread, hcovered, hsame, hself⟩
    exact ⟨loaded, hread, hcovered, hsame, fun hpos =>
      hself fun a ha => hpos a (Array.mem_toList_iff.mp ha)⟩

/-- A row with a denominator that has no negation. -/
def leastDenominator : Tableau where
  columns := 1
  constraints := 0
  entries := #[⟨-1, -2147483648⟩, ⟨1, 2⟩]

/-- The row is read as an equal one that is stored differently; three quarters survive as they are, and two
quarters do not. -/
theorem stored_roundTrip_leastDenominator :
    (∃ loaded, readTableau ⟨(writeTableau leastDenominator {} {}).numerators.bytes, none⟩
        ⟨(writeTableau leastDenominator {} {}).denominators.bytes, none⟩ 1 2 = .ok (.ok loaded) ∧
      loaded.covered = [] ∧ loaded.tableau.same .word leastDenominator = .ok true ∧
      loaded.tableau.entries = #[⟨1, -2147483648⟩, ⟨1, 2⟩]) ∧
    (∃ loaded, readTableau ⟨[3, 0, 0, 0], none⟩ ⟨[4, 0, 0, 0], none⟩ 1 1 = .ok (.ok loaded) ∧
      (writeTableau loaded.tableau {} {}).numerators.bytes = [3, 0, 0, 0] ∧
      (writeTableau loaded.tableau {} {}).denominators.bytes = [4, 0, 0, 0]) ∧
    ∃ loaded, readTableau ⟨[2, 0, 0, 0], none⟩ ⟨[4, 0, 0, 0], none⟩ 1 1 = .ok (.ok loaded) ∧
      ¬((writeTableau loaded.tableau {} {}).numerators.bytes = [2, 0, 0, 0] ∧
        (writeTableau loaded.tableau {} {}).denominators.bytes = [4, 0, 0, 0]) := by
  refine ⟨?_, ?_, ?_⟩
  · have hbuilt : ∀ a ∈ leastDenominator.entries, Fraction.Built .word a := by
      have hleast : Fraction.Built .word ⟨-1, -2147483648⟩ :=
        @Fraction.Built.ofRatio .word 1 (-2147483648) _ (by decide) (by decide) (by decide +kernel)
      have hhalf : Fraction.Built .word ⟨1, 2⟩ :=
        @Fraction.Built.ofRatio .word 1 2 _ (by decide) (by decide) (by decide +kernel)
      simp [leastDenominator, hleast, hhalf]
    obtain ⟨-, -, -, loaded, hread, hcovered, hsame, -⟩ :=
      stored_roundTrip.1 leastDenominator (by decide) hbuilt (by decide)
    refine ⟨loaded, hread, hcovered, hsame, ?_⟩
    have hanswer : readTableau ⟨(writeTableau leastDenominator {} {}).numerators.bytes, none⟩
        ⟨(writeTableau leastDenominator {} {}).denominators.bytes, none⟩ 1 2 =
        .ok (.ok ⟨⟨1, 0, #[⟨1, -2147483648⟩, ⟨1, 2⟩]⟩, []⟩) := by
      decide +kernel
    rw [Except.ok.inj (Except.ok.inj (hread.symm.trans hanswer))]
  · have hread : readTableau ⟨[3, 0, 0, 0], none⟩ ⟨[4, 0, 0, 0], none⟩ 1 1 =
        .ok (.ok ⟨⟨0, 0, #[⟨3, 4⟩]⟩, []⟩) := by
      decide +kernel
    have hbytes := (stored_roundTrip.2 _ _ 1 1 _ hread).mpr (by decide +kernel)
    exact ⟨_, hread, hbytes⟩
  · have hread : readTableau ⟨[2, 0, 0, 0], none⟩ ⟨[4, 0, 0, 0], none⟩ 1 1 =
        .ok (.ok ⟨⟨0, 0, #[⟨1, 2⟩]⟩, []⟩) := by
      decide +kernel
    refine ⟨_, hread, fun hbytes => ?_⟩
    have hpairs := (stored_roundTrip.2 _ _ 1 1 _ hread).mp hbytes
    exact absurd hpairs (by decide +kernel)

end Binary
end ExactSimplex
