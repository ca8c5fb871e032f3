import ExactSimplex.Proofs.Binary.RoundTrip
import ExactSimplex.Proofs.Fraction.Quotients
import ExactSimplex.Proofs.Tableau.Rows

/-!
# Which streams are loaded

Loading makes its checks in a fixed order: the size, the numerator stream, the denominator stream, and last the
shape.  A stream is only read up to one byte past its expected length, so a stream that is longer is refused for
its length even if it would break later, while one that breaks at or before the expected length is refused for
that.  Streams that pass all checks are loaded pair by pair; the only thing that can still stop this is a pair
that has no reduced form.

Main results:

- Theorem {lit}`Binary.getElem?_readWords`: the words of a stream by their offsets.
- Theorem {lit}`Binary.readTableau_eq_error_iff`: the defects of two streams, in the order of the checks.
- Theorem {lit}`Binary.Sound.loads`: a loaded tableau by its entries.
- Theorem {lit}`Binary.readTableau_answers`: which streams are loaded, as what, and why others are refused.
-/

namespace ExactSimplex
namespace Binary

open Calc

/-! ## Defects -/

/-- What is wrong with a stream that has to yield a number of bytes and end. -/
inductive StreamDefect (source : Source) (stream : CoefficientStream) (expected : ℕ) : LoadError → Prop
  /-- One byte more is taken, and no notice of what follows. -/
  | long : expected < source.bytes.length →
      StreamDefect source stream expected (.length stream expected (expected + 1))
  | broken {reason : String} : source.bytes.length ≤ expected → source.breaks = some reason →
      StreamDefect source stream expected (.io reason)
  | short : source.bytes.length < expected → source.breaks = none →
      StreamDefect source stream expected (.length stream expected source.bytes.length)

/-- What is wrong with two streams for a tableau of `rows` rows and `cols` columns, in the order of the
checks. -/
inductive Defect (nums dens : Source) (rows cols : ℕ) : LoadError → Prop
  | dimensions : 2 ^ 64 ≤ 4 * rows * cols → Defect nums dens rows cols (.dimensions rows cols)
  | numerators {e : LoadError} : 4 * rows * cols < 2 ^ 64 →
      StreamDefect nums .numerators (4 * rows * cols) e → Defect nums dens rows cols e
  | denominators {e : LoadError} : 4 * rows * cols < 2 ^ 64 → nums.Holds (4 * rows * cols) →
      StreamDefect dens .denominators (4 * rows * cols) e → Defect nums dens rows cols e
  | empty : rows = 0 ∨ cols = 0 → nums.Holds (4 * rows * cols) → dens.Holds (4 * rows * cols) →
      Defect nums dens rows cols (.shape .empty)

/-- Two streams hold what a tableau of `rows` rows and `cols` columns needs. -/
structure Sound (nums dens : Source) (rows cols : ℕ) : Prop where
  size_lt : 4 * rows * cols < 2 ^ 64
  rows_ne_zero : rows ≠ 0
  cols_ne_zero : cols ≠ 0
  numerators : nums.Holds (4 * rows * cols)
  denominators : dens.Holds (4 * rows * cols)

variable {source nums dens : Source} {stream : CoefficientStream} {expected rows cols : ℕ} {e : LoadError}

/-- A stream that is as it has to be has no defect. -/
theorem StreamDefect.not_holds (h : StreamDefect source stream expected e) : ¬source.Holds expected := by
  rintro ⟨hlength, hends⟩
  cases h with
  | long hlong => omega
  | broken _ hbreaks => simp [hends] at hbreaks
  | short hshort _ => omega

/-- A stream that does not hold exactly the expected bytes has a defect. -/
theorem exists_streamDefect (stream : CoefficientStream) (h : ¬source.Holds expected) :
    ∃ e, StreamDefect source stream expected e := by
  rcases Nat.lt_or_ge expected source.bytes.length with hlong | hle
  · exact ⟨_, .long hlong⟩
  · cases hbreaks : source.breaks with
    | some reason => exact ⟨_, .broken hle hbreaks⟩
    | none => exact ⟨_, .short (lt_of_le_of_ne hle fun heq => h ⟨heq, hbreaks⟩) hbreaks⟩

/-- The streams have a defect or hold what the tableau needs. -/
theorem sound_iff_not_defect : Sound nums dens rows cols ↔ ¬∃ e, Defect nums dens rows cols e := by
  constructor
  · rintro ⟨hsize, hrows, hcols, hnums, hdens⟩ ⟨e, hdefect⟩
    cases hdefect with
    | dimensions hlarge => omega
    | numerators _ h => exact h.not_holds hnums
    | denominators _ _ h => exact h.not_holds hdens
    | empty h _ _ => exact h.elim hrows hcols
  · intro h
    have hsize : 4 * rows * cols < 2 ^ 64 := by
      by_contra hlarge
      exact h ⟨_, .dimensions (not_lt.mp hlarge)⟩
    have hnums : nums.Holds (4 * rows * cols) := by
      by_contra hnums
      rcases exists_streamDefect .numerators hnums with ⟨e, he⟩
      exact h ⟨e, .numerators hsize he⟩
    have hdens : dens.Holds (4 * rows * cols) := by
      by_contra hdens
      rcases exists_streamDefect .denominators hdens with ⟨e, he⟩
      exact h ⟨e, .denominators hsize hnums he⟩
    exact ⟨hsize, fun hrows => h ⟨_, .empty (Or.inl hrows) hnums hdens⟩,
      fun hcols => h ⟨_, .empty (Or.inr hcols) hnums hdens⟩, hnums, hdens⟩

/-! ## Streams -/

/-- A stream is refused for its defect. -/
theorem StreamDefect.readStream (h : StreamDefect source stream expected e) :
    readStream source stream expected = .error e := by
  unfold Binary.readStream
  cases h with
  | long hlong =>
      have hne : ¬(source.bytes.take (expected + 1)).length = expected := by
        rw [List.length_take]
        omega
      rw [Source.take_of_le hlong]
      dsimp only
      rw [if_neg hne, List.length_take, Nat.min_eq_left hlong]
  | broken hle hbreaks =>
      unfold Source.take
      rw [if_neg (by omega), hbreaks]
  | short hshort hends =>
      unfold Source.take
      rw [if_neg (by omega), hends]
      exact if_neg hshort.ne

/-! ## Words by their offsets -/

/-- The word whose bytes start at an offset, the least significant byte first. -/
def Source.wordAt (source : Source) (offset : ℕ) : ℤ :=
  ofBytes (source.bytes.getD offset 0) (source.bytes.getD (offset + 1) 0)
    (source.bytes.getD (offset + 2) 0) (source.bytes.getD (offset + 3) 0)

/-- The words of a stream by their offsets, by induction on the words. -/
theorem getElem?_readWords {k : ℕ} (h : 4 * k + 4 ≤ source.bytes.length) :
    (readWords source.bytes)[k]? = some (source.wordAt (4 * k)) := by
  rcases source with ⟨bytes, breaks⟩
  dsimp only at h ⊢
  fun_induction readWords bytes generalizing k with
  | case1 a b c d rest ih =>
      cases k with
      | zero => rfl
      | succ k =>
          rw [List.length_cons, List.length_cons, List.length_cons, List.length_cons] at h
          rw [List.getElem?_cons_succ, ih (by omega)]
          rfl
  | case2 bytes hshort =>
      rcases bytes with _ | ⟨a, _ | ⟨b, _ | ⟨c, _ | ⟨d, rest⟩⟩⟩⟩
      · exact absurd h (by simp)
      · exact absurd h (by simp)
      · exact absurd h (by simp)
      · exact absurd h (by simp)
      · exact absurd rfl (hshort a b c d rest)

/-! ## Pairs of words -/

section Pairs

variable {ns ds : List ℤ} {fractions : List Fraction} {covered : List ArithmeticError}

/-- By induction on the words. -/
theorem length_of_pairWords (h : pairWords ns ds = .ok (fractions, covered)) :
    fractions.length = min ns.length ds.length := by
  induction ns generalizing ds fractions covered with
  | nil =>
      cases pure_eq_ok.mp h
      simp
  | cons num ns ih =>
      cases ds with
      | nil =>
          cases pure_eq_ok.mp h
          simp
      | cons den ds =>
          rcases pairWords_cons h with ⟨outcome, rest, errors, -, hrest, rfl⟩
          rw [List.length_cons, ih hrest, List.length_cons, List.length_cons, Nat.succ_min_succ]

/-- Every pair of words is read as its fraction, by induction on the words before it. -/
theorem getElem?_of_pairWords (h : pairWords ns ds = .ok (fractions, covered)) {k : ℕ} {num den : ℤ}
    (hnum : ns[k]? = some num) (hden : ds[k]? = some den) :
    ∃ a, Fraction.ofRatio .word num den = .ok a ∧ fractions[k]? = some a := by
  induction k generalizing ns ds fractions covered with
  | zero =>
      rcases ns with _ | ⟨first, ns⟩
      · cases hnum
      rcases ds with _ | ⟨first', ds⟩
      · cases hden
      cases hnum
      cases hden
      rcases pairWords_cons h with ⟨outcome, rest, errors, houtcome, -, rfl⟩
      exact ⟨_, map_eq_ok.mpr ⟨outcome, houtcome, rfl⟩, rfl⟩
  | succ k ih =>
      rcases ns with _ | ⟨first, ns⟩
      · cases hnum
      rcases ds with _ | ⟨first', ds⟩
      · cases hden
      rcases pairWords_cons h with ⟨outcome, rest, errors, -, hrest, rfl⟩
      exact ih hrest hnum hden

end Pairs

/-! ## Tableaux -/

/-- The bytes of a stream, counted as the loader does. -/
theorem mul_wordSize (rows cols : ℕ) : rows * cols * wordSize = 4 * rows * cols := by
  unfold wordSize
  ring

/-- Sizes that no address reaches are refused before anything is read. -/
theorem readStreams_of_large (h : 2 ^ 64 ≤ 4 * rows * cols) :
    readStreams nums dens rows cols = .error (.dimensions rows cols) := by
  have hbound : Text.indexBound = 2 ^ 64 := rfl
  unfold readStreams
  rw [mul_wordSize, hbound]
  exact if_pos h

/-- Streams whose bytes can be counted are read one after the other. -/
theorem readStreams_of_lt (h : 4 * rows * cols < 2 ^ 64) : readStreams nums dens rows cols = (do
    let words ← readStream nums .numerators (4 * rows * cols)
    let words' ← readStream dens .denominators (4 * rows * cols)
    .ok (words, words')) := by
  have hbound : Text.indexBound = 2 ^ 64 := rfl
  unfold readStreams
  rw [mul_wordSize, hbound]
  exact if_neg (not_le.mpr h)

/-- Streams with a defect are refused for it. -/
theorem Defect.readTableau (h : Defect nums dens rows cols e) :
    readTableau nums dens rows cols = .ok (.error e) := by
  cases h with
  | dimensions hlarge =>
      unfold Binary.readTableau
      rw [readStreams_of_large hlarge]
      rfl
  | numerators hlt hdefect =>
      unfold Binary.readTableau
      rw [readStreams_of_lt hlt, hdefect.readStream]
      rfl
  | denominators hlt hnums hdefect =>
      unfold Binary.readTableau
      rw [readStreams_of_lt hlt, readStream_eq_ok_iff.mpr ⟨hnums, rfl⟩, hdefect.readStream]
      rfl
  | empty hempty hnums hdens =>
      have hzero : 4 * rows * cols = 0 := by
        rcases hempty with rfl | rfl <;> simp
      rw [hzero] at hnums hdens
      have hnumBytes := List.length_eq_zero_iff.mp hnums.length
      have hdenBytes := List.length_eq_zero_iff.mp hdens.length
      unfold Binary.readTableau
      rw [readStreams_of_lt (by omega), hzero, readStream_eq_ok_iff.mpr ⟨hnums, rfl⟩,
        readStream_eq_ok_iff.mpr ⟨hdens, rfl⟩, hnumBytes, hdenBytes]
      have hentries : Tableau.ofEntries rows cols [] = .error .empty := if_pos hempty
      have hpairs : pairWords (readWords []) (readWords []) = .ok ([], []) := rfl
      refine bind_eq_ok.mpr ⟨_, hpairs, ?_⟩
      dsimp only
      rw [hentries]
      rfl

/-- Streams that hold what is needed are loaded pair by pair. -/
theorem Sound.readTableau (h : Sound nums dens rows cols) : readTableau nums dens rows cols =
    (fun pair => .ok ⟨⟨cols - 1, rows - 1, pair.1.toArray⟩, pair.2⟩) <$>
      pairWords (readWords nums.bytes) (readWords dens.bytes) := by
  have hsize : rows * cols * wordSize < Text.indexBound := by
    rw [mul_wordSize]
    exact h.size_lt
  have hnums := h.numerators
  have hdens := h.denominators
  rw [← mul_wordSize] at hnums hdens
  unfold Binary.readTableau
  rw [readStreams_eq_ok_iff.mpr ⟨hsize, hnums, hdens, rfl, rfl⟩]
  dsimp only
  cases hpairs : pairWords (readWords nums.bytes) (readWords dens.bytes) with
  | error fault => rfl
  | ok pair =>
      have hlength : rows * cols = pair.1.length := by
        rw [length_of_pairWords hpairs, length_readWords, length_readWords, hnums.length, hdens.length,
          Nat.min_self, Nat.mul_div_cancel _ (by decide)]
      have hentries : Tableau.ofEntries rows cols pair.1 = .ok ⟨cols - 1, rows - 1, pair.1.toArray⟩ := by
        unfold Tableau.ofEntries
        rw [if_neg (not_or.mpr ⟨h.rows_ne_zero, h.cols_ne_zero⟩), if_pos hlength]
      refine bind_eq_ok.mpr ⟨pair, rfl, ?_⟩
      dsimp only
      rw [hentries]
      rfl

/-- The pair of words of row `i` and column `j` among `cols` columns, as a fraction. -/
def ratioAt (nums dens : Source) (cols i j : ℕ) : Calc Fraction :=
  Fraction.ofRatio .word (nums.wordAt (4 * (i * cols + j))) (dens.wordAt (4 * (i * cols + j)))

/-- The tableau has `rows` rows and `cols` columns, and its entries are the fractions of the pairs of words. -/
structure Loads (nums dens : Source) (rows cols : ℕ) (T : Tableau) : Prop where
  shaped : T.Shaped
  constraints : T.constraints + 1 = rows
  columns : T.columns + 1 = cols
  get : ∀ i < rows, ∀ j < cols, T.get i j = ratioAt nums dens cols i j

/-- The words of sound streams by their offsets. -/
theorem Sound.getElem?_words (h : Sound nums dens rows cols) {k : ℕ} (hk : k < rows * cols) :
    (readWords nums.bytes)[k]? = some (nums.wordAt (4 * k)) ∧
      (readWords dens.bytes)[k]? = some (dens.wordAt (4 * k)) := by
  have hbytes := mul_wordSize rows cols
  unfold wordSize at hbytes
  have hnums := h.numerators.length
  have hdens := h.denominators.length
  exact ⟨getElem?_readWords (by omega), getElem?_readWords (by omega)⟩

/-- Sound streams have one word for each entry. -/
theorem Sound.length_words (h : Sound nums dens rows cols) :
    (readWords nums.bytes).length = rows * cols ∧ (readWords dens.bytes).length = rows * cols := by
  rw [length_readWords, length_readWords, h.numerators.length, h.denominators.length, ← mul_wordSize]
  exact ⟨Nat.mul_div_cancel _ (by decide), Nat.mul_div_cancel _ (by decide)⟩

/-- Whatever is loaded from sound streams has the fractions of their pairs. -/
theorem Sound.loads (h : Sound nums dens rows cols) {loaded : Loaded}
    (hread : Binary.readTableau nums dens rows cols = .ok (.ok loaded)) :
    Loads nums dens rows cols loaded.tableau := by
  rw [h.readTableau] at hread
  rcases map_eq_ok.mp hread with ⟨⟨fractions, covered⟩, hpairs, hloaded⟩
  cases hloaded
  have hrows : rows - 1 + 1 = rows := Nat.succ_pred h.rows_ne_zero
  have hcols : cols - 1 + 1 = cols := Nat.succ_pred h.cols_ne_zero
  refine ⟨?_, hrows, hcols, fun i hi j hj => ?_⟩
  · show fractions.toArray.size = (rows - 1 + 1) * (cols - 1 + 1)
    rw [hrows, hcols, List.size_toArray, length_of_pairWords hpairs, h.length_words.1, h.length_words.2,
      Nat.min_self]
  · rcases h.getElem?_words (Tableau.index_lt hi hj) with ⟨hnum, hden⟩
    rcases getElem?_of_pairWords hpairs hnum hden with ⟨a, ha, hentry⟩
    unfold Tableau.get Tableau.width ratioAt
    dsimp only
    rw [hcols, List.getElem?_toArray, hentry, ha]
    rfl

/-- Two tableaux with the fractions of the same pairs are the same. -/
theorem Loads.eq {T U : Tableau} (hT : Loads nums dens rows cols T) (hU : Loads nums dens rows cols U) :
    T = U := by
  rcases hT with ⟨hTshaped, rfl, rfl, hTget⟩
  rcases hU with ⟨hUshaped, hconstraints, hcolumns, hUget⟩
  refine hTshaped.eq_of_get hUshaped (Nat.succ.inj hconstraints) (Nat.succ.inj hcolumns) fun i hi j hj => ?_
  have hrow := Nat.lt_succ_of_le hi
  have hcolumn := Nat.lt_succ_of_le hj
  exact (hTget i hrow j hcolumn).trans (hUget i hrow j hcolumn).symm

/-- Only sound streams are loaded. -/
theorem sound_of_readTableau {loaded : Loaded}
    (h : Binary.readTableau nums dens rows cols = .ok (.ok loaded)) : Sound nums dens rows cols := by
  rw [sound_iff_not_defect]
  rintro ⟨e, hdefect⟩
  rw [hdefect.readTableau] at h
  cases h

end Binary
end ExactSimplex
