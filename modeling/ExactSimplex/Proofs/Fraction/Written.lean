import ExactSimplex.Proofs.Fraction.StoredPairs

/-!
# Written fractions read back

A fraction is written with digits, minus signs and at most one slash, none of which is blank.  So trimming gives
back each written part, however many blanks stand around the parts, and the slash splits the text where it was
written.  What is read is the reduced form of the stored pair: the fraction itself, or an equal one where the
denominator is negative.

Main results:

- Theorem {lit}`Fraction.text_injective`: different pairs are written differently.
- Theorems {lit}`Fraction.ofText_of_integer` and {lit}`Fraction.ofText_of_pair`: an integer and a pair are read
  from every spaced form.
- Theorem {lit}`Fraction.ofText_text`: a stored fraction is read back.
-/

namespace ExactSimplex

open Calc

/-! ## Characters of written integers -/

namespace Text

/-- An integer is written without blanks. -/
theorem isBlank_of_mem_intText {n : ℤ} {c : Char} (h : c ∈ intText n) : isBlank c = false := by
  rcases mem_intText h with rfl | hdigit
  · decide
  · exact isBlank_of_isDigit hdigit

/-- The text of an integer has solid ends. -/
theorem solidEnds_intText (n : ℤ) : SolidEnds (intText n) :=
  .of_forall fun _ => isBlank_of_mem_intText

/-- A character that is neither a digit nor a minus sign does not occur. -/
theorem not_mem_intText {c : Char} (n : ℤ) (hminus : c ≠ '-') (hdigit : c.isDigit = false) :
    c ∉ intText n := by
  intro h
  rcases mem_intText h with rfl | hc
  · contradiction
  · simp [hdigit] at hc

/-- An integer is written without a slash. -/
theorem slash_not_mem_intText (n : ℤ) : '/' ∉ intText n :=
  not_mem_intText n (by decide) (by decide)

/-- There is no slash among blanks. -/
theorem Blank.slash_not_mem {space : List Char} (h : Blank space) : '/' ∉ space := by
  intro hslash
  have hblank := h '/' hslash
  contradiction

end Text

namespace Fraction

variable {A : Arithmetic} {a b : Fraction} {n num den : ℤ} {source : List Char}

/-! ## The written form -/

/-- A fraction with denominator one is written as its numerator. -/
theorem text_of_den_eq_one (h : a.den = 1) : a.text = Text.intText a.num := by
  simp [text, isInteger, h]

/-- Any other fraction is written with a slash. -/
theorem text_of_den_ne_one (h : a.den ≠ 1) :
    a.text = Text.intText a.num ++ '/' :: Text.intText a.den := by
  simp [text, isInteger, h]

/-- The slash tells whether a denominator was written. -/
theorem splitAtSlash_text (a : Fraction) :
    splitAtSlash a.text = if a.den = 1 then none else some (Text.intText a.num, Text.intText a.den) := by
  by_cases hden : a.den = 1
  · rw [text_of_den_eq_one hden, if_pos hden]
    exact splitAtSlash_of_not_mem (Text.slash_not_mem_intText _)
  · rw [text_of_den_ne_one hden, if_neg hden]
    exact splitAtSlash_append (Text.slash_not_mem_intText _) _

/-- Different pairs are written differently, whatever their signs and common factors. -/
theorem text_injective (h : a.text = b.text) : a = b := by
  have hsplit := splitAtSlash_text a
  rw [h, splitAtSlash_text] at hsplit
  rcases a with ⟨num, den⟩
  rcases b with ⟨num', den'⟩
  dsimp only at hsplit
  by_cases hden : den = 1 <;> by_cases hden' : den' = 1
  · rw [text_of_den_eq_one hden, text_of_den_eq_one hden'] at h
    have hnum : num = num' := Text.intText_injective h
    rw [hnum, hden, hden']
  · simp [hden, hden'] at hsplit
  · simp [hden, hden'] at hsplit
  · rw [if_neg hden, if_neg hden', Option.some.injEq, Prod.mk.injEq] at hsplit
    rw [Text.intText_injective hsplit.1, Text.intText_injective hsplit.2]

/-! ## Spaced texts -/

/-- The text with blanks added around it and, where it has a slash, around its first slash. -/
inductive Spaced : List Char → List Char → Prop
  | whole {text before after : List Char} : '/' ∉ text → Text.Blank before → Text.Blank after →
      Spaced text (before ++ (text ++ after))
  | parts {left right before beforeSlash afterSlash after : List Char} : '/' ∉ left → Text.Blank before →
      Text.Blank beforeSlash → Text.Blank afterSlash → Text.Blank after →
      Spaced (left ++ '/' :: right)
        (before ++ (left ++ (beforeSlash ++ '/' :: afterSlash ++ right) ++ after))

/-- No blank need be added to a written fraction. -/
theorem spaced_text (a : Fraction) : Spaced a.text a.text := by
  have hslash := Text.slash_not_mem_intText a.num
  have hblank := Text.blank_nil
  by_cases hden : a.den = 1
  · rw [text_of_den_eq_one hden]
    simpa using Spaced.whole hslash hblank hblank
  · rw [text_of_den_ne_one hden]
    simpa using @Spaced.parts _ (Text.intText a.den) _ _ _ _ hslash hblank hblank hblank hblank

/-- A part is read from its integer with blanks on both sides. -/
theorem readPart_spaced (hn : A.holds n = true) {before after : List Char} (hbefore : Text.Blank before)
    (hafter : Text.Blank after) : readPart A (before ++ (Text.intText n ++ after)) = .ok n := by
  rw [readPart, (Text.solidEnds_intText n).trim_between hbefore hafter, Text.readInt_intText hn]

/-- An integer is read from every spaced form. -/
theorem ofText_of_integer (hn : A.holds n = true) (h : Spaced (Text.intText n) source) :
    ofText A source = .ok (.ok (ofInt n)) := by
  have hsplit := splitAtSlash_of_not_mem (Text.slash_not_mem_intText n)
  generalize htext : Text.intText n = text at h
  cases h with
  | parts hleft _ _ _ _ =>
      rw [htext, splitAtSlash_append hleft] at hsplit
      cases hsplit
  | whole _ hbefore hafter =>
      subst htext
      have htrim := (Text.solidEnds_intText n).trim_between hbefore hafter
      have hpart := readPart_spaced hn Text.blank_nil Text.blank_nil
      rw [List.nil_append, List.append_nil] at hpart
      have hne : (Text.intText n).isEmpty = false := by simpa using Text.intText_ne_nil n
      simp only [ofText, htrim, hne, hsplit, hpart]
      rfl

/-- A pair with a slash is read from every spaced form. -/
theorem ofText_of_pair (hnum : A.holds num = true) (hden : A.holds den = true)
    (hpair : tryOfRatio A num den = .ok (.ok a))
    (h : Spaced (Text.intText num ++ '/' :: Text.intText den) source) : ofText A source = .ok (.ok a) := by
  have hsplit := splitAtSlash_append (Text.slash_not_mem_intText num) (Text.intText den)
  generalize htext : Text.intText num ++ '/' :: Text.intText den = text at h
  rw [htext] at hsplit
  cases h with
  | whole hnone _ _ =>
      rw [splitAtSlash_of_not_mem hnone] at hsplit
      cases hsplit
  | @parts left right before beforeSlash afterSlash after hleft hbefore hbeforeSlash hafterSlash hafter =>
      rw [splitAtSlash_append hleft, Option.some.injEq, Prod.mk.injEq] at hsplit
      obtain ⟨rfl, rfl⟩ := hsplit
      have hsolid := (Text.solidEnds_intText num).append (Text.solidEnds_intText den)
        (Text.intText_ne_nil num) (Text.intText_ne_nil den) (beforeSlash ++ '/' :: afterSlash)
      have hslash : '/' ∉ Text.intText num ++ beforeSlash := by
        simp [Text.slash_not_mem_intText, hbeforeSlash.slash_not_mem]
      have hparts : splitAtSlash (Text.trim (before ++ (Text.intText num ++
          (beforeSlash ++ '/' :: afterSlash ++ Text.intText den) ++ after))) =
          some (Text.intText num ++ beforeSlash, afterSlash ++ Text.intText den) := by
        rw [hsolid.trim_between hbefore hafter, ← splitAtSlash_append hslash]
        simp
      apply ofText_of_split hparts
      · exact readPart_spaced hnum Text.blank_nil hbeforeSlash
      · simpa using readPart_spaced hden hafterSlash Text.blank_nil
      · exact hpair

/-! ## Reading back -/

/-- A stored fraction is read back from its written form, and from every spaced form of it: as itself if its
denominator is positive, and as an equal fraction otherwise. -/
theorem ofText_text (hA : A.holds 1 = true) (hunchecked : ∀ bits, A ≠ .checked bits) (ha : Built A a) :
    ∃ b, ofText A a.text = .ok (.ok b) ∧ Fraction.eq A b a = .ok true ∧ (0 < a.den → b = a) ∧
      ∀ source, Spaced a.text source → ofText A source = .ok (.ok b) := by
  have hproper := ha.proper hA
  obtain ⟨b, hequal, hself, hread⟩ : ∃ b, Fraction.eq A b a = .ok true ∧ (0 < a.den → b = a) ∧
      ∀ source, Spaced a.text source → ofText A source = .ok (.ok b) := by
    by_cases hone : a.den = 1
    · rw [text_of_den_eq_one hone]
      have hinteger : ofInt a.num = a := by rw [ofInt, ← hone]
      refine ⟨a, eq_self hunchecked a, fun _ => rfl, fun source hsource => ?_⟩
      rw [ofText_of_integer hproper.num_held hsource, hinteger]
    · rw [text_of_den_ne_one hone]
      rcases hproper.exists_reduce hA hunchecked with ⟨b, hreduce, hequal⟩
      have hpair : tryOfRatio A a.num a.den = .ok (.ok b) := by
        rw [tryOfRatio_of_ne A hproper.den_ne_zero, hreduce]
        rfl
      refine ⟨b, hequal, fun hpos => ?_, fun source => ofText_of_pair hproper.num_held hproper.den_held hpair⟩
      rw [reduce_of_coprime hA hpos hproper.coprime] at hreduce
      exact (Except.ok.inj hreduce).symm
  exact ⟨b, hread a.text (spaced_text a), hequal, hself, hread⟩

/-- A least denominator stays negative when it is stored and loses its sign when it is read back. -/
theorem ofText_text_leastDenominator :
    Built (.wrapping 32) ⟨-1, -2147483648⟩ ∧
      ofText (.wrapping 32) "-1/-2147483648".toList = .ok (.ok ⟨1, -2147483648⟩) ∧
      Fraction.eq (.wrapping 32) ⟨1, -2147483648⟩ ⟨-1, -2147483648⟩ = .ok true ∧
      Built (.wrapping 32) ⟨-5, 2⟩ ∧
      ofText (.wrapping 32) "\u2003-5 /\t2\n".toList = .ok (.ok ⟨-5, 2⟩) := by
  have hA : (Arithmetic.wrapping 32).holds 1 = true := by decide +kernel
  have hunchecked := Arithmetic.wrapping_unchecked 32
  have hleast : Built (.wrapping 32) ⟨-1, -2147483648⟩ :=
    @Built.ofRatio _ 1 (-2147483648) _ (by decide +kernel) (by decide +kernel) (by decide +kernel)
  have hhalves : Built (.wrapping 32) ⟨-5, 2⟩ :=
    @Built.ofRatio _ (-5) 2 _ (by decide +kernel) (by decide +kernel) (by decide +kernel)
  have hpositive : ofText (.wrapping 32) "-1/-2147483648".toList = .ok (.ok ⟨1, -2147483648⟩) := by
    decide +kernel
  have hspaced : Spaced (Fraction.mk (-5) 2).text "\u2003-5 /\t2\n".toList :=
    @Spaced.parts "-5".toList "2".toList "\u2003".toList " ".toList "\t".toList "\n".toList
      (by decide) (by decide) (by decide) (by decide) (by decide)
  rcases ofText_text hA hunchecked hleast with ⟨b, hread, hequal, -, -⟩
  obtain rfl : b = ⟨1, -2147483648⟩ := Except.ok.inj (Except.ok.inj (hread.symm.trans hpositive))
  rcases ofText_text hA hunchecked hhalves with ⟨c, -, -, hself, hspaces⟩
  obtain rfl : c = ⟨-5, 2⟩ := hself (by decide)
  exact ⟨hleast, hread, hequal, hhalves, hspaces _ hspaced⟩

end Fraction
end ExactSimplex
