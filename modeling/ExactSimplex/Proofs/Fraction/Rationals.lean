import ExactSimplex.Proofs.Fraction.Exact
import ExactSimplex.Proofs.Fraction.Operations

/-!
# The field of fractions

In exact arithmetic the fractions that can be built at all are the reduced ones, so each of them is the
only fraction of its value.  On the values the operations are those of the ordered field of rational
numbers, where a quotient by zero is zero, and none of them ever fails.

Main results:

- Theorem {lit}`Fraction.Built.reduced`: whatever is built in exact arithmetic is reduced.
- Theorem {lit}`Fraction.atMost_iff`: the three-way comparison is the order of the values.
- Theorem {lit}`Fraction.exact_is_rational`: constructors, operations and comparison of built fractions.
-/

namespace ExactSimplex
namespace Fraction

variable {a b c : Fraction} {q : ℚ}

/-! ## Operations on reduced pairs -/

namespace Reduced

/-- An operation on rational numbers, carried over to reduced pairs. -/
theorem unary {op : Fraction → Calc Fraction} {f : ℚ → ℚ} (ha : a.Reduced)
    (hop : ∀ q, op (ofRat q) = .ok (ofRat (f q))) : op a = .ok (ofRat (f a.toRat)) := by
  rw [← hop, ofRat_toRat ha]

/-- An operation that is exact on fractions of rational numbers is so on reduced fractions. -/
theorem binary {op : Fraction → Fraction → Calc Fraction} {f : ℚ → ℚ → ℚ} (ha : a.Reduced)
    (hb : b.Reduced) (hop : ∀ p q, op (ofRat p) (ofRat q) = .ok (ofRat (f p q))) :
    op a b = .ok (ofRat (f a.toRat b.toRat)) := by
  rw [← hop, ofRat_toRat ha, ofRat_toRat hb]

/-- Zero is stored in one way only. -/
theorem eq_zero (ha : a.Reduced) (hnum : a.num = 0) : a = zero := by
  have hvalue : a.toRat = 0 := by
    unfold toRat
    rw [hnum, Int.cast_zero, zero_div]
  rw [← ofRat_toRat ha, hvalue, zero_eq_ofRat]

/-- Reduced fractions of the same value are equal. -/
theorem eq_of_toRat_eq (ha : a.Reduced) (hb : b.Reduced) (h : a.toRat = b.toRat) : a = b := by
  rw [← ofRat_toRat ha, h, ofRat_toRat hb]

/-- The test of equality decides whether reduced fractions are the same. -/
theorem eq_exact (ha : a.Reduced) (hb : b.Reduced) : eq .exact a b = .ok (decide (a = b)) := by
  have hvalues : (a.toRat = b.toRat) = (a = b) :=
    propext ⟨eq_of_toRat_eq ha hb, congrArg toRat⟩
  calc eq .exact a b = eq .exact (ofRat a.toRat) (ofRat b.toRat) := by
        rw [ofRat_toRat ha, ofRat_toRat hb]
    _ = .ok (decide (a.toRat = b.toRat)) := eq_ofRat a.toRat b.toRat
    _ = .ok (decide (a = b)) := by simp only [hvalues]

/-- The floor of a reduced fraction is that of its value. -/
theorem floor (ha : a.Reduced) : a.floor = ofRat ⌊a.toRat⌋ := by
  rw [← floor_ofRat, ofRat_toRat ha]

end Reduced

/-- A calculation that yields the fraction of a rational number yields a reduced fraction. -/
theorem reduced_of_eq_ok {calculation : Calc Fraction} (h : calculation = .ok (ofRat q))
    (ha : calculation = .ok a) : a.Reduced := by
  obtain rfl := Except.ok.inj (h.symm.trans ha)
  exact reduced_ofRat q

/-! ## Built fractions -/

/-- Whatever is built in exact arithmetic is reduced, by induction on how it is built. -/
theorem Built.reduced (ha : Built .exact a) : a.Reduced := by
  induction ha with
  | @ofInt n _ =>
      rw [ofInt_eq_ofRat]
      exact reduced_ofRat n
  | ofRatio _ _ h => exact reduced_of_eq_ok (ofRatio_exact _ _) h
  | add _ _ h iha ihb => exact reduced_of_eq_ok (iha.binary ihb add_ofRat) h
  | sub _ _ h iha ihb => exact reduced_of_eq_ok (iha.binary ihb sub_ofRat) h
  | mul _ _ h iha ihb => exact reduced_of_eq_ok (iha.binary ihb mul_ofRat) h
  | div _ _ h iha ihb => exact reduced_of_eq_ok (iha.binary ihb div_ofRat) h
  | checkedDiv _ _ h iha ihb =>
      exact reduced_of_eq_ok (iha.binary ihb div_ofRat) (div_of_checkedDiv h)
  | neg _ h iha => exact reduced_of_eq_ok (iha.unary neg_ofRat) h
  | abs _ h iha => exact reduced_of_eq_ok (iha.unary abs_ofRat) h
  | floor _ iha =>
      rw [iha.floor]
      exact reduced_ofRat _
  | fract _ h iha => exact reduced_of_eq_ok (iha.unary fract_ofRat) h

/-- The calculation yields a fraction that is built with the operations and stands for the number. -/
def Yields (calculation : Calc Fraction) (q : ℚ) : Prop :=
  ∃ a, calculation = .ok a ∧ Built .exact a ∧ a.toRat = q

/-- A calculation yields a rational number if it returns its fraction and only built fractions. -/
theorem yields_of_eq {calculation : Calc Fraction} (h : calculation = .ok (ofRat q))
    (hbuilt : ∀ a, calculation = .ok a → Built .exact a) : Yields calculation q :=
  ⟨ofRat q, h, hbuilt _ h, toRat_ofRat q⟩

/-- What is yielded is built and has the value. -/
theorem Yields.of_eq_ok {calculation : Calc Fraction} (h : Yields calculation q)
    (ha : calculation = .ok a) : Built .exact a ∧ a.toRat = q := by
  rcases h with ⟨b, hb, hbuilt, hvalue⟩
  obtain rfl := Except.ok.inj (hb.symm.trans ha)
  exact ⟨hbuilt, hvalue⟩

/-- An integer is yielded as it is. -/
theorem yields_ofInt (num : ℤ) : Yields (.ok (ofInt num)) num :=
  yields_of_eq (congrArg Except.ok (ofInt_eq_ofRat num)) fun a h => by
    obtain rfl := Except.ok.inj h
    exact .ofInt rfl

/-- A pair yields its quotient, which is zero if the denominator is. -/
theorem yields_ofRatio (num den : ℤ) : Yields (ofRatio .exact num den) (num / den) :=
  yields_of_eq (ofRatio_exact num den) fun _ => .ofRatio rfl rfl

section Operations

variable (ha : Built .exact a) (hb : Built .exact b)

include ha

/-- Negation is that of rational numbers. -/
theorem yields_neg : Yields (neg .exact a) (-a.toRat) :=
  yields_of_eq (ha.reduced.unary neg_ofRat) fun _ => ha.neg

theorem yields_abs : Yields (abs .exact a) |a.toRat| :=
  yields_of_eq (ha.reduced.unary abs_ofRat) fun _ => ha.abs

theorem yields_floor : Yields (.ok a.floor) ⌊a.toRat⌋ :=
  yields_of_eq (congrArg Except.ok ha.reduced.floor) fun b h => by
    obtain rfl := Except.ok.inj h
    exact ha.floor

theorem yields_fract : Yields (fract .exact a) (Int.fract a.toRat) :=
  yields_of_eq (ha.reduced.unary fract_ofRat) fun _ => ha.fract

include hb

/-- Addition is that of rational numbers. -/
theorem yields_add : Yields (add .exact a b) (a.toRat + b.toRat) :=
  yields_of_eq (ha.reduced.binary hb.reduced add_ofRat) fun _ => ha.add hb

theorem yields_sub : Yields (sub .exact a b) (a.toRat - b.toRat) :=
  yields_of_eq (ha.reduced.binary hb.reduced sub_ofRat) fun _ => ha.sub hb

theorem yields_mul : Yields (mul .exact a b) (a.toRat * b.toRat) :=
  yields_of_eq (ha.reduced.binary hb.reduced mul_ofRat) fun _ => ha.mul hb

/-- Division is that of rational numbers, with zero for a division by zero. -/
theorem yields_div : Yields (div .exact a b) (a.toRat / b.toRat) :=
  yields_of_eq (ha.reduced.binary hb.reduced div_ofRat) fun _ => ha.div hb

end Operations

/-! ## Errors -/

/-- The only pairs that are not stored are those with a zero denominator. -/
theorem tryOfRatio_eq (A : Arithmetic) (num den : ℤ) : tryOfRatio A num den =
    if den = 0 then .ok (.error (.zeroDenominator num)) else Except.ok <$> ofRatio A num den := by
  split
  · next hden =>
      rw [hden]
      rfl
  · next hden => rw [tryOfRatio_of_ne A hden, ofRatio_of_ne A hden]

/-- The only quotients that are refused are those by a zero fraction. -/
theorem checkedDiv_eq (A : Arithmetic) (a b : Fraction) : checkedDiv A a b =
    if b.isZero then .ok (.error (.divisionByZero a)) else Except.ok <$> div A a b := by
  unfold checkedDiv div tryDiv
  split
  · rfl
  · cases A.mul a.num b.den with
    | error fault => rfl
    | ok num =>
        cases A.mul a.den b.num with
        | error fault => rfl
        | ok den =>
            by_cases hden : den = 0
            · rw [hden]
              rfl
            · simp only [bind, Except.bind, tryOfRatio_eq, if_neg hden]
              cases ofRatio A num den <;> rfl

/-! ## Order -/

/-- Fractions of rational numbers are compared as these are. -/
theorem cmp_ofRat (p q : ℚ) : cmp .exact (ofRat p) (ofRat q) = .ok (compare p q) := by
  have hcompare : compare (p.num * q.den) (q.num * p.den) = compare p q := by
    rcases lt_trichotomy p q with hlt | rfl | hgt
    · rw [compare_lt_iff_lt.mpr hlt, compare_lt_iff_lt.mpr (Rat.lt_iff p q |>.mp hlt)]
    · rw [compare_eq_iff_eq.mpr rfl, compare_eq_iff_eq.mpr rfl]
    · rw [compare_gt_iff_gt.mpr hgt, compare_gt_iff_gt.mpr (Rat.lt_iff q p |>.mp hgt)]
  rw [← hcompare]
  rfl

/-- Reduced fractions are compared by their values. -/
theorem cmp_exact (ha : a.Reduced) (hb : b.Reduced) :
    cmp .exact a b = .ok (compare a.toRat b.toRat) := by
  rw [← cmp_ofRat, ofRat_toRat ha, ofRat_toRat hb]

/-- The comparison does not say that the first fraction is the greater one. -/
def AtMost (a b : Fraction) : Prop :=
  ∃ order, cmp .exact a b = .ok order ∧ order ≠ .gt

/-- The three-way comparison is the order of the values. -/
theorem atMost_iff (ha : a.Reduced) (hb : b.Reduced) : AtMost a b ↔ a.toRat ≤ b.toRat := by
  unfold AtMost
  rw [cmp_exact ha hb, ← compare_le_iff_le]
  simp

/-- Sums with the same fraction are in the order of the summands. -/
theorem AtMost.add (h : AtMost a b) (ha : Built .exact a) (hb : Built .exact b)
    (hc : Built .exact c) {s t : Fraction} (hs : Fraction.add .exact a c = .ok s)
    (ht : Fraction.add .exact b c = .ok t) : AtMost s t := by
  have hle := (atMost_iff ha.reduced hb.reduced).mp h
  rcases (yields_add ha hc).of_eq_ok hs with ⟨hs, hsum⟩
  rcases (yields_add hb hc).of_eq_ok ht with ⟨ht, htsum⟩
  rw [atMost_iff hs.reduced ht.reduced, hsum, htsum]
  exact add_le_add_left hle c.toRat

/-- Products with the same nonnegative fraction are in the order of the factors. -/
theorem AtMost.mul (h : AtMost a b) (hzero : AtMost zero c) (ha : Built .exact a)
    (hb : Built .exact b) (hc : Built .exact c) {s t : Fraction}
    (hs : Fraction.mul .exact a c = .ok s) (ht : Fraction.mul .exact b c = .ok t) :
    AtMost s t := by
  have hle := (atMost_iff ha.reduced hb.reduced).mp h
  have hnonneg := (atMost_iff reduced_zero hc.reduced).mp hzero
  rw [toRat_zero] at hnonneg
  rcases (yields_mul ha hc).of_eq_ok hs with ⟨hs, hproduct⟩
  rcases (yields_mul hb hc).of_eq_ok ht with ⟨ht, htproduct⟩
  rw [atMost_iff hs.reduced ht.reduced, hproduct, htproduct]
  exact mul_le_mul_of_nonneg_right hle hnonneg

/-! ## The ordered field -/

/-- What is read or built in exact arithmetic is stored in the only reduced form of its value, with a
positive denominator and zero as `0/1`; constructors and operations are those of the rational numbers on
the values, division by zero included, and the three-way comparison is their order. -/
theorem exact_is_rational (ha : Built .exact a) (hb : Built .exact b) (hc : Built .exact c)
    (num den : ℤ) :
    ((∀ source r, ofText .exact source = .ok (.ok r) → Built .exact r) ∧
      (∀ document r, ofJson .exact document = .ok (some r) → Built .exact r) ∧
      Built .exact zero ∧ Built .exact one ∧
      Yields (.ok (ofInt num)) num ∧ Yields (ofRatio .exact num den) (num / den) ∧
      ofRatio .exact num 0 = .ok zero ∧
      tryOfRatio .exact num den = if den = 0 then .ok (.error (.zeroDenominator num))
        else Except.ok <$> ofRatio .exact num den) ∧
    (0 < a.den ∧ Int.gcd a.num a.den = 1 ∧ (a.num = 0 → a = zero) ∧
      (a.toRat = b.toRat → a = b) ∧ eq .exact a b = .ok (decide (a = b))) ∧
    (Yields (add .exact a b) (a.toRat + b.toRat) ∧ Yields (sub .exact a b) (a.toRat - b.toRat) ∧
      Yields (mul .exact a b) (a.toRat * b.toRat) ∧ Yields (div .exact a b) (a.toRat / b.toRat) ∧
      div .exact a zero = .ok zero ∧
      checkedDiv .exact a b = (if b.isZero then .ok (.error (.divisionByZero a))
        else Except.ok <$> div .exact a b) ∧
      Yields (neg .exact a) (-a.toRat) ∧ Yields (abs .exact a) |a.toRat| ∧
      Yields (.ok a.floor) ⌊a.toRat⌋ ∧ Yields (fract .exact a) (Int.fract a.toRat)) ∧
    (cmp .exact a b = .ok (compare a.toRat b.toRat) ∧
      (AtMost a b ∨ AtMost b a) ∧ (AtMost a b → AtMost b a → a = b) ∧
      (AtMost a b → AtMost b c → AtMost a c) ∧
      (AtMost a b → ∀ s t, add .exact a c = .ok s → add .exact b c = .ok t → AtMost s t) ∧
      (AtMost a b → AtMost zero c → ∀ s t, mul .exact a c = .ok s → mul .exact b c = .ok t →
        AtMost s t)) := by
  have hatMost := atMost_iff ha.reduced hb.reduced
  refine ⟨⟨fun source r => built_of_ofText, fun document r => built_of_ofJson, .ofInt rfl, .ofInt rfl,
    yields_ofInt num, yields_ofRatio num den, rfl, tryOfRatio_eq .exact num den⟩, ?stored,
    ⟨yields_add ha hb, yields_sub ha hb, yields_mul ha hb, yields_div ha hb, rfl,
    checkedDiv_eq .exact a b, yields_neg ha, yields_abs ha, yields_floor ha, yields_fract ha⟩, ?order⟩
  case stored =>
    exact ⟨ha.reduced.den_pos, ha.reduced.coprime, ha.reduced.eq_zero,
      ha.reduced.eq_of_toRat_eq hb.reduced, ha.reduced.eq_exact hb.reduced⟩
  case order =>
    refine ⟨cmp_exact ha.reduced hb.reduced, ?_, ?_, ?_,
      fun h s t => h.add ha hb hc, fun h hzero s t => h.mul hzero ha hb hc⟩
    · rw [hatMost, atMost_iff hb.reduced ha.reduced]
      exact le_total a.toRat b.toRat
    · rw [hatMost, atMost_iff hb.reduced ha.reduced]
      exact fun hle hge => ha.reduced.eq_of_toRat_eq hb.reduced (le_antisymm hle hge)
    · rw [hatMost, atMost_iff hb.reduced hc.reduced, atMost_iff ha.reduced hc.reduced]
      exact le_trans

/-- Minus one third, three halves and two: a sum, a quotient, and doubled fractions in their order. -/
theorem exact_is_rational_thirds :
    Yields (add .exact ⟨-1, 3⟩ ⟨3, 2⟩) (7 / 6) ∧ Yields (div .exact ⟨-1, 3⟩ ⟨3, 2⟩) (-2 / 9) ∧
      AtMost ⟨5, 3⟩ ⟨7, 2⟩ ∧ AtMost ⟨-2, 3⟩ ⟨3, 1⟩ := by
  have hthird : Built .exact ⟨-1, 3⟩ := @Built.ofRatio .exact 1 (-3) _ rfl rfl rfl
  have hhalves : Built .exact ⟨3, 2⟩ := @Built.ofRatio .exact 6 4 _ rfl rfl rfl
  have htwo : Built .exact ⟨2, 1⟩ := .ofInt rfl
  have hle : AtMost ⟨-1, 3⟩ ⟨3, 2⟩ := ⟨.lt, by decide, by decide⟩
  have hnonneg : AtMost zero ⟨2, 1⟩ := ⟨.lt, by decide, by decide⟩
  rcases exact_is_rational hthird hhalves htwo 1 (-3) with
    ⟨-, -, ⟨hadd, -, -, hdiv, -⟩, -, -, -, -, hsum, hproduct⟩
  refine ⟨?_, ?_, hsum hle _ _ rfl rfl, hproduct hle hnonneg _ _ rfl rfl⟩
  · convert hadd using 1
    norm_num [toRat]
  · convert hdiv using 1
    norm_num [toRat]

end Fraction
end ExactSimplex
