import ExactSimplex.Fraction.Json
import ExactSimplex.Fraction.Text
import ExactSimplex.Proofs.Fraction.Proper

/-!
# Operations on proper fractions

In every arithmetic the operations are safe on proper fractions and yield proper fractions, so whatever
is built with them is proper.  The results that a pivot needs in the basic columns come out exactly, even
where products and differences wrap.

Main results:

- Theorems {lit}`Fraction.safe_add`, {lit}`Fraction.safe_sub`, {lit}`Fraction.safe_mul` and
  {lit}`Fraction.safe_div`: the operations keep fractions proper.
- Theorem {lit}`Fraction.safe_div_self`: a nonzero fraction divided by itself is one.
- Theorem {lit}`Fraction.safe_sub_mul_one`: a fraction minus one times itself is zero.
- Theorem {lit}`Fraction.Built.proper`: what is built with the operations is proper.
- Theorems {lit}`Fraction.built_of_ofText` and {lit}`Fraction.built_of_ofJson`: so is what is read.
-/

namespace ExactSimplex
namespace Fraction

open Calc

variable {A : Arithmetic} {a b e : Fraction} {num den : ℤ}

/-! ## Operations as pairs to reduce -/

/-- A sum is one unreduced pair that is then reduced. -/
theorem add_eq (A : Arithmetic) (a b : Fraction) : add A a b = (do
    let (left, right) ← cross A a b
    let num ← A.add left right
    let den ← A.mul a.den b.den
    ofRatio A num den) := by
  simp only [add, tryAdd, ofRatio, map_bind]

/-- A difference is one unreduced pair that is then reduced. -/
theorem sub_eq (A : Arithmetic) (a b : Fraction) : sub A a b = (do
    let (left, right) ← cross A a b
    let num ← A.sub left right
    let den ← A.mul a.den b.den
    ofRatio A num den) := by
  simp only [sub, trySub, ofRatio, map_bind]

/-- A product is one unreduced pair that is then reduced. -/
theorem mul_eq (A : Arithmetic) (a b : Fraction) : mul A a b = (do
    let num ← A.mul a.num b.num
    let den ← A.mul a.den b.den
    ofRatio A num den) := by
  simp only [mul, tryMul, ofRatio, map_bind]

/-- A quotient is one unreduced pair that is then reduced. -/
theorem div_eq (A : Arithmetic) (a : Fraction) (hb : b.isZero = false) : div A a b = (do
    let num ← A.mul a.num b.den
    let den ← A.mul a.den b.num
    ofRatio A num den) := by
  simp only [div, tryDiv, ofRatio, hb, Bool.false_eq_true, if_false, map_bind]

/-- A division by zero is replaced by zero. -/
theorem div_of_isZero (A : Arithmetic) (a : Fraction) (hb : b.isZero = true) :
    div A a b = .ok zero := by
  unfold div tryDiv
  rw [hb]
  rfl

/-- The fractional part is the difference from the floor. -/
theorem fract_eq (A : Arithmetic) (a : Fraction) : fract A a = sub A a a.floor :=
  rfl

/-! ## Pairs -/

/-- A pair of integers that are held reduces to a proper fraction. -/
theorem safe_ofRatio (hA : A.holds 1 = true) (hnum : A.holds num = true) (hden : A.holds den = true) :
    Safe A (ofRatio A num den) (Proper A) := by
  by_cases hne : den = 0
  · rw [hne, ofRatio_zero]
    exact safe_pure (.zero hA)
  · rw [ofRatio_of_ne A hne]
    exact safe_reduce hA hnum hden hne

/-- A pair with a zero numerator reduces to zero. -/
theorem safe_ofRatio_zero (hA : A.holds 1 = true) (hden : A.holds den = true) :
    Safe A (ofRatio A 0 den) (· = zero) := by
  by_cases hne : den = 0
  · rw [hne, ofRatio_zero]
    exact safe_pure rfl
  · rw [ofRatio_of_ne A hne]
    exact safe_reduce_zero hA hden

/-- The two products over the common denominator. -/
theorem safe_cross (hA : A.holds 1 = true) (a b : Fraction) :
    Safe A (cross A a b) fun pair => A.holds pair.1 = true ∧ A.holds pair.2 = true ∧
      pair.1 ≡ a.num * b.den [ZMOD A.modulus] ∧ pair.2 ≡ b.num * a.den [ZMOD A.modulus] := by
  refine (A.safe_store hA (a.num * b.den)).bind fun left hleft => ?_
  refine (A.safe_store hA (b.num * a.den)).bind fun right hright => ?_
  exact safe_pure ⟨hleft.1, hright.1, hleft.2, hright.2⟩

/-! ## Proper results -/

/-- A sum is proper, whatever wraps. -/
theorem safe_add (hA : A.holds 1 = true) (a b : Fraction) : Safe A (add A a b) (Proper A) := by
  rw [add_eq]
  refine (safe_cross hA a b).bind fun ⟨left, right⟩ _ => ?_
  refine (A.safe_store hA (left + right)).bind fun num hnum => ?_
  refine (A.safe_store hA (a.den * b.den)).bind fun den hden => ?_
  exact safe_ofRatio hA hnum.1 hden.1

/-- A difference is proper, whatever wraps. -/
theorem safe_sub (hA : A.holds 1 = true) (a b : Fraction) : Safe A (sub A a b) (Proper A) := by
  rw [sub_eq]
  refine (safe_cross hA a b).bind fun ⟨left, right⟩ _ => ?_
  refine (A.safe_store hA (left - right)).bind fun num hnum => ?_
  refine (A.safe_store hA (a.den * b.den)).bind fun den hden => ?_
  exact safe_ofRatio hA hnum.1 hden.1

/-- A product is proper, whatever wraps. -/
theorem safe_mul (hA : A.holds 1 = true) (a b : Fraction) : Safe A (mul A a b) (Proper A) := by
  rw [mul_eq]
  refine (A.safe_store hA (a.num * b.num)).bind fun num hnum => ?_
  refine (A.safe_store hA (a.den * b.den)).bind fun den hden => ?_
  exact safe_ofRatio hA hnum.1 hden.1

/-- A quotient is proper, whatever wraps. -/
theorem safe_div (hA : A.holds 1 = true) (a b : Fraction) : Safe A (div A a b) (Proper A) := by
  cases hb : b.isZero with
  | true =>
      rw [div_of_isZero A a hb]
      exact safe_pure (.zero hA)
  | false =>
      rw [div_eq A a hb]
      refine (A.safe_store hA (a.num * b.den)).bind fun num hnum => ?_
      refine (A.safe_store hA (a.den * b.num)).bind fun den hden => ?_
      exact safe_ofRatio hA hnum.1 hden.1

/-- A fractional part is proper, whatever wraps. -/
theorem safe_fract (hA : A.holds 1 = true) (a : Fraction) : Safe A (fract A a) (Proper A) :=
  safe_sub hA a a.floor

/-- A negation keeps the denominator and the magnitude of the numerator. -/
theorem safe_neg (hA : A.holds 1 = true) (ha : Proper A a) :
    Safe A (neg A a) fun b => Proper A b ∧ (a = zero → b = zero) := by
  refine (A.safe_neg hA ha.num_held).bind fun num hnum => ?_
  have habs : num.natAbs = a.num.natAbs := by
    have := hnum.2.2
    omega
  refine safe_pure ⟨⟨hnum.1, ha.den_held, ha.den_ne_zero, ha.den_ne_neg_one, ?_⟩, ?_⟩
  · rw [← ha.coprime, Int.gcd_def, Int.gcd_def, habs]
  · rintro rfl
    obtain rfl : num = 0 := Int.natAbs_eq_zero.mp habs
    rfl

/-- The absolute value of a proper fraction is proper. -/
theorem safe_abs (hA : A.holds 1 = true) (ha : Proper A a) : Safe A (abs A a) (Proper A) := by
  unfold abs
  split
  · exact (safe_neg hA ha).imp fun b hb => hb.1
  · exact safe_pure ha

/-- The floor of a proper fraction is proper. -/
theorem Proper.floor (hA : A.holds 1 = true) (ha : Proper A a) : Proper A a.floor :=
  .ofInt hA (A.holds_fdiv hA ha.num_held ha.den_ne_zero ha.den_ne_neg_one)

/-! ## Tests -/

/-- A test of equality is safe. -/
theorem safe_eq (hA : A.holds 1 = true) (a b : Fraction) : Safe A (eq A a b) fun _ => True :=
  (safe_cross hA a b).bind fun _ _ => safe_pure trivial

/-- A comparison is safe. -/
theorem safe_lt (hA : A.holds 1 = true) (a b : Fraction) : Safe A (lt A a b) fun _ => True :=
  (safe_cross hA a b).bind fun _ _ => safe_pure trivial

/-- The test for one looks at the stored pair, and only the pair of one passes. -/
theorem isOne_eq (hA : A.holds 1 = true) (ha : Proper A a) : isOne A a = .ok (decide (a = one)) := by
  have hleft : A.mul a.num one.den = .ok a.num := A.mul_one_right hA ha.num_held
  have hright : A.mul one.num a.den = .ok a.den := A.mul_one_left hA ha.den_held
  have hiff : a.num = a.den ↔ a = one := by
    constructor
    · exact ha.eq_one
    · rintro rfl
      rfl
  simp only [isOne, eq, cross, hleft, hright, bind, Except.bind, pure, Except.pure]
  rw [beq_eq_decide, decide_eq_decide.mpr hiff]

/-! ## Exact results -/

/-- A nonzero fraction divided by itself is one, although its products may wrap. -/
theorem safe_div_self (hA : A.holds 1 = true) (ha : Proper A a) (hne : a.isZero = false) :
    Safe A (div A a a) (· = one) := by
  have hnum : a.num ≠ 0 := by simpa [isZero] using hne
  have hswap : A.mul a.den a.num = A.mul a.num a.den := by
    unfold Arithmetic.mul
    rw [mul_comm]
  rw [div_eq A a hne, hswap]
  refine ((A.safe_store hA (a.num * a.den)).with_eq).bind fun product hproduct => ?_
  have hrun : A.mul a.num a.den = .ok product := hproduct.1
  have hproductNe : product ≠ 0 := A.ne_zero_of_coprime hA ha.num_held ha.den_held hnum
    ha.den_ne_zero ha.coprime hproduct.2.2
  simp only [hrun, bind, Except.bind]
  rw [ofRatio_of_ne A hproductNe]
  exact safe_reduce_self hA hproduct.2.1 hproductNe

/-- Zero divided by a proper fraction is zero. -/
theorem safe_zero_div (hA : A.holds 1 = true) (ha : Proper A a) :
    Safe A (div A zero a) (· = zero) := by
  cases hne : a.isZero with
  | true =>
      rw [div_of_isZero A zero hne]
      exact safe_pure rfl
  | false =>
      have hnum : A.mul zero.num a.den = .ok 0 := A.mul_zero_left hA a.den
      have hden : A.mul zero.den a.num = .ok a.num := A.mul_one_left hA ha.num_held
      rw [div_eq A zero hne]
      simp only [hnum, hden, bind, Except.bind]
      exact safe_ofRatio_zero hA ha.num_held

/-- A product with zero is zero. -/
theorem safe_mul_zero (hA : A.holds 1 = true) (ha : Proper A a) :
    Safe A (mul A a zero) (· = zero) := by
  have hnum : A.mul a.num zero.num = .ok 0 := A.mul_zero_right hA a.num
  have hden : A.mul a.den zero.den = .ok a.den := A.mul_one_right hA ha.den_held
  rw [mul_eq]
  simp only [hnum, hden, bind, Except.bind]
  exact safe_ofRatio_zero hA ha.den_held

/-- A difference of equal products is zero, whatever the denominators are. -/
theorem safe_sub_of_cross (hA : A.holds 1 = true) {product : ℤ}
    (hcross : cross A a b = .ok (product, product)) : Safe A (sub A a b) (· = zero) := by
  have hnum : A.sub product product = .ok 0 := A.sub_same hA product
  rw [sub_eq]
  simp only [hcross, hnum, bind, Except.bind]
  refine Safe.bind (A.safe_store hA (a.den * b.den)) fun den hden => ?_
  exact safe_ofRatio_zero hA hden.1

/-- The difference of a fraction and itself is zero. -/
theorem safe_sub_self (hA : A.holds 1 = true) (a : Fraction) : Safe A (sub A a a) (· = zero) := by
  cases hproduct : A.mul a.num a.den with
  | error fault =>
      have hfault := (A.safe_store hA (a.num * a.den)).excused hproduct
      rw [sub_eq]
      simp only [cross, hproduct, bind, Except.bind]
      exact hfault
  | ok product =>
      have hcross : cross A a a = .ok (product, product) := by
        simp only [cross, hproduct, bind, Except.bind, pure, Except.pure]
      exact safe_sub_of_cross hA hcross

/-- Subtracting zero from zero or one changes nothing. -/
theorem safe_sub_zero (hA : A.holds 1 = true) (he : e = zero ∨ e = one) :
    Safe A (sub A e zero) (· = e) := by
  rcases he with rfl | rfl
  · exact safe_sub_self hA zero
  · have hleft : A.mul one.num zero.den = .ok 1 := A.mul_one_right hA hA
    have hright : A.mul zero.num one.den = .ok 0 := A.mul_zero_left hA 1
    have hnum : A.sub 1 0 = .ok 1 := A.sub_zero_right hA hA
    have hden : A.mul one.den zero.den = .ok 1 := A.mul_one_right hA hA
    rw [sub_eq]
    simp only [cross, hleft, hright, hnum, hden, bind, Except.bind, pure, Except.pure]
    rw [ofRatio_of_ne A one_ne_zero]
    exact safe_reduce_self hA hA one_ne_zero

/-- A nonzero fraction minus one times itself is zero.  The product may have lost its sign to a
denominator that has no negation, but the cross products agree up to multiples of the modulus. -/
theorem safe_sub_mul_one (hA : A.holds 1 = true) (ha : Proper A a) (hne : a.isZero = false) :
    Safe A (mul A a one >>= sub A a) (· = zero) := by
  have hnumNe : a.num ≠ 0 := by simpa [isZero] using hne
  have hnum : A.mul a.num one.num = .ok a.num := A.mul_one_right hA ha.num_held
  have hden : A.mul a.den one.den = .ok a.den := A.mul_one_right hA ha.den_held
  rw [mul_eq]
  simp only [hnum, hden]
  refine Safe.bind (P := fun p => SignMoved A a.num a.den (p.num, p.den)) ?_ fun p hp => ?_
  · show Safe A (ofRatio A a.num a.den) _
    rw [ofRatio_of_ne A ha.den_ne_zero]
    exact safe_reduce_coprime hA ha.num_held ha.den_held hnumNe ha.coprime
  -- Turning both signs at once changes neither product.
  · have hproducts : a.num * p.den ≡ p.num * a.den [ZMOD A.modulus] := by
      rcases hp.same_sign with ⟨hpnum, hpden⟩ | ⟨hpnum, hpden⟩
      · have hpnum' : p.num = a.num := hpnum
        have hpden' : p.den = a.den := hpden
        rw [hpnum', hpden']
      · calc a.num * p.den ≡ a.num * -a.den [ZMOD A.modulus] := hpden.mul_left a.num
          _ = -a.num * a.den := by ring
          _ ≡ p.num * a.den [ZMOD A.modulus] := (hpnum.mul_right a.den).symm
    cases hcross : cross A a p with
    | error fault =>
        have hfault := (safe_cross hA a p).excused hcross
        rw [sub_eq]
        simp only [hcross, bind, Except.bind]
        exact hfault
    | ok pair =>
        rcases pair with ⟨left, right⟩
        obtain ⟨hleft, hright, hleftMod, hrightMod⟩ := (safe_cross hA a p).of_eq_ok hcross
        obtain rfl : left = right := A.eq_of_modEq hA hleft hright
          (hleftMod.trans (hproducts.trans hrightMod.symm))
        exact safe_sub_of_cross hA hcross

/-- The fractional part of zero and of one is zero. -/
theorem safe_fract_unit (hA : A.holds 1 = true) (he : e = zero ∨ e = one) :
    Safe A (fract A e) (· = zero) := by
  have hfloor : e.floor = e := by
    rcases he with rfl | rfl <;> rfl
  rw [fract_eq, hfloor]
  exact safe_sub_self hA e

/-! ## Fractions built with the operations -/

/-- Fractions that come from integers and pairs of integers by the operations. -/
inductive Built (A : Arithmetic) : Fraction → Prop
  | ofInt {n : ℤ} : A.holds n = true → Built A (ofInt n)
  | ofRatio {num den : ℤ} {a : Fraction} : A.holds num = true → A.holds den = true →
      Fraction.ofRatio A num den = .ok a → Built A a
  | add {a b c : Fraction} : Built A a → Built A b → Fraction.add A a b = .ok c → Built A c
  | sub {a b c : Fraction} : Built A a → Built A b → Fraction.sub A a b = .ok c → Built A c
  | mul {a b c : Fraction} : Built A a → Built A b → Fraction.mul A a b = .ok c → Built A c
  | div {a b c : Fraction} : Built A a → Built A b → Fraction.div A a b = .ok c → Built A c
  | checkedDiv {a b c : Fraction} : Built A a → Built A b →
      Fraction.checkedDiv A a b = .ok (.ok c) → Built A c
  | neg {a b : Fraction} : Built A a → Fraction.neg A a = .ok b → Built A b
  | abs {a b : Fraction} : Built A a → Fraction.abs A a = .ok b → Built A b
  | floor {a : Fraction} : Built A a → Built A a.floor
  | fract {a b : Fraction} : Built A a → Fraction.fract A a = .ok b → Built A b

/-- Fractions that are the reduced forms of their own pairs are built. -/
theorem built_of_reduced {entries : Array Fraction} (h : ∀ a ∈ entries, A.holds a.num = true ∧
    A.holds a.den = true ∧ Fraction.ofRatio A a.num a.den = .ok a) : ∀ a ∈ entries, Built A a := by
  intro a ha
  rcases h a ha with ⟨hnum, hden, hreduced⟩
  exact .ofRatio hnum hden hreduced

/-- A checked quotient is the plain one. -/
theorem div_of_checkedDiv {c : Fraction} (h : checkedDiv A a b = .ok (.ok c)) :
    div A a b = .ok c := by
  rcases bind_eq_ok.mp h with ⟨quotient, hquotient, h⟩
  unfold div
  rw [hquotient]
  rcases quotient with (num | dividend) | c'
  · obtain rfl := Except.ok.inj (pure_eq_ok.mp h)
    rfl
  · cases pure_eq_ok.mp h
  · obtain rfl := Except.ok.inj (pure_eq_ok.mp h)
    rfl

/-- Whatever is built with the operations is proper, by induction on how it is built. -/
theorem Built.proper (hA : A.holds 1 = true) (ha : Built A a) : Proper A a := by
  induction ha with
  | ofInt hn => exact .ofInt hA hn
  | ofRatio hnum hden h => exact (safe_ofRatio hA hnum hden).of_eq_ok h
  | add _ _ h => exact (safe_add hA _ _).of_eq_ok h
  | sub _ _ h => exact (safe_sub hA _ _).of_eq_ok h
  | mul _ _ h => exact (safe_mul hA _ _).of_eq_ok h
  | div _ _ h => exact (safe_div hA _ _).of_eq_ok h
  | checkedDiv _ _ h => exact (safe_div hA _ _).of_eq_ok (div_of_checkedDiv h)
  | neg _ h ih => exact ((safe_neg hA ih).of_eq_ok h).1
  | abs _ h ih => exact (safe_abs hA ih).of_eq_ok h
  | floor _ ih => exact ih.floor hA
  | fract _ h => exact (safe_fract hA _).of_eq_ok h

/-! ## Fractions that are read -/

/-- The integer that is read from a part of a text is held. -/
theorem holds_of_readPart {part : List Char} {n : ℤ} (h : readPart A part = .ok n) :
    A.holds n = true := by
  unfold readPart at h
  split at h
  · next m hm =>
      obtain rfl := Except.ok.inj h
      exact (Option.filter_eq_some_iff.mp hm).2
  · cases h

/-- A fraction read from a text is built from the integers in it. -/
theorem built_of_ofText {source : List Char} (h : ofText A source = .ok (.ok a)) : Built A a := by
  unfold ofText at h
  dsimp only at h
  split at h
  · cases pure_eq_ok.mp h
  · split at h
    · cases hpart : readPart A (Text.trim source) with
      | error e =>
          rw [hpart] at h
          cases pure_eq_ok.mp h
      | ok n =>
          rw [hpart] at h
          obtain rfl := Except.ok.inj (pure_eq_ok.mp h)
          exact .ofInt (holds_of_readPart hpart)
    · split at h
      · cases pure_eq_ok.mp h
      · cases pure_eq_ok.mp h
      · next num den hnum hden =>
          rcases bind_eq_ok.mp h with ⟨result, hresult, h⟩
          cases result with
          | error e => cases pure_eq_ok.mp h
          | ok c =>
              obtain rfl := Except.ok.inj (pure_eq_ok.mp h)
              refine .ofRatio (holds_of_readPart hnum) (holds_of_readPart hden) ?_
              unfold Fraction.ofRatio
              rw [hresult]
              rfl

/-- The integer that is read from a document is held. -/
theorem holds_of_readInt {document : Json} {n : ℤ} (h : document.readInt A = some n) :
    A.holds n = true := by
  cases document with
  | number numeral =>
      simp only [Json.readInt] at h
      by_cases hrefused : (numeral.isNegativeZero && !Json.readsNegativeZero A) = true
      · rw [if_pos hrefused] at h
        cases h
      · rw [if_neg hrefused] at h
        exact (Option.filter_eq_some_iff.mp h).2
  | _ => cases h

/-- The integer that is read from a document of limbs is held. -/
theorem holds_of_readInteger {document : Json} {n : ℤ} (h : Json.readInteger A document = some n) :
    A.holds n = true := by
  cases A with
  | exact => rfl
  | wrapping bits => exact holds_of_readInt h
  | checked bits => exact holds_of_readInt h

/-- A fraction read from a document is built from the integers in it. -/
theorem built_of_ofJson {document : Json} (h : ofJson A document = .ok (some a)) : Built A a := by
  unfold ofJson at h
  split at h
  · cases pure_eq_ok.mp h
  · next num den hpair =>
      cases hratio : Fraction.ofRatio A num den with
      | error fault =>
          rw [hratio] at h
          cases h
      | ok c =>
          rw [hratio] at h
          obtain rfl := Option.some.inj (Except.ok.inj h)
          unfold pairOfJson at hpair
          simp only [Option.bind_eq_bind, Option.bind_eq_some_iff] at hpair
          rcases hpair with ⟨fields, -, hfields⟩
          split at hfields
          · simp only [Option.bind_eq_some_iff, Option.some.injEq, Prod.mk.injEq] at hfields
            rcases hfields with ⟨num', hnum, den', hden, rfl, rfl⟩
            exact .ofRatio (holds_of_readInteger hnum) (holds_of_readInteger hden) hratio
          · cases hfields

end Fraction
end ExactSimplex
