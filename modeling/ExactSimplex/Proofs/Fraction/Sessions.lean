import ExactSimplex.Proofs.Fraction.Rationals
import ExactSimplex.Proofs.Fraction.Words

/-!
# Sessions of operations in words

A session performs operations on fractions one after the other; each works on given integers, a given text,
or values that came out before, in any order.  An operation forms at most one pair and reduces it, and takes
at most one floor.  So the form of the stored values carries over from step to step, and with it the success
of all divisions.

Main results:

- Theorem {lit}`Fraction.Operation.perform_eq`: an operation is its task and the reduction of that task.
- Theorem {lit}`Fraction.Operation.exists_task`: in words every operation forms its pair.
- Theorem {lit}`Fraction.Session.inWords`: all values of a session are in the form of words.
- Theorem {lit}`Fraction.session_divides`: no division of a session is undefined.
-/

namespace ExactSimplex
namespace Fraction

open Calc

/-! ## Operations -/

/-- The operations that produce fractions, with their arguments. -/
inductive Operation where
  | ofInt (n : ℤ)
  | ofRatio (num den : ℤ)
  | tryOfRatio (num den : ℤ)
  | ofText (source : List Char)
  | add (a b : Fraction)
  | sub (a b : Fraction)
  | mul (a b : Fraction)
  | div (a b : Fraction)
  | checkedDiv (a b : Fraction)
  | neg (a : Fraction)
  | abs (a : Fraction)
  | floor (a : Fraction)
  | fract (a : Fraction)

/-- What an operation has found before it reduces: its result, or the pair to reduce. -/
inductive Task where
  | done (value : Option Fraction)
  | reduction (num den : ℤ)
  deriving DecidableEq

/-- A pair to reduce, and the result in place of it if its denominator is zero. -/
def Task.ofPair (num den : ℤ) (failed : Option Fraction) : Task :=
  if den = 0 then .done failed else .reduction num den

/-- Reduces the pair of a task. -/
def Task.finish (A : Arithmetic) : Task → Calc (Option Fraction)
  | .done value => pure value
  | .reduction num den => some <$> reduce A num den

/-- The pair in a text, or the integer. -/
def textTask (A : Arithmetic) (source : List Char) : Task :=
  let trimmed := Text.trim source
  if trimmed.isEmpty then .done none
  else match splitAtSlash trimmed with
    | none => .done ((readPart A trimmed).toOption.map Fraction.ofInt)
    | some (left, right) =>
        match readPart A left, readPart A right with
        | .ok num, .ok den => .ofPair num den none
        | _, _ => .done none

namespace Operation

/-- The values that an operation works on. -/
def operands : Operation → List Fraction
  | add a b | sub a b | mul a b | div a b | checkedDiv a b => [a, b]
  | neg a | abs a | floor a | fract a => [a]
  | ofInt _ | ofRatio _ _ | tryOfRatio _ _ | ofText _ => []

/-- The integers that an operation is given. -/
def integers : Operation → List ℤ
  | ofInt n => [n]
  | ofRatio num den | tryOfRatio num den => [num, den]
  | _ => []

/-- The value that an operation takes the floor of. -/
def floored : Operation → Option Fraction
  | floor a | fract a => some a
  | _ => none

/-- Performs an operation; none if it answers with an error. -/
def perform (A : Arithmetic) : Operation → Calc (Option Fraction)
  | ofInt n => pure (some (Fraction.ofInt n))
  | ofRatio num den => some <$> Fraction.ofRatio A num den
  | tryOfRatio num den => Except.toOption <$> Fraction.tryOfRatio A num den
  | ofText source => Except.toOption <$> Fraction.ofText A source
  | add a b => some <$> Fraction.add A a b
  | sub a b => some <$> Fraction.sub A a b
  | mul a b => some <$> Fraction.mul A a b
  | div a b => some <$> Fraction.div A a b
  | checkedDiv a b => Except.toOption <$> Fraction.checkedDiv A a b
  | neg a => some <$> Fraction.neg A a
  | abs a => some <$> Fraction.abs A a
  | floor a => pure (some a.floor)
  | fract a => some <$> Fraction.fract A a

/-- The task of the difference of two values. -/
def subTask (A : Arithmetic) (a b : Fraction) : Calc Task := do
  let (left, right) ← cross A a b
  let num ← A.sub left right
  let den ← A.mul a.den b.den
  pure (.ofPair num den (some zero))

/-- The task of a quotient; `failed` stands for the quotient by zero. -/
def divTask (A : Arithmetic) (a b : Fraction) (failed : Option Fraction) : Calc Task :=
  if b.isZero then pure (.done failed)
  else do
    let num ← A.mul a.num b.den
    let den ← A.mul a.den b.num
    pure (.ofPair num den (some zero))

/-- The task of an operation. -/
def task (A : Arithmetic) : Operation → Calc Task
  | ofInt n => pure (.done (some (Fraction.ofInt n)))
  | ofRatio num den => pure (.ofPair num den (some zero))
  | tryOfRatio num den => pure (.ofPair num den none)
  | ofText source => pure (textTask A source)
  | add a b => do
      let (left, right) ← cross A a b
      let num ← A.add left right
      let den ← A.mul a.den b.den
      pure (.ofPair num den (some zero))
  | sub a b => subTask A a b
  | mul a b => do
      let num ← A.mul a.num b.num
      let den ← A.mul a.den b.den
      pure (.ofPair num den (some zero))
  | div a b => divTask A a b (some zero)
  | checkedDiv a b => divTask A a b none
  | neg a => (fun b => .done (some b)) <$> Fraction.neg A a
  | abs a => (fun b => .done (some b)) <$> Fraction.abs A a
  | floor a => pure (.done (some a.floor))
  | fract a => subTask A a a.floor

end Operation

variable {A : Arithmetic} {bits : ℕ} {op : Operation} {values : List Fraction}

/-! ## Tasks -/

/-- A pair without a substitute gives nothing where the denominator is zero. -/
theorem Task.finish_ofPair_none (num den : ℤ) :
    (Task.ofPair num den none).finish A = Except.toOption <$> tryOfRatio A num den := by
  unfold Task.ofPair tryOfRatio
  split
  · rfl
  · show some <$> reduce A num den = _
    cases reduce A num den <;> rfl

/-- A pair with zero as its substitute always gives a fraction. -/
theorem Task.finish_ofPair_zero (num den : ℤ) :
    (Task.ofPair num den (some zero)).finish A = some <$> ofRatio A num den := by
  unfold Task.ofPair ofRatio tryOfRatio
  split
  · rfl
  · show some <$> reduce A num den = _
    cases reduce A num den <;> rfl

/-- Finishing the task of a text reads the text. -/
theorem finish_textTask (source : List Char) :
    (textTask A source).finish A = Except.toOption <$> ofText A source := by
  unfold textTask ofText
  dsimp only
  split
  · rfl
  · rcases splitAtSlash (Text.trim source) with _ | ⟨left, right⟩
    · dsimp only
      cases readPart A (Text.trim source) <;> rfl
    · dsimp only
      rcases readPart A left with e | num
      · rfl
      · rcases readPart A right with e | den
        · rfl
        · dsimp only
          rw [Task.finish_ofPair_none]
          cases tryOfRatio A num den with
          | error fault => rfl
          | ok result => cases result <;> rfl

namespace Operation

/-- Finishing the task of a difference subtracts. -/
theorem finish_subTask (a b : Fraction) :
    (subTask A a b >>= Task.finish A) = some <$> Fraction.sub A a b := by
  simp only [subTask, sub_eq, bind_assoc, pure_bind, Task.finish_ofPair_zero, map_bind]

/-- The quotient, and what `failed` says about the quotient by zero. -/
theorem finish_divTask (a b : Fraction) (failed : Option Fraction) :
    (divTask A a b failed >>= Task.finish A) =
      if b.isZero then pure failed else some <$> Fraction.div A a b := by
  cases hb : b.isZero with
  | true => simp [divTask, hb, Task.finish]
  | false => simp [divTask, hb, div_eq A a hb, Task.finish_ofPair_zero]

/-- An operation is its task and the reduction of that task. -/
theorem perform_eq (A : Arithmetic) (op : Operation) :
    op.perform A = op.task A >>= Task.finish A := by
  cases op with
  | ofInt n => rfl
  | ofRatio num den => exact (Task.finish_ofPair_zero num den).symm
  | tryOfRatio num den => exact (Task.finish_ofPair_none num den).symm
  | ofText source => exact (finish_textTask source).symm
  | add a b =>
      simp only [perform, task, add_eq, bind_assoc, pure_bind, Task.finish_ofPair_zero, map_bind]
  | sub a b => exact (finish_subTask a b).symm
  | mul a b =>
      simp only [perform, task, mul_eq, bind_assoc, pure_bind, Task.finish_ofPair_zero, map_bind]
  | div a b =>
      simp only [perform, task, finish_divTask]
      split
      · next hb => rw [div_of_isZero A a hb]; rfl
      · rfl
  | checkedDiv a b =>
      simp only [perform, task, finish_divTask, checkedDiv_eq]
      split
      · rfl
      · cases Fraction.div A a b <;> rfl
  | neg a =>
      dsimp only [perform, task]
      cases Fraction.neg A a <;> rfl
  | abs a =>
      dsimp only [perform, task]
      cases Fraction.abs A a <;> rfl
  | floor a => rfl
  | fract a => exact (finish_subTask a a.floor).symm

end Operation

/-! ## Tasks in words -/

/-- A task in words: its result is in the form of words, or its pair can be given to a reduction. -/
def Task.InWords (bits : ℕ) : Task → Prop
  | .done value => ∀ a, value = some a → Fraction.InWords bits a
  | .reduction num den => (Arithmetic.wrapping bits).holds num = true ∧
      (Arithmetic.wrapping bits).holds den = true ∧ den ≠ 0

section Words

variable (hA : (Arithmetic.wrapping bits).holds 1 = true)

include hA

/-- Words store every result. -/
theorem exists_store (n : ℤ) : ∃ s, (Arithmetic.wrapping bits).store n = .ok s ∧
    (Arithmetic.wrapping bits).holds s = true :=
  ⟨_, rfl, (Arithmetic.safe_store hA n).1⟩

/-- In wrapping arithmetic every negation is defined. -/
theorem exists_neg (a : Fraction) : ∃ b, Fraction.neg (.wrapping bits) a = .ok b := by
  rcases exists_store hA (-a.num) with ⟨num, hnum, -⟩
  refine ⟨⟨num, a.den⟩, ?_⟩
  simp only [Fraction.neg, Arithmetic.neg, hnum, bind, Except.bind, pure, Except.pure]

/-- In wrapping arithmetic every absolute value is defined. -/
theorem exists_abs (a : Fraction) : ∃ b, Fraction.abs (.wrapping bits) a = .ok b := by
  unfold Fraction.abs
  split
  · exact exists_neg hA a
  · exact ⟨a, rfl⟩

theorem inWords_zero : InWords bits zero :=
  inWords_ofInt hA (Arithmetic.holds_zero hA)

/-- The task of a pair of words consists of words. -/
theorem Task.inWords_ofPair {num den : ℤ} (hnum : (Arithmetic.wrapping bits).holds num = true)
    (hden : (Arithmetic.wrapping bits).holds den = true) {failed : Option Fraction}
    (hfailed : failed = none ∨ failed = some zero) : (Task.ofPair num den failed).InWords bits := by
  unfold Task.ofPair
  split
  · rintro a rfl
    rcases hfailed with hfailed | hfailed
    · cases hfailed
    · obtain rfl := Option.some.inj hfailed
      exact inWords_zero hA
  · next hne => exact ⟨hnum, hden, hne⟩

/-- The task of a text consists of words. -/
theorem inWords_textTask (source : List Char) : (textTask (.wrapping bits) source).InWords bits := by
  unfold textTask
  dsimp only
  split
  · intro a ha
    cases ha
  · rcases splitAtSlash (Text.trim source) with _ | ⟨left, right⟩
    · dsimp only
      intro a ha
      rcases hpart : readPart (.wrapping bits) (Text.trim source) with e | n <;> rw [hpart] at ha
      · cases ha
      · obtain rfl := Option.some.inj ha
        exact inWords_ofInt hA (holds_of_readPart hpart)
    · dsimp only
      rcases hleft : readPart (.wrapping bits) left with e | num
      · intro a ha
        cases ha
      · rcases hright : readPart (.wrapping bits) right with e | den
        · intro a ha
          cases ha
        · exact Task.inWords_ofPair hA (holds_of_readPart hleft) (holds_of_readPart hright) (Or.inl rfl)

/-- A difference of words always has a task of words. -/
theorem Operation.exists_subTask (a b : Fraction) :
    ∃ task, Operation.subTask (.wrapping bits) a b = .ok task ∧ task.InWords bits := by
  rcases exists_store hA (a.num * b.den) with ⟨left, hleft, -⟩
  rcases exists_store hA (b.num * a.den) with ⟨right, hright, -⟩
  rcases exists_store hA (left - right) with ⟨num, hnum, hnumHeld⟩
  rcases exists_store hA (a.den * b.den) with ⟨den, hden, hdenHeld⟩
  refine ⟨_, ?_, Task.inWords_ofPair hA hnumHeld hdenHeld (Or.inr rfl)⟩
  simp only [Operation.subTask, cross, Arithmetic.mul, Arithmetic.sub, hleft, hright, hnum, hden, bind,
    Except.bind, pure, Except.pure]

/-- A quotient of words always has a task of words. -/
theorem Operation.exists_divTask (a b : Fraction) {failed : Option Fraction}
    (hfailed : failed = none ∨ failed = some zero) :
    ∃ task, Operation.divTask (.wrapping bits) a b failed = .ok task ∧ task.InWords bits := by
  unfold Operation.divTask
  split
  · refine ⟨_, rfl, fun c hc => ?_⟩
    rcases hfailed with rfl | rfl
    · cases hc
    · obtain rfl := Option.some.inj hc
      exact inWords_zero hA
  · rcases exists_store hA (a.num * b.den) with ⟨num, hnum, hnumHeld⟩
    rcases exists_store hA (a.den * b.num) with ⟨den, hden, hdenHeld⟩
    refine ⟨_, ?_, Task.inWords_ofPair hA hnumHeld hdenHeld (Or.inr rfl)⟩
    simp only [Arithmetic.mul, hnum, hden, bind, Except.bind, pure, Except.pure]

/-- In words every operation forms its pair. -/
theorem Operation.exists_task (hoperands : ∀ a ∈ op.operands, Fraction.InWords bits a)
    (hintegers : ∀ n ∈ op.integers, (Arithmetic.wrapping bits).holds n = true) :
    ∃ task, op.task (.wrapping bits) = .ok task ∧ task.InWords bits := by
  cases op with
  | ofInt n =>
      refine ⟨_, rfl, fun a ha => ?_⟩
      obtain rfl := Option.some.inj ha
      exact inWords_ofInt hA (hintegers n List.mem_cons_self)
  | ofRatio num den =>
      exact ⟨_, rfl, Task.inWords_ofPair hA (hintegers num (by simp [Operation.integers]))
        (hintegers den (by simp [Operation.integers])) (Or.inr rfl)⟩
  | tryOfRatio num den =>
      exact ⟨_, rfl, Task.inWords_ofPair hA (hintegers num (by simp [Operation.integers]))
        (hintegers den (by simp [Operation.integers])) (Or.inl rfl)⟩
  | ofText source => exact ⟨_, rfl, inWords_textTask hA source⟩
  | add a b =>
      rcases exists_store hA (a.num * b.den) with ⟨left, hleft, -⟩
      rcases exists_store hA (b.num * a.den) with ⟨right, hright, -⟩
      rcases exists_store hA (left + right) with ⟨num, hnum, hnumHeld⟩
      rcases exists_store hA (a.den * b.den) with ⟨den, hden, hdenHeld⟩
      refine ⟨_, ?_, Task.inWords_ofPair hA hnumHeld hdenHeld (Or.inr rfl)⟩
      simp only [Operation.task, cross, Arithmetic.mul, Arithmetic.add, hleft, hright, hnum, hden, bind,
        Except.bind, pure, Except.pure]
  -- Products and sums are stored whatever they are, so only the operands need to be words.
  | sub a b => exact Operation.exists_subTask hA a b
  | mul a b =>
      rcases exists_store hA (a.num * b.num) with ⟨num, hnum, hnumHeld⟩
      rcases exists_store hA (a.den * b.den) with ⟨den, hden, hdenHeld⟩
      refine ⟨_, ?_, Task.inWords_ofPair hA hnumHeld hdenHeld (Or.inr rfl)⟩
      simp only [Operation.task, Arithmetic.mul, hnum, hden, bind, Except.bind, pure, Except.pure]
  | div a b => exact Operation.exists_divTask hA a b (Or.inr rfl)
  | checkedDiv a b => exact Operation.exists_divTask hA a b (Or.inl rfl)
  | neg a =>
      rcases exists_neg hA a with ⟨b, hb⟩
      refine ⟨.done (some b), ?_, fun c hc => ?_⟩
      · dsimp only [Operation.task]
        rw [hb]
        rfl
      · obtain rfl := Option.some.inj hc
        exact (hoperands a List.mem_cons_self).neg hA hb
  | abs a =>
      rcases exists_abs hA a with ⟨b, hb⟩
      refine ⟨.done (some b), ?_, fun c hc => ?_⟩
      · dsimp only [Operation.task]
        rw [hb]
        rfl
      · obtain rfl := Option.some.inj hc
        exact (hoperands a List.mem_cons_self).abs hA hb
  | floor a =>
      refine ⟨_, rfl, fun b hb => ?_⟩
      obtain rfl := Option.some.inj hb
      exact (hoperands a List.mem_cons_self).floor hA
  | fract a => exact Operation.exists_subTask hA a a.floor

/-- A reduction in words fails only for two least words. -/
theorem exists_reduce {num den : ℤ} (hpair : (Task.reduction num den).InWords bits)
    (hleast : ¬(num = -Arithmetic.halfRange bits ∧ den = -Arithmetic.halfRange bits)) :
    ∃ a, reduce (.wrapping bits) num den = .ok a := by
  rcases hpair with ⟨hnum, hden, hne⟩
  cases hreduce : reduce (.wrapping bits) num den with
  | ok a => exact ⟨a, rfl⟩
  | error fault =>
      have hfault := reduce_wrapping_fault hA hnum hden hne hreduce
      exact absurd ⟨hfault.1, hfault.2.1⟩ hleast

/-- What a task in words comes to is in the form of words. -/
theorem Task.InWords.finish {task : Task} (htask : task.InWords bits) {a : Fraction}
    (h : task.finish (.wrapping bits) = .ok (some a)) : Fraction.InWords bits a := by
  cases task with
  | done value => exact htask a (pure_eq_ok.mp h)
  | reduction num den =>
      rcases htask with ⟨hnum, hden, hne⟩
      rcases map_eq_ok.mp h with ⟨b, hb, hsome⟩
      obtain rfl := Option.some.inj hsome
      exact inWords_of_reduce hA hnum hden hne hb

end Words

/-! ## Sessions -/

/-- The operation can be called in a session that has produced some values. -/
structure Operation.Fits (A : Arithmetic) (values : List Fraction) (op : Operation) : Prop where
  operands : ∀ a ∈ op.operands, a ∈ values
  integers : ∀ n ∈ op.integers, A.holds n = true

/-- The values that a session of operations has produced. -/
inductive Session (A : Arithmetic) : List Fraction → Prop
  | start : Session A []
  | perform {values : List Fraction} {op : Operation} {value : Option Fraction} :
      Session A values → op.Fits A values → op.perform A = .ok value →
        Session A (values ++ value.toList)

/-- All values of a session are in the form of words, by induction on the session. -/
theorem Session.inWords (hA : (Arithmetic.wrapping bits).holds 1 = true)
    (h : Session (.wrapping bits) values) : ∀ a ∈ values, InWords bits a := by
  induction h with
  | start => simp
  | perform _ hfits hperform ih =>
      rcases Operation.exists_task hA (fun a ha => ih a (hfits.operands a ha)) hfits.integers with
        ⟨task, htask, hform⟩
      rw [Operation.perform_eq, htask] at hperform
      intro a ha
      rcases List.mem_append.mp ha with ha | ha
      · exact ih a ha
      · obtain rfl := Option.mem_toList.mp ha
        exact hform.finish hA hperform

/-- The divisions of an operation are defined: those of its reduction and that of its floor. -/
structure Operation.Divides (A : Arithmetic) (op : Operation) : Prop where
  reduction : ∀ num den, op.task A = .ok (.reduction num den) →
    ∃ a, reduce A num den = .ok a ∧ reduceInWords A num den = some a
  floor : ∀ a, op.floored = some a → A.floorQuotient a.num a.den = some a.floor.num

/-- In a session on words of any width every value is held and coprime, its denominator is positive or a
negated power of two below an odd numerator, and zero has one form.  The next operation succeeds, with all
its divisions, unless it has to reduce a pair of two least words. -/
theorem session_divides (hbits : 2 ≤ bits) (h : Session (.wrapping bits) values) :
    (∀ a ∈ values, InWords bits a) ∧
      ∀ op : Operation, op.Fits (.wrapping bits) values →
        op.task (.wrapping bits) ≠
          .ok (.reduction (-Arithmetic.halfRange bits) (-Arithmetic.halfRange bits)) →
        (∃ value, op.perform (.wrapping bits) = .ok value) ∧ op.Divides (.wrapping bits) := by
  have hA := Arithmetic.holds_one_of_two_le hbits
  have hvalues := h.inWords hA
  refine ⟨hvalues, fun op hfits hleast => ?_⟩
  rcases Operation.exists_task hA (fun a ha => hvalues a (hfits.operands a ha)) hfits.integers with
    ⟨task, htask, hform⟩
  have hreduces : ∀ num den, task = .reduction num den →
      ∃ a, reduce (.wrapping bits) num den = .ok a := by
    rintro num den rfl
    refine exists_reduce hA hform fun ⟨hnum, hden⟩ => hleast ?_
    rw [htask, hnum, hden]
  refine ⟨?_, fun num den hpair => ?_, fun a ha => ?_⟩
  · rw [Operation.perform_eq, htask]
    cases task with
    | done value => exact ⟨value, rfl⟩
    | reduction num den =>
        rcases hreduces num den rfl with ⟨a, ha⟩
        refine ⟨some a, ?_⟩
        show some <$> reduce (.wrapping bits) num den = _
        rw [ha]
        rfl
  · obtain rfl := Except.ok.inj (htask.symm.trans hpair)
    rcases hreduces num den rfl with ⟨a, ha⟩
    exact ⟨a, ha, reduceInWords_of_eq_ok hA hform.1 hform.2.1 ha⟩
  · have hmem : a ∈ op.operands := by
      cases op <;> cases ha <;> exact List.mem_cons_self
    exact (hvalues a (hfits.operands a hmem)).floorQuotient_eq hA

/-- Three over the least word of 32 bits keeps the least word as its denominator, and its fractional part is
still formed without an undefined division. -/
theorem session_divides_least :
    ∃ a : Fraction, a.den = -2147483648 ∧ Session (.wrapping 32) [a] ∧ InWords 32 a ∧
      (∃ value, (Operation.fract a).perform (.wrapping 32) = .ok value) ∧
        (Operation.fract a).Divides (.wrapping 32) := by
  have hfits : (Operation.ofRatio 3 (-2147483648)).Fits (.wrapping 32) [] := ⟨by decide, by decide⟩
  have hperform : (Operation.ofRatio 3 (-2147483648)).perform (.wrapping 32) =
      .ok (some ⟨-3, -2147483648⟩) := by
    decide +kernel
  have hsession : Session (.wrapping 32) [⟨-3, -2147483648⟩] := .perform .start hfits hperform
  rcases session_divides (by decide) hsession with ⟨hvalues, hnext⟩
  refine ⟨_, rfl, hsession, hvalues _ List.mem_cons_self, hnext (.fract _) ⟨by decide, by decide⟩ ?_⟩
  decide +kernel

end Fraction
end ExactSimplex
