import ExactSimplex.Problem.Json
import ExactSimplex.Proofs.Binary.Words
import ExactSimplex.Proofs.Fraction.Reread
import ExactSimplex.Proofs.Json.Spelling
import ExactSimplex.Proofs.Tableau.Rows
import ExactSimplex.Solver.Json
import Mathlib.Data.List.Forall2

/-!
# Records are read back

Fractions, tableaux, bases, solutions and problems are written as documents and read from their texts.
Reading reduces every pair anew, so a fraction comes back as an equal one, and as it is if its denominator
is positive.  A coefficient is told by the kind of its document, so it comes back as the same kind.

Main results:

- Theorem {lit}`Fraction.Proper.readsBack`: a fraction is read back from its record.
- Theorems {lit}`Tableau.readsBack`, {lit}`Solution.readsBack` and {lit}`Problem.readsBack`: so are
  tableaux, solutions and problems.
- Theorem {lit}`documents_readBack`: all of them are read back from their texts.
-/

namespace ExactSimplex

open Calc

variable {bits : ℕ} {α : Type}

/-- The record of a text, none if the text is no document. -/
def Json.readAs (read : Json → Calc (Option α)) (text : String) : Calc (Option α) :=
  match Json.ofText text.toList with
  | none => pure none
  | some document => read document

/-- Both texts of the document, compact and pretty, are read as one value of the given kind. -/
def Json.ReadsBack (document : Json) (read : Json → Calc (Option α)) (kind : α → Prop) : Prop :=
  ∃ value, readAs read document.toText = .ok (some value) ∧
    readAs read document.toPrettyText = .ok (some value) ∧ kind value

/-- A document that can be written down is read back from both of its texts. -/
theorem Json.Spellable.readsBack {d : Json} (hd : d.Spellable) {read : Json → Calc (Option α)}
    {value : α} {kind : α → Prop} (hread : read d = .ok (some value)) (hkind : kind value) :
    d.ReadsBack read kind := by
  refine ⟨value, ?_, ?_, hkind⟩
  · unfold Json.readAs Json.toText
    rwa [String.toList_ofList, hd.ofText_write]
  · unfold Json.readAs Json.toPrettyText
    rwa [String.toList_ofList, hd.ofText_writePretty]

/-! ## Documents that can be written -/

/-- A list of documents that can be written down can be written down. -/
theorem Json.spellable_list {f : α → Json} (h : ∀ a, (f a).Spellable) (l : List α) :
    (Json.array (l.map f)).Spellable := by
  refine .array fun item hitem => ?_
  rcases List.mem_map.mp hitem with ⟨a, -, rfl⟩
  exact h a

/-- The document of an integer can be written down. -/
theorem Json.spellable_ofInteger (A : Arithmetic) (n : ℤ) : (Json.ofInteger A n).Spellable := by
  cases A with
  | exact =>
      refine .array fun item hitem => ?_
      rcases List.mem_cons.mp hitem with rfl | hitem
      · exact .ofInt _
      · rw [List.mem_singleton.mp hitem]
        exact Json.spellable_list (fun limb : ℕ => .ofInt limb) _
  | wrapping bits => exact .ofInt n
  | checked bits => exact .ofInt n

/-- The document of a fraction can be written down. -/
theorem Fraction.spellable_toJson (A : Arithmetic) (a : Fraction) : (a.toJson A).Spellable := by
  refine Json.Spellable.ofMembers ?_
  simp [Json.spellable_ofInteger]

/-- The document of a basis can be written down. -/
theorem Basis.spellable_toJson (B : Basis) : B.toJson.Spellable :=
  Json.spellable_list (fun column : ℕ => .ofInt column) B.columns

/-- The document of a tableau can be written down. -/
theorem Tableau.spellable_toJson (A : Arithmetic) (T : Tableau) : (T.toJson A).Spellable := by
  refine Json.Spellable.ofMembers ?_
  simp [Json.Spellable.ofInt, Json.spellable_list (Fraction.spellable_toJson A)]

/-- The document of a solution can be written down. -/
theorem Solution.spellable_toJson (A : Arithmetic) (s : Solution) : (s.toJson A).Spellable := by
  have hobjective : (Json.ofOption (Fraction.toJson A) s.objectiveValue).Spellable := by
    cases s.objectiveValue with
    | none => exact .null
    | some a => exact a.spellable_toJson A
  refine Json.Spellable.ofMembers ?_
  simp [Json.ofString, Json.Spellable.string, hobjective, Basis.spellable_toJson,
    Json.spellable_list (Fraction.spellable_toJson A), Json.Spellable.ofInt]

/-- The document of a coefficient can be written down. -/
theorem Problem.spellable_coefficient (c : Coefficient) : (coefficientToJson c).Spellable := by
  cases c with
  | integer value => exact .ofInt value
  | text text => exact .string _
  | fraction value => exact value.spellable_toJson .word

/-- The document of a problem can be written down. -/
theorem Problem.spellable_toJson (P : Problem) : P.toJson.Spellable := by
  have hlist := Json.spellable_list spellable_coefficient
  have hrows := Json.spellable_list (fun row => hlist row) P.matrix
  refine Json.Spellable.ofMembers fun member hmember => ?_
  rcases List.mem_append.mp hmember with hmember | hmember
  · rcases List.mem_append.mp hmember with hmember | hmember
    · simp only [List.mem_cons, List.not_mem_nil, or_false] at hmember
      rcases hmember with rfl | rfl | rfl
      · exact hrows
      · exact hlist _
      · exact hlist _
    · have h := Option.mem_toList.mp hmember
      rcases Option.map_eq_some_iff.mp h with ⟨mode, -, rfl⟩
      exact .string _
  · have h := Option.mem_toList.mp hmember
    rcases Option.map_eq_some_iff.mp h with ⟨basis, -, rfl⟩
    exact Basis.spellable_toJson _

/-! ## Fractions -/

/-- What is read equals what was written, and it is the same pair if the denominator was positive. -/
structure Fraction.Rereads (bits : ℕ) (b a : Fraction) : Prop where
  equal : Fraction.eq (.wrapping bits) b a = .ok true
  same : 0 < a.den → b = a

section Fractions

variable (hA : (Arithmetic.wrapping bits).holds 1 = true)
include hA

/-- A fraction is read back from its record. -/
theorem Fraction.Proper.readsBack {a : Fraction} (ha : Proper (.wrapping bits) a) :
    ∃ b, Fraction.ofJson (.wrapping bits) (a.toJson (.wrapping bits)) = .ok (some b) ∧
      b.Rereads bits a := by
  rcases ha.reread hA with ⟨b, hreduce, hequal, hsame⟩
  refine ⟨b, ?_, hequal, hsame⟩
  unfold Fraction.ofJson
  rw [pairOfJson_toJson ha.num_held ha.den_held]
  dsimp only
  rw [ofRatio_of_ne _ ha.den_ne_zero, hreduce]
  rfl

/-- Fractions are read back one by one, by induction on their list. -/
theorem Fraction.listOfJson_toJson {l : List Fraction} (h : ∀ a ∈ l, Proper (.wrapping bits) a) :
    ∃ l', listOfJson (.wrapping bits) (l.map (toJson (.wrapping bits))) = .ok (some l') ∧
      List.Forall₂ (Rereads bits) l' l := by
  induction l with
  | nil => exact ⟨[], rfl, .nil⟩
  | cons a l ih =>
      rw [List.forall_mem_cons] at h
      rcases h.1.readsBack hA with ⟨b, hb, hrereads⟩
      rcases ih h.2 with ⟨l', hl', hall⟩
      refine ⟨b :: l', ?_, .cons hrereads hall⟩
      simp [listOfJson, hb, hl', bind, Except.bind, Functor.map, Except.map]

end Fractions

/-- Fractions that are read back are equal to those that were written, entry by entry. -/
theorem Fraction.sameEntries_of_rereads {l' l : List Fraction} (h : List.Forall₂ (Rereads bits) l' l) :
    Tableau.sameEntries (.wrapping bits) l' l = .ok true :=
  Tableau.sameEntries_of_forall₂ (h.imp fun _ _ hrereads => hrereads.equal)

/-! ## Tableaux and solutions -/

/-- What a tableau can hold: sizes that are indices and fractions of the arithmetic. -/
structure Tableau.Stored (A : Arithmetic) (T : Tableau) : Prop where
  columns : T.columns < Text.indexBound
  constraints : T.constraints < Text.indexBound
  entries : ∀ a ∈ T.entries, Fraction.Built A a

/-- The tableau that is read has the same sizes, and its fractions are those written, read back. -/
structure Tableau.Rereads (bits : ℕ) (U T : Tableau) : Prop where
  columns : U.columns = T.columns
  constraints : U.constraints = T.constraints
  entries : List.Forall₂ (Fraction.Rereads bits) U.entries.toList T.entries.toList

/-- A tableau that is read back is equal to the one that was written. -/
theorem Tableau.Rereads.same {U T : Tableau} (h : U.Rereads bits T) :
    U.same (.wrapping bits) T = .ok true := by
  unfold Tableau.same
  rw [if_pos ⟨h.columns, h.constraints⟩]
  exact Fraction.sameEntries_of_rereads h.entries

section Solutions

variable (hA : (Arithmetic.wrapping bits).holds 1 = true)
include hA

/-- A tableau is read back from its record. -/
theorem Tableau.readsBack {T : Tableau} (hT : T.Stored (.wrapping bits)) :
    ∃ U, Tableau.ofJson (.wrapping bits) (T.toJson (.wrapping bits)) = .ok (some U) ∧
      U.Rereads bits T := by
  have hlist : ∀ a ∈ T.entries.toList, Fraction.Proper (.wrapping bits) a := fun a ha =>
    (hT.entries a (Array.mem_toList_iff.mp ha)).proper hA
  rcases Fraction.listOfJson_toJson hA hlist with ⟨entries, hread, hrereads⟩
  have hfields : (T.toJson (.wrapping bits)).readFields 3 ["n", "m", "data"] =
      some [some (Json.ofInt T.columns), some (Json.ofInt T.constraints),
        some (.array (T.entries.toList.map (Fraction.toJson (.wrapping bits))))] := by
    simp [toJson, Json.ofMembers, Json.readFields, Json.lookup]
  refine ⟨⟨T.columns, T.constraints, entries.toArray⟩, ?_, rfl, rfl, hrereads⟩
  simp [ofJson, hfields, Json.readIndex_ofInt hT.columns, Json.readIndex_ofInt hT.constraints,
    Json.itemsOf, hread, bind, Except.bind, pure, Except.pure]

/-- The objective value is read back: none, or an equal fraction. -/
theorem Solution.objectiveOfJson_ofOption {objective : Option Fraction}
    (h : ∀ a, objective = some a → Fraction.Proper (.wrapping bits) a) :
    ∃ read, objectiveOfJson (.wrapping bits)
        (some (Json.ofOption (Fraction.toJson (.wrapping bits)) objective)) = .ok (some read) ∧
      Option.Rel (Fraction.Rereads bits) read objective := by
  cases objective with
  | none => exact ⟨none, rfl, .none⟩
  | some a =>
      rcases (h a rfl).readsBack hA with ⟨b, hb, hrereads⟩
      refine ⟨some b, ?_, .some hrereads⟩
      have hread : objectiveOfJson (.wrapping bits) (some (a.toJson (.wrapping bits))) =
          Option.map some <$> Fraction.ofJson (.wrapping bits) (a.toJson (.wrapping bits)) := rfl
      rw [Json.ofOption, hread, hb]
      rfl

end Solutions

/-- What a solution can hold: fractions of the arithmetic and indices. -/
structure Solution.Stored (A : Arithmetic) (s : Solution) : Prop where
  objectiveValue : ∀ a, s.objectiveValue = some a → Fraction.Built A a
  values : ∀ a ∈ s.values, Fraction.Built A a
  basis : ∀ column ∈ s.basis.columns, column < Text.indexBound
  cuts : s.cuts < Text.indexBound

/-- The solution that is read has the same status, basis and number of cuts, and its fractions are those
written, read back. -/
structure Solution.Rereads (bits : ℕ) (t s : Solution) : Prop where
  status : t.status = s.status
  objectiveValue : Option.Rel (Fraction.Rereads bits) t.objectiveValue s.objectiveValue
  basis : t.basis = s.basis
  values : List.Forall₂ (Fraction.Rereads bits) t.values s.values
  cuts : t.cuts = s.cuts

/-- An objective value that is read back is equal to the one that was written. -/
theorem Solution.sameObjective_of_rereads {read objective : Option Fraction}
    (h : Option.Rel (Fraction.Rereads bits) read objective) :
    sameObjective (.wrapping bits) read objective = .ok true := by
  cases h with
  | none => rfl
  | some hrereads => exact hrereads.equal

/-- A solution that is read back is equal to the one that was written. -/
theorem Solution.Rereads.same {t s : Solution} (h : t.Rereads bits s) :
    t.same (.wrapping bits) s = .ok true := by
  unfold Solution.same
  rw [if_pos ⟨h.status, h.basis, h.cuts⟩, sameObjective_of_rereads h.objectiveValue]
  exact Fraction.sameEntries_of_rereads h.values

/-- A solution is read back from its record. -/
theorem Solution.readsBack (hA : (Arithmetic.wrapping bits).holds 1 = true) {s : Solution}
    (hs : s.Stored (.wrapping bits)) :
    ∃ t, Solution.ofJson (.wrapping bits) (s.toJson (.wrapping bits)) = .ok (some t) ∧
      t.Rereads bits s := by
  rcases objectiveOfJson_ofOption hA fun a ha => (hs.objectiveValue a ha).proper hA with
    ⟨objective, hobjective, hobjectiveRereads⟩
  rcases Fraction.listOfJson_toJson hA fun a ha => (hs.values a ha).proper hA with
    ⟨values, hvalues, hrereads⟩
  have hbasis := Basis.ofJson_toJson hs.basis
  have hstatus : (Json.ofString s.status.name).readText.bind Status.ofName = some s.status := by
    simp [Json.ofString, Json.readText, Status.ofName_name]
  have hfields : (s.toJson (.wrapping bits)).readFields 5
      ["status", "objective_value", "basis", "values", "cuts"] =
      some [some (Json.ofString s.status.name),
        some (Json.ofOption (Fraction.toJson (.wrapping bits)) s.objectiveValue), some s.basis.toJson,
        some (.array (s.values.map (Fraction.toJson (.wrapping bits)))), some (Json.ofInt s.cuts)] := by
    simp [toJson, Json.ofMembers, Json.readFields, Json.lookup]
  refine ⟨⟨s.status, objective, s.basis, values, s.cuts⟩, ?_, rfl, hobjectiveRereads, rfl, hrereads,
    rfl⟩
  unfold ofJson
  rw [hfields]
  simp only [hstatus, hbasis, Json.itemsOf, Json.readIndex_ofInt hs.cuts, hobjective, hvalues]
  rfl

/-! ## Problems -/

/-- What a coefficient can hold: an integer of a word, any text, a fraction of words. -/
def Coefficient.Stored : Coefficient → Prop
  | .integer value => Arithmetic.word.holds value = true
  | .text _ => True
  | .fraction value => Fraction.Built .word value

/-- The coefficient that is read is of the same kind; integers and texts are the same, and a fraction is an
equal one. -/
inductive Coefficient.Rereads : Coefficient → Coefficient → Prop
  | integer (value : ℤ) : Rereads (.integer value) (.integer value)
  | text (text : String) : Rereads (.text text) (.text text)
  | fraction {b a : Fraction} : b.Rereads 32 a → Rereads (.fraction b) (.fraction a)

namespace Problem

/-- A word is far below the bound for numerals that are held as integers. -/
theorem natAbs_lt_wordBound {n : ℤ} (h : Arithmetic.word.holds n = true) :
    n.natAbs < Json.wordBound := by
  have hbounds := Arithmetic.holds_wrapping_iff.mp h
  have hhalf : Arithmetic.halfRange 32 = 2147483648 := rfl
  have hbound : Json.wordBound = 18446744073709551616 := rfl
  omega

/-- The record of a fraction is held as a value: its integers are words. -/
theorem isHeld_toJson {a : Fraction} (ha : Fraction.Proper .word a) (depth : ℕ) :
    (a.toJson .word).isHeld (depth + 1) = true := by
  have hnum := Json.isHeld_ofInt (natAbs_lt_wordBound ha.num_held) depth
  have hden := Json.isHeld_ofInt (natAbs_lt_wordBound ha.den_held) depth
  show Json.membersHeld depth [(some "numerator".toList, Json.ofInt a.num),
    (some "denominator".toList, Json.ofInt a.den)] = true
  simp [Json.membersHeld, hnum, hden]

/-- A coefficient is read back from its document. -/
theorem coefficientOfJson_toJson {outer : ℕ} (houter : outer < nestingLimit) {c : Coefficient}
    (hc : c.Stored) :
    ∃ d, coefficientOfJson outer (coefficientToJson c) = .ok (some d) ∧ d.Rereads c := by
  obtain ⟨depth, hdepth⟩ : ∃ depth, nestingLimit - outer = depth + 1 :=
    ⟨nestingLimit - outer - 1, by omega⟩
  cases c with
  | text text => exact ⟨_, coefficientOfJson_text outer text, .text text⟩
  | integer value =>
      have hheld := Json.isHeld_ofInt (natAbs_lt_wordBound hc) (nestingLimit - outer)
      refine ⟨_, ?_, .integer value⟩
      show coefficientOfJson outer (Json.ofInt value) = _
      unfold coefficientOfJson
      rw [hheld, if_pos rfl]
      show pure (((Json.ofInt value).readInt .word).map Coefficient.integer) = _
      rw [Json.readInt_ofInt hc]
      rfl
  | fraction value =>
      have hproper := Fraction.Built.proper Binary.holds_one_word hc
      rcases hproper.readsBack Binary.holds_one_word with ⟨b, hread, hrereads⟩
      have hb : Fraction.ofJson .word (value.toJson .word) = .ok (some b) := hread
      refine ⟨.fraction b, ?_, .fraction hrereads⟩
      show coefficientOfJson outer (value.toJson .word) = _
      unfold coefficientOfJson
      rw [hdepth, isHeld_toJson hproper depth, if_pos rfl]
      show Option.map Coefficient.fraction <$> Fraction.ofJson .word (value.toJson .word) = _
      rw [hb]
      rfl

/-- Coefficients are read back one by one, by induction on their list. -/
theorem coefficientsOfJson_toJson {outer : ℕ} (houter : outer < nestingLimit) {l : List Coefficient}
    (h : ∀ c ∈ l, c.Stored) :
    ∃ l', coefficientsOfJson outer (l.map coefficientToJson) = .ok (some l') ∧
      List.Forall₂ Coefficient.Rereads l' l := by
  induction l with
  | nil => exact ⟨[], rfl, .nil⟩
  | cons c l ih =>
      rw [List.forall_mem_cons] at h
      rcases coefficientOfJson_toJson houter h.1 with ⟨d, hd, hrereads⟩
      rcases ih h.2 with ⟨l', hl', hall⟩
      refine ⟨d :: l', ?_, .cons hrereads hall⟩
      simp [coefficientsOfJson, hd, hl', bind, Except.bind, Functor.map, Except.map]

/-- Rows are read back one by one, by induction on their list. -/
theorem rowsOfJson_toJson {outer : ℕ} (houter : outer + 1 < nestingLimit)
    {rows : List (List Coefficient)} (h : ∀ row ∈ rows, ∀ c ∈ row, c.Stored) :
    ∃ rows', rowsOfJson outer (rows.map fun row => .array (row.map coefficientToJson)) =
        .ok (some rows') ∧ List.Forall₂ (List.Forall₂ Coefficient.Rereads) rows' rows := by
  induction rows with
  | nil => exact ⟨[], rfl, .nil⟩
  | cons row rows ih =>
      rw [List.forall_mem_cons] at h
      rcases coefficientsOfJson_toJson houter h.1 with ⟨row', hrow', hrereads⟩
      rcases ih h.2 with ⟨rows', hrows', hall⟩
      refine ⟨row' :: rows', ?_, .cons hrereads hall⟩
      simp [rowsOfJson, vectorOfJson, Json.itemsOf, hrow', hrows', bind, Except.bind, Functor.map,
        Except.map]

/-- A coefficient that is read back is equal to the one that was written. -/
theorem sameCoefficient_of_rereads {d c : Coefficient} (h : d.Rereads c) :
    sameCoefficient d c = .ok true := by
  cases h with
  | integer value => simp [sameCoefficient, pure, Except.pure]
  | text text => simp [sameCoefficient, pure, Except.pure]
  | fraction hrereads => exact hrereads.equal

/-- So are the coefficients of a list, by induction on it. -/
theorem sameCoefficients_of_rereads {l' l : List Coefficient}
    (h : List.Forall₂ Coefficient.Rereads l' l) : sameCoefficients l' l = .ok true := by
  induction h with
  | nil => rfl
  | cons hrereads _ ih =>
      simp [sameCoefficients, sameCoefficient_of_rereads hrereads, ih, bind, Except.bind]

/-- So are the coefficients of all rows, by induction on them. -/
theorem sameRows_of_rereads {rows' rows : List (List Coefficient)}
    (h : List.Forall₂ (List.Forall₂ Coefficient.Rereads) rows' rows) :
    sameRows rows' rows = .ok true := by
  induction h with
  | nil => rfl
  | cons hrereads _ ih =>
      simp [sameRows, sameCoefficients_of_rereads hrereads, ih, bind, Except.bind]

/-- What a problem can hold: coefficients that can be stored and indices. -/
structure Stored (P : Problem) : Prop where
  matrix : ∀ row ∈ P.matrix, ∀ c ∈ row, c.Stored
  rightHandSide : ∀ c ∈ P.rightHandSide, c.Stored
  objective : ∀ c ∈ P.objective, c.Stored
  basis : ∀ basis, P.basis = some basis → ∀ column ∈ basis, column < Text.indexBound

/-- The problem that is read has equal coefficients of the same kinds, and the same method and basis. -/
structure Rereads (Q P : Problem) : Prop where
  matrix : List.Forall₂ (List.Forall₂ Coefficient.Rereads) Q.matrix P.matrix
  rightHandSide : List.Forall₂ Coefficient.Rereads Q.rightHandSide P.rightHandSide
  objective : List.Forall₂ Coefficient.Rereads Q.objective P.objective
  mode : Q.mode = P.mode
  basis : Q.basis = P.basis

/-- A problem that is read back is equal to the one that was written. -/
theorem Rereads.same {Q P : Problem} (h : Q.Rereads P) : Q.same P = .ok true := by
  unfold Problem.same
  rw [if_pos ⟨h.mode, h.basis⟩]
  simp [sameRows_of_rereads h.matrix, sameCoefficients_of_rereads h.rightHandSide,
    sameCoefficients_of_rereads h.objective, bind, Except.bind]

/-- The fields of the record of a problem: what is not given is absent. -/
theorem readFields_toJson (P : Problem) :
    P.toJson.readFields 3 ["A", "b", "c", "mode", "basis"] =
      some [some (.array (P.matrix.map fun row => .array (row.map coefficientToJson))),
        some (.array (P.rightHandSide.map coefficientToJson)),
        some (.array (P.objective.map coefficientToJson)),
        P.mode.map Json.ofString, P.basis.map fun basis => Basis.toJson ⟨basis⟩] := by
  rcases P with ⟨A, b, c, - | mode, - | basis⟩ <;>
    simp [toJson, Json.ofMembers, Json.readFields, Json.lookup]

/-- The code of a method, or none, is read back. -/
theorem readMode_toJson (mode : Option String) :
    Json.readOptional Json.readText (mode.map Json.ofString) = some mode := by
  cases mode with
  | none => rfl
  | some mode => simp [Json.readOptional, Json.ofString, Json.readText]

/-- A basis of indices, or none, is read back. -/
theorem basisOfJson_toJson {basis : Option (List ℕ)}
    (h : ∀ columns, basis = some columns → ∀ column ∈ columns, column < Text.indexBound) :
    basisOfJson (basis.map fun columns => Basis.toJson ⟨columns⟩) = some basis := by
  cases basis with
  | none => rfl
  | some columns =>
      have hread := Basis.ofJson_toJson (B := ⟨columns⟩) (h columns rfl)
      have hoptional : basisOfJson (some (Basis.toJson ⟨columns⟩)) =
          ((Basis.ofJson (Basis.toJson ⟨columns⟩)).map Basis.columns).map some := rfl
      rw [Option.map_some, hoptional, hread]
      rfl

/-- A problem is read back from its record. -/
theorem readsBack {P : Problem} (hP : P.Stored) : ∃ Q, ofJson P.toJson = .ok (some Q) ∧ Q.Rereads P := by
  have hdepth : 2 + 1 < nestingLimit := by decide
  have hdepth' : 2 < nestingLimit := by decide
  rcases rowsOfJson_toJson hdepth hP.matrix with ⟨matrix, hmatrix, hsameMatrix⟩
  rcases coefficientsOfJson_toJson hdepth' hP.rightHandSide with ⟨b, hb, hsameB⟩
  rcases coefficientsOfJson_toJson hdepth' hP.objective with ⟨c, hc, hsameC⟩
  refine ⟨⟨matrix, b, c, P.mode, P.basis⟩, ?_, hsameMatrix, hsameB, hsameC, rfl, rfl⟩
  unfold ofJson
  rw [readFields_toJson]
  simp only [Json.itemsOf, readMode_toJson, basisOfJson_toJson hP.basis, hmatrix, vectorOfJson, hb, hc]
  rfl

/-- The problem of a text is that of its document. -/
theorem ofText_of_readAs {text : String} {P : Problem} (h : Json.readAs ofJson text = .ok (some P)) :
    ofText text = .ok (.ok P) := by
  unfold Json.readAs at h
  unfold ofText
  cases hdocument : Json.ofText text.toList with
  | none =>
      rw [hdocument] at h
      cases h
  | some document =>
      rw [hdocument] at h
      dsimp only at h ⊢
      rw [h]
      rfl

end Problem

/-! ## All documents -/

/-- Fractions, tableaux, bases, solutions and problems are read back from their texts as equal ones.
Fractions with positive denominators, also those within the others, are read back as they are, and
coefficients as the same kind. -/
theorem documents_readBack (hA : (Arithmetic.wrapping bits).holds 1 = true) :
    (∀ a, Fraction.Built (.wrapping bits) a → (a.toJson (.wrapping bits)).ReadsBack
      (Fraction.ofJson (.wrapping bits)) fun b =>
        Fraction.eq (.wrapping bits) b a = .ok true ∧ (0 < a.den → b = a)) ∧
    (∀ T : Tableau, T.Stored (.wrapping bits) → (T.toJson (.wrapping bits)).ReadsBack
      (Tableau.ofJson (.wrapping bits)) fun U =>
        U.same (.wrapping bits) T = .ok true ∧ U.Rereads bits T) ∧
    (∀ B : Basis, (∀ column ∈ B.columns, column < Text.indexBound) → B.toJson.ReadsBack
      (fun document => pure (Basis.ofJson document)) (· = B)) ∧
    (∀ s : Solution, s.Stored (.wrapping bits) → (s.toJson (.wrapping bits)).ReadsBack
      (Solution.ofJson (.wrapping bits)) fun t =>
        t.same (.wrapping bits) s = .ok true ∧ t.Rereads bits s) ∧
    ∀ P : Problem, P.Stored → P.toJson.ReadsBack Problem.ofJson fun Q =>
      Problem.ofText P.toJson.toText = .ok (.ok Q) ∧ Q.same P = .ok true ∧ Q.Rereads P := by
  refine ⟨fun a ha => ?_, fun T hT => ?_, fun B hB => ?_, fun s hs => ?_, fun P hP => ?_⟩
  · rcases (ha.proper hA).readsBack hA with ⟨b, hb, hrereads⟩
    exact (a.spellable_toJson _).readsBack hb ⟨hrereads.equal, hrereads.same⟩
  · rcases Tableau.readsBack hA hT with ⟨U, hU, hrereads⟩
    exact (T.spellable_toJson _).readsBack hU ⟨hrereads.same, hrereads⟩
  · exact B.spellable_toJson.readsBack (congrArg Except.ok (Basis.ofJson_toJson hB)) rfl
  · rcases Solution.readsBack hA hs with ⟨t, ht, hrereads⟩
    exact (s.spellable_toJson _).readsBack ht ⟨hrereads.same, hrereads⟩
  · rcases Problem.readsBack hP with ⟨Q, hQ, hrereads⟩
    have hback : P.toJson.ReadsBack Problem.ofJson (· = Q) := P.spellable_toJson.readsBack hQ rfl
    rcases hback with ⟨R, htext, hpretty, rfl⟩
    exact ⟨R, htext, hpretty, Problem.ofText_of_readAs htext, hrereads.same, hrereads⟩

/-- A problem with all kinds of coefficients, a text of marks that are escaped, and a denominator that has
no negation. -/
def escapedProblem : Problem where
  matrix := [[.integer (-2147483648), .text "3/4"], [.text "\"\\\n", .fraction ⟨1, 2⟩]]
  rightHandSide := [.integer 1, .fraction ⟨-1, -2147483648⟩]
  objective := [.text "", .text "1"]
  mode := some "\t"
  basis := none

/-- The least denominator loses its sign, the half stays as it is, and so do all texts. -/
theorem documents_readBack_escapedProblem :
    (Arithmetic.wrapping 32).holds 1 = true ∧ escapedProblem.Stored ∧
      ∃ Q, Problem.ofText escapedProblem.toJson.toText = .ok (.ok Q) ∧
        Q.same escapedProblem = .ok true ∧
        Q = { escapedProblem with rightHandSide := [.integer 1, .fraction ⟨1, -2147483648⟩] } := by
  have hA : (Arithmetic.wrapping 32).holds 1 = true := by decide
  have hhalf : Fraction.Built .word ⟨1, 2⟩ :=
    @Fraction.Built.ofRatio .word 1 2 _ (by decide) (by decide) (by decide +kernel)
  have hleast : Fraction.Built .word ⟨-1, -2147483648⟩ :=
    @Fraction.Built.ofRatio .word 1 (-2147483648) _ (by decide) (by decide) (by decide +kernel)
  have hinteger : Arithmetic.word.holds (-2147483648) = true := by decide
  have hone : Arithmetic.word.holds 1 = true := by decide
  have hP : escapedProblem.Stored := by
    refine ⟨?_, ?_, ?_, nofun⟩ <;>
      simp [escapedProblem, Coefficient.Stored, hhalf, hleast, hinteger, hone]
  obtain ⟨-, -, -, -, hproblems⟩ := documents_readBack hA
  rcases hproblems escapedProblem hP with ⟨Q, htext, -, hofText, hsame, -⟩
  refine ⟨hA, hP, Q, hofText, hsame, ?_⟩
  have hanswer : Json.readAs Problem.ofJson escapedProblem.toJson.toText = .ok (some
      { escapedProblem with rightHandSide := [.integer 1, .fraction ⟨1, -2147483648⟩] }) := by
    decide +kernel
  exact Option.some.inj (Except.ok.inj (htext.symm.trans hanswer))

end ExactSimplex
