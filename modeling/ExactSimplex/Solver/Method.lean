import ExactSimplex.Text.Blank

/-!
# Solution methods

Methods have a short code, under which they are reported, and several spellings under which they are
read, in any case and with blanks around them.

Main results:

- Theorem {lit}`Method.ofText_code`: every code is read as its method.
-/

namespace ExactSimplex

/-- The methods of the solver. -/
inductive Method where
  /-- The primal method from an identity in the tableau or a given basis. -/
  | simplex
  /-- Phase one, then the primal method. -/
  | twoPhase
  /-- The dual method from an identity in the tableau or a given basis. -/
  | dualSimplex
  /-- Cutting planes for an integral optimum. -/
  | cuttingPlane
  deriving Repr, DecidableEq

instance : Inhabited Method := ⟨.simplex⟩

/-- No method has the given name. -/
structure UnknownMethod where
  name : String
  deriving Repr, DecidableEq

/-- The report of an unknown method. -/
def UnknownMethod.message (e : UnknownMethod) : String :=
  let name := e.name
  s!"unknown method '{name}' (expected S, TPS, DS or CP)"

namespace Method

/-- The short code of a method. -/
def code : Method → String
  | .simplex => "S"
  | .twoPhase => "TPS"
  | .dualSimplex => "DS"
  | .cuttingPlane => "CP"

/-- The name of a method in documents. -/
def name : Method → String
  | .simplex => "Simplex"
  | .twoPhase => "TwoPhase"
  | .dualSimplex => "DualSimplex"
  | .cuttingPlane => "CuttingPlane"

/-- The lower-case spellings of a method, its code first. -/
def spellings : Method → List String
  | .simplex => ["s", "simplex"]
  | .twoPhase => ["tps", "two-phase", "two_phase", "twophase"]
  | .dualSimplex => ["ds", "dual", "dual-simplex", "dual_simplex"]
  | .cuttingPlane => ["cp", "cutting-plane", "cutting_plane", "gomory"]

/-- All methods. -/
def all : List Method := [.simplex, .twoPhase, .dualSimplex, .cuttingPlane]

/-- The method that a text spells; only ASCII letters have a case here. -/
def ofText (text : String) : Except UnknownMethod Method :=
  let spelling := String.ofList ((Text.trim text.toList).map Char.toLower)
  match all.find? fun method => method.spellings.contains spelling with
  | some method => .ok method
  | none => .error ⟨text⟩

/-- Every code is read as its method. -/
theorem ofText_code (method : Method) : ofText method.code = .ok method := by
  cases method <;> rfl

end Method
end ExactSimplex
