import AdaptiveTree.Operator
import AdaptiveTree.Fault

/-!
Equality tests with a constant, each for one shape of the other operand. A comparator is
chosen from the first operand seen; for that shape it answers as the general comparison
does, and any other shape it leaves to somebody else.
-/

set_option autoImplicit false
set_option relaxedAutoImplicit false

namespace AdaptiveTree

/-- What came of expecting a value of one form. -/
inductive Speculation (α : Type) where
  | hit (result : α)
  | miss (observed : Value)
  deriving DecidableEq, Repr

/-- The names give the scalar operand accepted and the form in which the constant is kept. -/
inductive Comparator where
  | doubleDouble (constant : Double)
  | intDouble (constant : Double)
  | intInt (constant : Int32)
  | logicalLogical (constant : Logical)
  | logicalInt (constant : Int32)
  deriving DecidableEq, Repr, Inhabited

namespace Comparator

/-- A logical operand is never compared with a double constant, and a vector with none. -/
def forShapes? (observed : Value) (constant : Scalar) : Option Comparator :=
  match observed, constant with
  | .scalar (.double _), c => some (doubleDouble c.toDouble)
  | .scalar (.int _), .double c => some (intDouble c)
  | .scalar (.int _), .int c => some (intInt c)
  | .scalar (.int _), .logical c => some (intInt c.toInt)
  | .scalar (.logical _), .logical c => some (logicalLogical c)
  | .scalar (.logical _), .int c => some (logicalInt c)
  | _, _ => none

/-- Whether the operand equals the constant, missing if one of them is; `none` for an operand
of another shape. -/
def answer? (k : Comparator) (operand : Value) : Option Logical :=
  match k, operand with
  | doubleDouble c, .scalar (.double v) =>
    some (if c.isNaN || v.isNaN then .na else .ofBool (v.sameValue c))
  | intDouble c, .scalar (.int v) =>
    some (if c.isNaN || v = missingInt then .na else .ofBool ((Double.ofInt v.toInt).sameValue c))
  | intInt c, .scalar (.int v) =>
    some (if c = missingInt ∨ v = missingInt then .na else .ofBool (v = c))
  | logicalLogical c, .scalar (.logical v) =>
    some (if c = .na ∨ v = .na then .na else .ofBool (v = c))
  | logicalInt c, .scalar (.logical v) =>
    some (if c = missingInt ∨ v = .na then .na else .ofBool (v.toInt = c))
  | _, _ => none

/-- A missing answer is a failure, since a branch has to be chosen. -/
def compare (k : Comparator) (operand : Value) : Except Fault (Speculation Bool) :=
  match k.answer? operand with
  | none => .ok (.miss operand)
  | some truth =>
    match truth.toBool? with
    | some holds => .ok (.hit holds)
    | none => .error .unexpectedNA

def name : Comparator → String
  | doubleDouble _ => "double-double"
  | intDouble _ => "int-double"
  | intInt _ => "int-int"
  | logicalLogical _ => "logical-logical"
  | logicalInt _ => "logical-int"

end Comparator

end AdaptiveTree
