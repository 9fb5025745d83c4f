import AdaptiveTree.Fault
import AdaptiveTree.Value.Coercion

/-!
The functions that every program has until it binds their names.
-/

set_option autoImplicit false
set_option relaxedAutoImplicit false

namespace AdaptiveTree

inductive Builtin where
  /-- Leaves the program with a value. -/
  | ret
  /-- Joins values to one vector. -/
  | combine
  | length
  | isNA
  deriving DecidableEq, Repr, Inhabited

namespace Builtin

def name : Builtin → String
  | ret => "return"
  | combine => "c"
  | length => "length"
  | isNA => "is.na"

def all : List Builtin := [ret, combine, length, isNA]

def lookup? (name : String) : Option Builtin := all.find? fun b ↦ b.name = name

def isName (name : String) : Bool := (lookup? name).isSome

def arityFault (b : Builtin) (given : Nat) : Fault :=
  .invalidArgument b.name ("expected 1 argument, got " ++ toString given)

/-- What `return` leaves with: its one argument, and nothing without one. -/
def returnValue : List Value → Except Fault Value
  | [] => .ok .null
  | [v] => .ok v
  | _ => .error (.invalidArgument ret.name "multi-argument returns are not permitted")

/-- The elements of all values at the highest rank among them. -/
def combineValues (args : List Value) : Value :=
  match Value.highestRank args with
  | none => .null
  | some r => .ofScalars r (args.flatMap Value.elements)

def lengthOf : List Value → Except Fault Value
  | [v] =>
    if v.length < 2147483648 then .ok (.scalar (.int (Int32.ofNat v.length)))
    else .error (.invalidArgument length.name "length does not fit in an integer")
  | args => .error (arityFault length args.length)

/-- Element by element; a scalar gives a scalar. -/
def missingness : List Value → Except Fault Value
  | [.scalar s] => .ok (.ofBool s.isMissing)
  | [v] => .ok (.logicals (v.elements.map fun s ↦ .ofBool s.isMissing))
  | args => .error (arityFault isNA args.length)

/-- The answer of a builtin, for `return` the value that it would leave with. -/
def answer : Builtin → List Value → Except Fault Value
  | ret, args => returnValue args
  | combine, args => .ok (combineValues args)
  | length, args => lengthOf args
  | isNA, args => missingness args

end Builtin

end AdaptiveTree
