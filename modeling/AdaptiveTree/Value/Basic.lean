import AdaptiveTree.Double.Basic

/-!
Values: nothing at all, one element, or a vector of elements of one rank. A scalar and a
vector of length one are different values. Every rank has its own missing marker.
-/

set_option autoImplicit false
set_option relaxedAutoImplicit false

namespace AdaptiveTree

/-- A truth value that may be missing. -/
inductive Logical where
  | no
  | yes
  | na
  deriving DecidableEq, Repr, Inhabited

namespace Logical

def ofBool : Bool → Logical
  | true => yes
  | false => no

/-- `none` for the missing marker. -/
def toBool? : Logical → Option Bool
  | yes => some true
  | no => some false
  | na => none

def not : Logical → Logical
  | yes => no
  | no => yes
  | na => na

end Logical

/-- The missing marker of integers is the least one, which is therefore no number. -/
def missingInt : Int32 := Int32.minValue

/-- The kinds of elements, in the order in which coercion climbs. -/
inductive Rank where
  | logical
  | integer
  | double
  deriving DecidableEq, Repr, Inhabited

namespace Rank

def level : Rank → Nat
  | logical => 0
  | integer => 1
  | double => 2

instance : LE Rank := ⟨fun a b ↦ a.level ≤ b.level⟩

instance (a b : Rank) : Decidable (a ≤ b) := inferInstanceAs (Decidable (a.level ≤ b.level))

instance : Max Rank := ⟨fun a b ↦ if a ≤ b then b else a⟩

def name : Rank → String
  | logical => "logical"
  | integer => "integer"
  | double => "double"

/-- The rank at which two operands meet; one without a rank takes the other's. -/
def common : Option Rank → Option Rank → Option Rank
  | some a, some b => some (max a b)
  | some a, none => some a
  | none, b => b

end Rank

/-- One element. -/
inductive Scalar where
  | logical (l : Logical)
  | int (i : Int32)
  | double (d : Double)
  deriving DecidableEq, Repr, Inhabited

namespace Scalar

def rank : Scalar → Rank
  | logical _ => .logical
  | int _ => .integer
  | double _ => .double

/-- Every NaN counts as missing, not only the marker. -/
def isMissing : Scalar → Bool
  | logical l => l = .na
  | int i => i = missingInt
  | double d => d.isNaN

end Scalar

inductive Value where
  | null
  | scalar (s : Scalar)
  | logicals (items : List Logical)
  | ints (items : List Int32)
  | doubles (items : List Double)
  deriving DecidableEq, Repr, Inhabited

namespace Value

def ofBool (b : Bool) : Value := scalar (.logical (.ofBool b))

/-- The missing truth value. -/
def na : Value := scalar (.logical .na)

/-- `none` only for `null`; an empty vector has its rank. -/
def rank : Value → Option Rank
  | null => none
  | scalar s => some s.rank
  | logicals _ => some .logical
  | ints _ => some .integer
  | doubles _ => some .double

def isScalar : Value → Bool
  | scalar _ => true
  | _ => false

def elements : Value → List Scalar
  | null => []
  | scalar s => [s]
  | logicals items => items.map .logical
  | ints items => items.map .int
  | doubles items => items.map .double

def length (v : Value) : Nat := v.elements.length

def get? (v : Value) (index : Nat) : Option Scalar := v.elements[index]?

/-- An index past the end is not missing. -/
def isMissingAt (v : Value) (index : Nat) : Bool := (v.get? index).any Scalar.isMissing

/-- What messages call the value. -/
def kindName (v : Value) : String := (v.rank.map Rank.name).getD "NULL"

end Value

end AdaptiveTree
