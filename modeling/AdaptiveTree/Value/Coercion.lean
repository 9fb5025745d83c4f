import AdaptiveTree.Value.Basic

/-!
Conversions between the ranks. Climbing keeps every element and the missing markers;
descending loses fractions, sizes or both, and what does not fit becomes missing.
-/

set_option autoImplicit false
set_option relaxedAutoImplicit false

namespace AdaptiveTree

namespace Logical

def toInt : Logical → Int32
  | no => 0
  | yes => 1
  | na => missingInt

def toDouble : Logical → Double
  | no => .zero
  | yes => .one
  | na => .na

end Logical

namespace Double

/-- The numbers that an integer element can hold, which leave out the missing marker. -/
def fitsInt (n : Int) : Bool := -2147483648 < n && n < 2147483648

/-- The whole part of a double; missing when it is no integer other than the marker. -/
def toInt32 (d : Double) : Int32 :=
  if d.isNaN then missingInt
  else if fitsInt d.truncate then Int32.ofInt d.truncate
  else missingInt

def toLogical (d : Double) : Logical :=
  if d.isNaN then .na else .ofBool (d.magnitude ≠ 0)

end Double

namespace Scalar

def toLogical : Scalar → Logical
  | logical l => l
  | int i => if i = missingInt then .na else .ofBool (i ≠ 0)
  | double d => d.toLogical

def toInt : Scalar → Int32
  | logical l => l.toInt
  | int i => i
  | double d => d.toInt32

def toDouble : Scalar → Double
  | logical l => l.toDouble
  | int i => if i = missingInt then .na else .ofInt i.toInt
  | double d => d

def coerce (r : Rank) (s : Scalar) : Scalar :=
  match r with
  | .logical => logical s.toLogical
  | .integer => int s.toInt
  | .double => double s.toDouble

/-- Both elements at the higher of their ranks. -/
def unify (a b : Scalar) : Scalar × Scalar :=
  (a.coerce (max a.rank b.rank), b.coerce (max a.rank b.rank))

end Scalar

namespace Value

/-- The vector of a rank that holds the given elements, each coerced. -/
def ofScalars (r : Rank) (items : List Scalar) : Value :=
  match r with
  | .logical => logicals (items.map Scalar.toLogical)
  | .integer => ints (items.map Scalar.toInt)
  | .double => doubles (items.map Scalar.toDouble)

/-- A scalar stays a scalar; `null` becomes an empty vector. -/
def coerce (r : Rank) : Value → Value
  | scalar s => scalar (s.coerce r)
  | v => ofScalars r v.elements

/-- The highest rank among the values; those without a rank do not count. -/
def highestRank (values : List Value) : Option Rank :=
  values.foldl (fun r v ↦ Rank.common r v.rank) none

end Value

end AdaptiveTree
