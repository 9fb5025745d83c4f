import AdaptiveTree.Value.Coercion

/-!
The operators. A comparison recycles the shorter operand and works at the operands' common
rank; it gives a scalar only for two scalars. Negation of truth works on logical values,
arithmetic negation on numbers.
-/

set_option autoImplicit false
set_option relaxedAutoImplicit false

namespace AdaptiveTree

inductive CompareOp where
  | eq
  | ne
  | lt
  | le
  | gt
  | ge
  deriving DecidableEq, Repr, Inhabited

inductive UnaryOp where
  | neg
  | not
  deriving DecidableEq, Repr, Inhabited

namespace CompareOp

def symbol : CompareOp → String
  | eq => "=="
  | ne => "!="
  | lt => "<"
  | le => "<="
  | gt => ">"
  | ge => ">="

def holds (op : CompareOp) (o : Ordering) : Bool :=
  match op with
  | eq => o = .eq
  | ne => o ≠ .eq
  | lt => o = .lt
  | le => o ≠ .gt
  | gt => o = .gt
  | ge => o ≠ .lt

end CompareOp

def UnaryOp.symbol : UnaryOp → String
  | neg => "-"
  | not => "!"

namespace Scalar

/-- The order of two elements that are not missing: logical values and integers by number,
and everything else as doubles. -/
def order? : Scalar → Scalar → Option Ordering
  | logical a, logical b => some (compare a.toInt.toInt b.toInt.toInt)
  | int a, int b => some (compare a.toInt b.toInt)
  | a, b => a.toDouble.compare? b.toDouble

/-- Missing as soon as one of the elements is. -/
def compareWith (op : CompareOp) (a b : Scalar) : Logical :=
  if a.isMissing || b.isMissing then .na
  else match order? a b with
    | some o => .ofBool (op.holds o)
    | none => .na

end Scalar

namespace Value

/-- The element at `index` when the value is repeated without end. -/
def recycled? (v : Value) (index : Nat) : Option Scalar := v.get? (index % v.length)

/-- The answers of a comparison, position by position, for operands of one rank. -/
def compareElements (op : CompareOp) (a b : Value) : List Logical :=
  (List.range (max a.length b.length)).map fun i ↦
    match a.recycled? i, b.recycled? i with
    | some x, some y => x.compareWith op y
    | _, _ => .na

def compareWith (op : CompareOp) (a b : Value) : Value :=
  match Rank.common a.rank b.rank with
  | none => logicals []
  | some r =>
    match a.coerce r, b.coerce r with
    | scalar x, scalar y => scalar (.logical (x.compareWith op y))
    | x, y =>
      if x.length = 0 ∨ y.length = 0 then logicals []
      else logicals (x.compareElements op y)

end Value

/-- The missing marker stays as it is. -/
def negateInt (i : Int32) : Int32 := if i = missingInt then i else -i

namespace Scalar

/-- Truth values are negated as integers. -/
def negate : Scalar → Scalar
  | logical l => int (negateInt l.toInt)
  | int i => int (negateInt i)
  | double d => double (-d)

end Scalar

namespace Value

def negate : Value → Value
  | null => null
  | scalar s => scalar s.negate
  | logicals items => ints (items.map fun l ↦ negateInt l.toInt)
  | ints items => ints (items.map negateInt)
  | doubles items => doubles (items.map fun d ↦ -d)

/-- Negation of truth; `null` gives an empty logical vector. -/
def complement (v : Value) : Value :=
  match v with
  | scalar s => scalar (.logical s.toLogical.not)
  | _ => logicals (v.elements.map fun s ↦ s.toLogical.not)

end Value

def UnaryOp.apply (op : UnaryOp) (v : Value) : Value :=
  match op with
  | neg => v.negate
  | not => v.complement

end AdaptiveTree
