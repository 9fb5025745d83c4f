import AdaptiveTree.Expr

/-!
Operators by precedence: a minus binds tighter than any comparison, and a negation looser.
A sequence of operands and operators is climbed from left to right, and every operator takes
what binds tighter than itself.
-/

set_option autoImplicit false
set_option relaxedAutoImplicit false

namespace AdaptiveTree.Grammar

/-- An integer literal that is out of range, as it is written. -/
structure OversizedInteger where
  text : String
  span : Span
  deriving DecidableEq, Repr, Inhabited

/-- An expression as read, or the leftmost of its integer literals that is out of range. -/
abbrev Draft := Except OversizedInteger Expr

/-- An operator in front of an operand, and where it stands. -/
structure Sign where
  op : UnaryOp
  start : Nat
  deriving DecidableEq, Repr, Inhabited

structure Operand where
  signs : List Sign
  term : Draft
  deriving Inhabited

/-- An operand and the comparisons that follow it. -/
structure Chain where
  first : Operand
  rest : List (CompareOp × Operand)
  deriving Inhabited

/-- The strength with which comparisons hold their operands. -/
def comparePower : Nat := 20

def signPower : UnaryOp → Nat
  | .not => 10
  | .neg => 30

namespace Draft

def sign (s : Sign) (operand : Draft) : Draft := do
  let e ← operand
  return .unary s.op e ⟨s.start, e.span.stop⟩

def compare (op : CompareOp) (left right : Draft) : Draft := do
  let a ← left
  let b ← right
  return .compare op a b (a.span.combine b.span)

end Draft

/-- The comparisons behind an operand that have not been taken yet. -/
abbrev Tail := List (CompareOp × Operand)

mutual

/-- Reads an operand and what binds tighter than `power` behind it. A sign takes what binds
tighter than itself. The first argument bounds the depth of the recursion. -/
def climb : Nat → Nat → List Sign → Draft → Tail → Draft × Tail
  | 0, _, _, term, rest => (term, rest)
  | depth + 1, power, [], term, rest => extend depth power term rest
  | depth + 1, power, s :: signs, term, rest =>
    match climb depth (signPower s.op - 1) signs term rest with
    | (operand, rest') => extend depth power (.sign s operand) rest'

/-- Gives `left` the comparisons that bind tighter than `power`, from left to right. -/
def extend : Nat → Nat → Draft → Tail → Draft × Tail
  | 0, _, left, rest => (left, rest)
  | _ + 1, _, left, [] => (left, [])
  | depth + 1, power, left, (op, right) :: rest =>
    if power < comparePower then
      match climb depth comparePower right.signs right.term rest with
      | (operand, rest') => extend depth power (.compare op left operand) rest'
    else (left, (op, right) :: rest)

end

/-- Deep enough to climb a chain: every step down uses up a sign or a comparison, or goes from
an operand to the comparisons behind it. -/
def Chain.depth (c : Chain) : Nat :=
  c.rest.foldr (fun o n ↦ o.2.signs.length + 2 + n) (c.first.signs.length + 2)

/-- The expression that a chain stands for. -/
def Chain.toExpr (c : Chain) : Draft := (climb c.depth 0 c.first.signs c.first.term c.rest).1

end AdaptiveTree.Grammar
