/-!
What a reader of source text looked for in vain. Only attempts at the furthest position
count, and an attempt that came down to several smaller ones stands for all of them.
-/

set_option autoImplicit false
set_option relaxedAutoImplicit false

namespace AdaptiveTree.Grammar

/-- What can be missing at a place in the source. -/
inductive Expected where
  | elseKeyword
  | comparisonOperator
  | endOfInput
  | expression
  | identifier
  | input
  | literal
  | statement
  | unaryOperator
  deriving DecidableEq, Repr, Inhabited

namespace Expected

def name : Expected → String
  | elseKeyword => "'else'"
  | comparisonOperator => "comparison operator"
  | endOfInput => "end of input"
  | expression => "expression"
  | identifier => "identifier"
  | input => "input"
  | literal => "literal"
  | statement => "statement"
  | unaryOperator => "unary operator"

/-- Everything that can be missing, by name. -/
def all : List Expected :=
  [elseKeyword, comparisonOperator, endOfInput, expression, identifier, input, literal,
    statement, unaryOperator]

/-- An enumeration in words. -/
def inWords : List Expected → String
  | [] => "something else"
  | [e] => e.name
  | [e, last] => e.name ++ " or " ++ last.name
  | e :: rest => e.name ++ ", " ++ inWords rest

end Expected

/-- The furthest position at which something was missing, and what was, in the order in which it
was tried. -/
structure Attempts where
  furthest : Nat
  expected : List Expected
  deriving DecidableEq, Repr, Inhabited

namespace Attempts

def none : Attempts := ⟨0, []⟩

def countAt (a : Attempts) (position : Nat) : Nat :=
  if a.furthest = position then a.expected.length else 0

/-- Notes that `e` was missing at a position at which `before` attempts had failed when `e` was
tried. It replaces the attempts made for its sake, unless there was exactly one. -/
def note (a : Attempts) (e : Expected) (position before : Nat) : Attempts :=
  if a.countAt position = before + 1 then a
  else if position < a.furthest then a
  else if a.furthest < position then ⟨position, [e]⟩
  else ⟨position, a.expected.take before ++ [e]⟩

/-- What was missing at the furthest position, each kind once and by name. -/
def missing (a : Attempts) : List Expected := Expected.all.filter (a.expected.contains ·)

end Attempts

end AdaptiveTree.Grammar
