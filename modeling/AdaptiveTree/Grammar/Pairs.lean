import AdaptiveTree.Grammar.Language

/-!
The rules of the grammar and what they match. Matching a source gives a tree of pairs: which rule
matched, which text, and what was matched inside of it. Rules that only bundle others leave no pair.
-/

set_option autoImplicit false
set_option relaxedAutoImplicit false

namespace AdaptiveTree.Grammar

open Reader

/-- The rules that leave a pair. -/
inductive Rule where
  | main
  | statements
  | assignment
  | expression
  | not
  | neg
  | eq
  | neq
  | le
  | ge
  | lt
  | gt
  | ifExpr
  | elseClause
  | elseKeyword
  | block
  | call
  | null
  | na
  | boolean
  | integer
  | double
  | ident
  | endOfInput
  deriving DecidableEq, Repr, Inhabited

namespace Rule

def name : Rule → String
  | main => "main"
  | statements => "statements"
  | assignment => "assignment"
  | expression => "expression"
  | not => "not"
  | neg => "neg"
  | eq => "eq"
  | neq => "neq"
  | le => "le"
  | ge => "ge"
  | lt => "lt"
  | gt => "gt"
  | ifExpr => "if_expr"
  | elseClause => "else_clause"
  | elseKeyword => "else_kw"
  | block => "block"
  | call => "call"
  | null => "null"
  | na => "na"
  | boolean => "boolean"
  | integer => "integer"
  | double => "double"
  | ident => "ident"
  | endOfInput => "EOI"

def ofComparison : CompareOp → Rule
  | .eq => eq
  | .ne => neq
  | .lt => lt
  | .le => le
  | .gt => gt
  | .ge => ge

def ofSign : UnaryOp → Rule
  | .not => not
  | .neg => neg

end Rule

/-- What a rule matched. -/
inductive Pair where
  | mk (rule : Rule) (text : String) (span : Span) (inner : List Pair)
  deriving Repr, Inhabited

namespace Pair

def rule : Pair → Rule
  | mk rule _ _ _ => rule

def text : Pair → String
  | mk _ text _ _ => text

def span : Pair → Span
  | mk _ _ span _ => span

def inner : Pair → List Pair
  | mk _ _ _ inner => inner

end Pair

/-- Matches the pairs of some rules. -/
abbrev Matcher := Reader (List Pair)

namespace Matcher

/-- What `p` matches is put inside of one pair. -/
def rule (rule : Rule) (p : Matcher) : Matcher := fun c ↦
  let r := p c
  ⟨r.outcome.map fun (inner, c') ↦
    let text := String.ofList (c.rest.take (c.rest.length - c'.rest.length))
    ([.mk rule text ⟨c.offset, c'.offset⟩ inner], c'), r.trail⟩

variable {α : Type}

/-- What is matched without leaving pairs. -/
def silent (p : Reader α) : Matcher := do
  let _ ← p
  return []

/-- A rule without others inside of it. -/
def token (rule : Rule) (e : Expected) (p : Reader α) : Matcher :=
  .rule rule (expecting e (silent p))

def null : Matcher := token .null .literal (lexeme (Token.keyword? "NULL"))

def na : Matcher := token .na .literal (lexeme (Token.keyword? "NA"))

def boolean : Matcher :=
  token .boolean .literal
    ((lexeme (Token.keyword? "TRUE")).orElse (lexeme (Token.keyword? "FALSE")))

def integer : Matcher := token .integer .literal (lexeme Token.integer?)

def double : Matcher := token .double .literal (lexeme Token.double?)

def literal : Matcher := firstOf [firstOf [null, na, boolean], integer, double]

def ident : Matcher := token .ident .identifier (lexeme Token.name?)

def sign : Matcher :=
  firstOf [token .not .unaryOperator (symbol "!"), token .neg .unaryOperator (symbol "-")]

def comparison (op : CompareOp) : Matcher :=
  token (.ofComparison op) .comparisonOperator (symbol op.symbol)

def lessThan : Matcher :=
  token .lt .comparisonOperator do
    notArrow
    symbol "<"

def comparisonOp : Matcher :=
  firstOf [comparison .eq, comparison .ne, comparison .le, comparison .ge, lessThan,
    comparison .gt]

/-- The matchers of what may stand inside a construct. -/
structure Inside where
  statement : Matcher
  expression : Matcher

section Constructs

variable (limit : Nat) (inside : Inside)

def statements (statement : Matcher) : Matcher :=
  rule .statements <| expecting .statement do
    let _ ← many limit separator
    skip
    let items ← optional do
      let first ← statement
      skip
      let others ← many limit do
        separators limit
        skip
        statement
      return first ++ others.flatten
    skip
    let _ ← many limit separator
    return items.getD []

def block : Matcher :=
  rule .block <| expecting .expression do
    symbol "\x7b"
    skip
    let items ← statements limit inside.statement
    skip
    symbol "\x7d"
    return items

def arguments : Matcher := do
  let first ← inside.expression
  skip
  let others ← many limit do
    let _ ← many limit lineEnd
    skip
    symbol ","
    lineEnds limit
    inside.expression
  return first ++ others.flatten

def call : Matcher :=
  rule .call <| expecting .expression do
    let callee ← ident
    skip
    symbol "("
    lineEnds limit
    let args ← optional (arguments limit inside)
    lineEnds limit
    symbol ")"
    return callee ++ args.getD []

def elseClause : Matcher :=
  rule .elseClause <| expecting .elseKeyword do
    let _ ← many limit lineEnd
    skip
    let keyword ← token .elseKeyword .elseKeyword (lexeme (Token.keyword? "else"))
    lineEnds limit
    let branch ← inside.statement
    return keyword ++ branch

def ifExpression : Matcher :=
  rule .ifExpr <| expecting .expression do
    symbol "if"
    skip
    symbol "("
    lineEnds limit
    let cond ← inside.expression
    lineEnds limit
    symbol ")"
    lineEnds limit
    let thenBranch ← inside.statement
    skip
    let clause ← optional (elseClause limit inside)
    return cond ++ thenBranch ++ clause.getD []

def parenthesised : Matcher := do
  symbol "("
  lineEnds limit
  let e ← inside.expression
  lineEnds limit
  symbol ")"
  return e

def primary : Matcher :=
  firstOf [ifExpression limit inside, block limit inside, call limit inside, literal, ident,
    parenthesised limit inside]

def operand : Matcher := do
  let signs ← many limit sign
  skip
  let term ← primary limit inside
  return signs.flatten ++ term

def expression : Matcher :=
  rule .expression <| expecting .expression do
    let first ← operand limit inside
    skip
    let rest ← many limit do
      let op ← comparisonOp
      lineEnds limit
      let right ← operand limit inside
      return op ++ right
    return first ++ rest.flatten

def assignment : Matcher :=
  rule .assignment <| expecting .statement do
    let target ← ident
    skip
    symbol "<-"
    lineEnds limit
    let value ← inside.statement
    return target ++ value

def statement : Matcher := (assignment limit inside).orElse (expression limit inside)

end Constructs

/-- The matchers for a nesting depth and a length below the given bound. -/
def language : Nat → Inside
  | 0 => ⟨fail, fail⟩
  | bound + 1 =>
    ⟨fun c ↦ statement (bound + 1) (language bound) c,
      fun c ↦ expression (bound + 1) (language bound) c⟩

/-- A whole program. -/
def main (bound : Nat) : Matcher :=
  rule .main <| expecting .input do
    skip
    let items ← statements bound (language bound).statement
    skip
    let stop ← token .endOfInput .endOfInput endOfInput
    return items ++ stop

end Matcher

end AdaptiveTree.Grammar
