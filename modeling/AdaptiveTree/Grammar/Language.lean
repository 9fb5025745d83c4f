import AdaptiveTree.Double.Decimal
import AdaptiveTree.Grammar.Precedence
import AdaptiveTree.Grammar.Reader
import AdaptiveTree.Grammar.Token

/-!
The grammar. Alternatives are tried in order and a repetition is not taken back. Between the
parts of a construct blanks and comments are skipped; line ends count, except where the
grammar allows them.
-/

set_option autoImplicit false
set_option relaxedAutoImplicit false

namespace AdaptiveTree.Grammar

open Reader

/-- The readers of what may stand inside a construct. -/
structure Inner where
  statement : Reader Draft
  expression : Reader Draft

def lineEnd : Reader Unit := firstOf [symbol "\n", symbol "\r\n", symbol "\r"]

def separator : Reader Unit := (symbol ";").orElse lineEnd

/-- As many line ends as there are, with what may be skipped around them. -/
def lineEnds (limit : Nat) : Reader Unit := do
  skip
  let _ ← many limit lineEnd
  skip

/-- One or more separators. -/
def separators (limit : Nat) : Reader Unit := do
  separator
  skip
  let _ ← many limit separator

/-! ### Literals and names -/

def wordLiteral (w : String) (l : Literal) : Reader Literal := do
  let _ ← lexeme (Token.keyword? w)
  return l

/-- The literals that are words. -/
def namedLiteral : Reader Literal :=
  firstOf
    [expecting .literal (wordLiteral "NULL" .null),
      expecting .literal (wordLiteral "NA" (.logical .na)),
      expecting .literal
        ((wordLiteral "TRUE" (.logical .yes)).orElse (wordLiteral "FALSE" (.logical .no)))]

/-- An integer literal, if it is in range. -/
def integerDraft (n : Nat) (taken : List Char) (span : Span) : Draft :=
  if n < 2147483648 then .ok (.literal (.int (Int32.ofNat n)) span)
  else .error ⟨String.ofList taken, span⟩

def integer : Reader Draft := do
  let ((n, taken), span) ← spanned (expecting .literal (lexeme Token.integer?))
  return integerDraft n taken span

def double : Reader Draft := do
  let (((digits, power), _), span) ← spanned (expecting .literal (lexeme Token.double?))
  return .ok (.literal (.double (.ofDecimal digits power)) span)

def literal : Reader Draft :=
  firstOf
    [(do
        let (l, span) ← spanned namedLiteral
        return .ok (.literal l span)),
      integer, double]

def name : Reader String := do
  let (n, _) ← expecting .identifier (lexeme Token.name?)
  return n

def identifier : Reader Draft := do
  let (n, span) ← spanned name
  return .ok (.ident n span)

/-! ### Operators -/

def sign : Reader Sign := do
  let start ← offset
  let op ← firstOf
    [expecting .unaryOperator (do symbol "!"; return UnaryOp.not),
      expecting .unaryOperator (do symbol "-"; return UnaryOp.neg)]
  return ⟨op, start⟩

def comparison (op : CompareOp) : Reader CompareOp :=
  expecting .comparisonOperator (do symbol op.symbol; return op)

/-- Fails in front of an arrow, which is no comparison with a negative number. -/
def notArrow : Reader Unit := fun c ↦
  if "<-".toList.isPrefixOf c.rest then ⟨none, id⟩ else ⟨some ((), c), id⟩

def lessThan : Reader CompareOp :=
  expecting .comparisonOperator (do notArrow; symbol "<"; return .lt)

def comparisonOp : Reader CompareOp :=
  firstOf [comparison .eq, comparison .ne, comparison .le, comparison .ge, lessThan,
    comparison .gt]

/-! ### Constructs -/

section Constructs

variable (limit : Nat) (inner : Inner)

/-- Separated statements, possibly none. -/
def statements (statement : Reader Draft) : Reader (List Draft) :=
  expecting .statement do
    let _ ← many limit separator
    skip
    let items ← optional do
      let first ← statement
      skip
      let others ← many limit do
        separators limit
        skip
        statement
      return first :: others
    skip
    let _ ← many limit separator
    return items.getD []

def block : Reader Draft := do
  let (items, span) ← spanned <| expecting .expression do
    symbol "\x7b"
    skip
    let items ← statements limit inner.statement
    skip
    symbol "\x7d"
    return items
  return do return .block (← items.mapM id) span

def arguments : Reader (List Draft) := do
  let first ← inner.expression
  skip
  let others ← many limit do
    let _ ← many limit lineEnd
    skip
    symbol ","
    lineEnds limit
    inner.expression
  return first :: others

def call : Reader Draft := do
  let ((callee, args), span) ← spanned <| expecting .expression do
    let callee ← name
    skip
    symbol "("
    lineEnds limit
    let args ← optional (arguments limit inner)
    lineEnds limit
    symbol ")"
    return (callee, args.getD [])
  return do return .call callee (← args.mapM id) span

def elseClause : Reader Draft :=
  expecting .elseKeyword do
    let _ ← many limit lineEnd
    skip
    let _ ← expecting .elseKeyword (lexeme (Token.keyword? "else"))
    lineEnds limit
    inner.statement

/-- The expression for a conditional statement with or without a second branch. -/
def ifDraft (cond thenBranch : Draft) (elseBranch : Option Draft) (span : Span) : Draft := do
  let c ← cond
  let t ← thenBranch
  match elseBranch with
  | some branch => return .ifElse c t (← branch) span
  | none => return .ifThen c t span

def ifExpression : Reader Draft := do
  let ((cond, thenBranch, elseBranch), span) ← spanned <| expecting .expression do
    symbol "if"
    skip
    symbol "("
    lineEnds limit
    let cond ← inner.expression
    lineEnds limit
    symbol ")"
    lineEnds limit
    let thenBranch ← inner.statement
    skip
    let elseBranch ← optional (elseClause limit inner)
    return (cond, thenBranch, elseBranch)
  return ifDraft cond thenBranch elseBranch span

def parenthesised : Reader Draft := do
  symbol "("
  lineEnds limit
  let e ← inner.expression
  lineEnds limit
  symbol ")"
  return e

def primary : Reader Draft :=
  firstOf [ifExpression limit inner, block limit inner, call limit inner, literal, identifier,
    parenthesised limit inner]

/-- A primary expression with the signs in front of it. -/
def operand : Reader Operand := do
  let signs ← many limit sign
  skip
  let term ← primary limit inner
  return ⟨signs, term⟩

def expression : Reader Draft :=
  expecting .expression do
    let first ← operand limit inner
    skip
    let rest ← many limit do
      let op ← comparisonOp
      lineEnds limit
      let right ← operand limit inner
      return (op, right)
    return (Chain.mk first rest).toExpr

def assignment : Reader Draft := do
  let ((target, value), span) ← spanned <| expecting .statement do
    let target ← name
    skip
    symbol "<-"
    lineEnds limit
    let value ← inner.statement
    return (target, value)
  return do return .assign target (← value) span

def statement : Reader Draft := (assignment limit inner).orElse (expression limit inner)

end Constructs

/-- The readers for a nesting depth and a length below the given bound. Every construct takes a
character off the text before it reads what stands inside it. -/
def language : Nat → Inner
  | 0 => ⟨fail, fail⟩
  | bound + 1 =>
    ⟨fun c ↦ statement (bound + 1) (language bound) c,
      fun c ↦ expression (bound + 1) (language bound) c⟩

/-- Fails unless everything is read. -/
def endOfInput : Reader Unit := fun c ↦
  if c.rest.isEmpty then ⟨some ((), c), id⟩ else ⟨none, id⟩

/-- A whole program. -/
def program (bound : Nat) : Reader (List Draft) :=
  expecting .input do
    skip
    let items ← statements bound (language bound).statement
    skip
    expecting .endOfInput endOfInput
    return items

end AdaptiveTree.Grammar
