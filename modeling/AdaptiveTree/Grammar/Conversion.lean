import AdaptiveTree.Grammar.Pairs
import AdaptiveTree.Grammar.Program

/-!
From pairs to expressions. A conversion can fail with an error, which is a value like any other
until an operator or a construct asks for the operand that it stands for. Pairs that no source
matches are errors too, and operators out of place are worse: they have no result at all. What kind
of error it is is read off the beginning of its message.
-/

set_option autoImplicit false
set_option relaxedAutoImplicit false

namespace AdaptiveTree.Grammar

/-- An error in a stretch of the source. -/
structure CustomError where
  message : String
  span : Span
  deriving DecidableEq, Repr, Inhabited

/-- A result or an error. -/
abbrev Converted (α : Type) := Except CustomError α

/-- A result or an error, or neither if operators are out of place. -/
abbrev Conversion (α : Type) := ExceptT CustomError Option α

/-- What the message of an error begins with that is about a number out of range. -/
def invalidNumberPrefix : String := "invalid number literal: "

namespace CustomError

def invalidNumber (text : String) (span : Span) : CustomError := ⟨invalidNumberPrefix ++ text, span⟩

/-- A pair has fewer pairs inside of it than its rule has. -/
def missing (span : Span) : CustomError := ⟨"missing expected pair in rule", span⟩

/-- A pair of a rule that stands for no such thing. -/
def unknown (what : String) (p : Pair) : CustomError :=
  ⟨"unknown " ++ what ++ ": " ++ p.rule.name, p.span⟩

end CustomError

/-! ### Numbers -/

/-- Decimal digits with or without a sign as a number of 32 bits, if it is one. -/
def parseInt? (chars : List Char) : Option Int32 :=
  let (negative, _, digits) := Token.sign chars
  if digits.isEmpty || ! digits.all Char.isDigit then none
  else
    let n : Int := if negative then -Token.digitsValue digits else Token.digitsValue digits
    if -2147483648 ≤ n ∧ n < 2147483648 then some (Int32.ofInt n) else none

/-- A decimal number without a sign as the double nearest to it. -/
def parseDouble? (chars : List Char) : Option Double :=
  match Token.double? chars with
  | some ((digits, power), _, []) => some (.ofDecimal digits power)
  | _ => none

/-- The text of an integer literal without the suffix. -/
def withoutSuffix (chars : List Char) : List Char := (chars.reverse.dropWhile (· = 'L')).reverse

def convertInteger (p : Pair) : Converted Expr :=
  match parseInt? (withoutSuffix p.text.toList) with
  | some i => .ok (.literal (.int i) p.span)
  | none => .error (.invalidNumber p.text p.span)

def convertDouble (p : Pair) : Converted Expr :=
  match parseDouble? p.text.toList with
  | some d => .ok (.literal (.double d) p.span)
  | none => .error (.invalidNumber p.text p.span)

/-! ### Operators by precedence -/

inductive Affix where
  | before
  | between
  deriving DecidableEq, Repr, Inhabited

/-- Where an operator stands, and how tight it binds. -/
def Rule.affix? : Rule → Option (Affix × Nat)
  | .not => some (.before, 10)
  | .eq | .neq | .lt | .le | .gt | .ge => some (.between, 20)
  | .neg => some (.before, 30)
  | _ => none

def Rule.unary? : Rule → Option UnaryOp
  | .not => some .not
  | .neg => some .neg
  | _ => none

def Rule.comparison? : Rule → Option CompareOp
  | .eq => some .eq
  | .neq => some .ne
  | .lt => some .lt
  | .le => some .le
  | .gt => some .gt
  | .ge => some .ge
  | _ => none

/-- An operator in front of an operand. -/
def convertPrefix (op : Pair) (operand : Converted Expr) : Converted Expr := do
  let e ← operand
  match op.rule.unary? with
  | some u => return .unary u e ⟨op.span.start, e.span.stop⟩
  | none => throw (.unknown "prefix operator" op)

/-- An operator between two operands. The left one is asked for first. -/
def convertInfix (left : Converted Expr) (op : Pair) (right : Converted Expr) : Converted Expr := do
  let a ← left
  let b ← right
  match op.rule.comparison? with
  | some c => return .compare c a b (a.span.combine b.span)
  | none => throw (.unknown "infix operator" op)

/-- A pair, and what it is converted to if it is no operator. -/
abbrev Term := Pair × Conversion Expr

mutual

/-- Takes an operand and what binds tighter than `power` behind it. The first argument bounds the
depth of the recursion. -/
def takeExpr : Nat → Nat → List Term → Option (Converted Expr × List Term)
  | 0, _, _ | _ + 1, _, [] => none
  | depth + 1, power, (p, converted) :: rest =>
    match p.rule.affix? with
    | none => do takeInfixes depth power (← converted.run) rest
    | some (.before, strength) => do
      let (operand, rest') ← takeExpr depth (strength - 1) rest
      takeInfixes depth power (convertPrefix p operand) rest'
    | some (.between, _) => none

/-- Gives `left` the operators behind it that bind tighter than `power`. -/
def takeInfixes : Nat → Nat → Converted Expr → List Term → Option (Converted Expr × List Term)
  | 0, _, _, _ => none
  | _ + 1, _, left, [] => some (left, [])
  | depth + 1, power, left, (op, converted) :: rest =>
    match op.rule.affix? with
    | none => none
    | some (affix, strength) =>
      if power < strength then
        match affix with
        | .before => none
        | .between => do
          let (right, rest') ← takeExpr depth strength rest
          takeInfixes depth power (convertInfix left op right) rest'
      else some (left, (op, converted) :: rest)

end

/-- The expression that operands and operators stand for. Every step takes a pair. -/
def convertChain (terms : List Term) : Conversion Expr :=
  ExceptT.mk do
    let (e, _) ← takeExpr (terms.length + 1) 0 terms
    return e

/-! ### Constructs -/

mutual

/-- Converts a statement or a primary expression. -/
def convert : Pair → Conversion Expr
  | .mk rule text span inner =>
    match rule with
    | .assignment =>
      match inner with
      | [] => throw (.missing span)
      | _ :: [] => throw (.missing span)
      | target :: value :: _ => do return .assign target.text (← convert value) span
    | .expression => convertChain (convertTerms inner)
    | .ifExpr =>
      match inner with
      | [] => throw (.missing span)
      | .mk _ _ _ condInner :: branches => do
        let cond ← convertChain (convertTerms condInner)
        match branches with
        | [] => throw (.missing span)
        | thenPair :: clauses =>
          let thenBranch ← convert thenPair
          match clauses with
          | [] => return .ifThen cond thenBranch span
          | .mk _ _ clauseSpan clauseInner :: _ =>
            return .ifElse cond thenBranch (← convertBranch clauseSpan clauseInner) span
    | .block =>
      match inner with
      | [] => throw (.missing span)
      | .mk _ _ _ items :: _ => do return .block (← convertAll items) span
    | .call =>
      match inner with
      | [] => throw (.missing span)
      | callee :: args => do return .call callee.text (← convertArguments args) span
    | .ident => return .ident text span
    | .null => return .literal .null span
    | .na => return .literal (.logical .na) span
    | .boolean => return .literal (.logical (if text = "TRUE" then .yes else .no)) span
    | .integer => liftM (convertInteger (.mk rule text span inner))
    | .double => liftM (convertDouble (.mk rule text span inner))
    | _ => throw (.unknown "expression" (.mk rule text span inner))

/-- Converts each pair as if it were a primary expression. -/
def convertTerms : List Pair → List Term
  | [] => []
  | p :: rest => (p, convert p) :: convertTerms rest

/-- Converts statements up to the first that fails. -/
def convertAll : List Pair → Conversion (List Expr)
  | [] => return []
  | p :: rest => do return (← convert p) :: (← convertAll rest)

/-- Converts what stands inside of each pair as an expression. -/
def convertArguments : List Pair → Conversion (List Expr)
  | [] => return []
  | .mk _ _ _ inner :: rest => do
    return (← convertChain (convertTerms inner)) :: (← convertArguments rest)

/-- Converts the first pair that is not the keyword in front of a second branch. -/
def convertBranch (span : Span) : List Pair → Conversion Expr
  | [] => throw (.missing span)
  | .mk rule text place inner :: rest =>
    if rule = .elseKeyword then convertBranch span rest else convert (.mk rule text place inner)

end

/-! ### Errors by kind -/

inductive ParseErrorKind where
  | unexpectedToken (expected found : String)
  | invalidNumber (text : String)
  | other (message : String)
  deriving DecidableEq, Repr, Inhabited

structure ParseError where
  kind : ParseErrorKind
  span : Span
  deriving DecidableEq, Repr, Inhabited

/-- What is behind a text that another one begins with. -/
def behindPrefix? (start text : String) : Option String :=
  if start.toList.isPrefixOf text.toList then
    some (.ofList (text.toList.drop start.toList.length))
  else none

def CustomError.toParseError (e : CustomError) : ParseError :=
  match behindPrefix? invalidNumberPrefix e.message with
  | some text => ⟨.invalidNumber text, e.span⟩
  | none => ⟨.other e.message, e.span⟩

/-- Converts the pairs that a whole source matched. -/
def convertProgram (source : String) : List Pair → Option (Except ParseError Expr)
  | [] => some (.error ⟨.other "empty parse result", ⟨0, source.utf8ByteSize⟩⟩)
  | main :: _ =>
    let block : Conversion Expr :=
      match main.inner with
      | [] => throw (.missing main.span)
      | statements :: _ => do return .block (← convertAll statements.inner) ⟨0, source.utf8ByteSize⟩
    block.run.map (·.mapError CustomError.toParseError)

/-- Reads a source in two steps, first as pairs and then as an expression. -/
def parsePairs (source : String) : Option (Except ParseError Expr) :=
  let r := Matcher.main (source.length + 1) (.start source)
  match r.outcome with
  | none =>
    let attempts := r.trail .none
    let kind := .unexpectedToken (Expected.inWords attempts.missing) ParseFailure.found
    some (.error ⟨kind, ⟨attempts.furthest, attempts.furthest⟩⟩)
  | some (pairs, _) => convertProgram source pairs

end AdaptiveTree.Grammar
