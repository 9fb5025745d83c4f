import AdaptiveTree.Diagnostic
import AdaptiveTree.Grammar.Language

/-!
Reading a source as a program, and what there is to say when that fails. A source that fits
the grammar can only fail through an integer that is out of range.
-/

set_option autoImplicit false
set_option relaxedAutoImplicit false

namespace AdaptiveTree.Grammar

inductive ParseFailure where
  /-- The source does not fit the grammar. -/
  | unexpected (expected : List Expected) (offset : Nat)
  | invalidNumber (literal : OversizedInteger)
  deriving DecidableEq, Repr, Inhabited

namespace ParseFailure

def span : ParseFailure → Span
  | unexpected _ offset => ⟨offset, offset⟩
  | invalidNumber literal => literal.span

/-- What was found is never told apart. -/
def found : String := "unexpected input"

def message : ParseFailure → String
  | unexpected expected _ => "Expected " ++ Expected.inWords expected ++ ", found " ++ found
  | invalidNumber literal => "Invalid number literal '" ++ literal.text ++ "'"

def code : ParseFailure → String
  | unexpected .. => "P001"
  | invalidNumber _ => "P003"

def help? : ParseFailure → Option String
  | unexpected .. => none
  | invalidNumber _ => some "Integer literals must fit in 32 bits"

def diagnostic (f : ParseFailure) : Diagnostic :=
  ⟨.error, f.message, f.span, f.help?, some f.code⟩

/-- The failure on one line. -/
def text (f : ParseFailure) : String := "error: " ++ f.message ++ " [" ++ f.code ++ "]"

end ParseFailure

/-- Reads a source as the block of its statements. -/
def parse (source : String) : Except ParseFailure Expr :=
  let r := program (source.length + 1) (.start source)
  match r.outcome with
  | none =>
    let attempts := r.trail .none
    .error (.unexpected attempts.missing attempts.furthest)
  | some (items, _) =>
    match items.mapM id with
    | .error literal => .error (.invalidNumber literal)
    | .ok items => .ok (.block items ⟨0, source.utf8ByteSize⟩)

end AdaptiveTree.Grammar
