import AdaptiveTree.Operator
import AdaptiveTree.Span

/-!
Programs as written: expressions with the stretch of source that each was read from.
-/

set_option autoImplicit false
set_option relaxedAutoImplicit false

namespace AdaptiveTree

inductive Literal where
  | null
  | logical (l : Logical)
  | int (i : Int32)
  | double (d : Double)
  deriving DecidableEq, Repr, Inhabited

namespace Literal

def scalar? : Literal → Option Scalar
  | null => none
  | logical l => some (.logical l)
  | int i => some (.int i)
  | double d => some (.double d)

def value (l : Literal) : Value :=
  match l.scalar? with
  | some s => .scalar s
  | none => .null

end Literal

inductive Expr where
  | literal (value : Literal) (span : Span)
  | ident (name : String) (span : Span)
  | unary (op : UnaryOp) (operand : Expr) (span : Span)
  | compare (op : CompareOp) (left right : Expr) (span : Span)
  | call (callee : String) (args : List Expr) (span : Span)
  | assign (name : String) (value : Expr) (span : Span)
  | ifThen (cond thenBranch : Expr) (span : Span)
  | ifElse (cond thenBranch elseBranch : Expr) (span : Span)
  | block (items : List Expr) (span : Span)
  deriving Repr, Inhabited

namespace Expr

def span : Expr → Span
  | literal _ s | ident _ s | unary _ _ s | compare _ _ _ s | call _ _ s | assign _ _ s
  | ifThen _ _ s | ifElse _ _ _ s | block _ s => s

/-- From the first to the last of some expressions, and `fallback` if there are none. -/
def spanOf (fallback : Span) : List Expr → Span
  | [] => fallback
  | e :: rest => e.span.combine ((e :: rest).getLast (by simp)).span

end Expr

end AdaptiveTree
