import Mathlib.Data.List.Forall2
import AdaptiveTree.Proofs.Reading.Part

/-!
Reading a program back from the tree. Conversion steps read as their inputs and every form of a
conditional as the conditional, return tails read as the statements that they were made from.
What a tree cannot tell is left out: whether an `else` that gives nothing was written, the braces
of a return tail's branch, and the place of its call as long as there is no node for it.
-/

set_option autoImplicit false
set_option relaxedAutoImplicit false

namespace AdaptiveTree

/-- The literal that gives a value. -/
def Value.literal? : Value → Option Literal
  | null => some .null
  | scalar (.logical l) => some (.logical l)
  | scalar (.int i) => some (.int i)
  | scalar (.double d) => some (.double d)
  | _ => none

theorem Literal.literal?_value (l : Literal) : l.value.literal? = some l := by
  cases l <;> rfl

namespace Expr

/-- A conditional, where an `else` that gives nothing counts as missing. -/
def conditional (c t e : Expr) (span : Span) : Expr :=
  match e with
  | literal .null _ => ifThen c t span
  | _ => ifElse c t e span

mutual

/-- The expression without any `else` that gives nothing. -/
def trim : Expr → Expr
  | literal l span => literal l span
  | ident name span => ident name span
  | unary op e span => unary op (trim e) span
  | compare op left right span => compare op (trim left) (trim right) span
  | call name args span => call name (trimEach args) span
  | assign name e span => assign name (trim e) span
  | ifThen c t span => ifThen (trim c) (trim t) span
  | ifElse c t e span => conditional (trim c) (trim t) (trim e) span
  | block items span => block (trimEach items) span

def trimEach : List Expr → List Expr
  | [] => []
  | e :: rest => trim e :: trimEach rest

end

theorem trimEach_eq_map (items : List Expr) : trimEach items = items.map trim := by
  induction items with
  | nil => rw [trimEach, List.map_nil]
  | cons e rest ih => rw [trimEach, ih, List.map_cons]

end Expr

/-! ### Listings -/

/-- A statement in the program's own block. -/
inductive Statement where
  | plain (e : Expr)
  /-- A return tail without the braces around its branch, and perhaps without the place of its
  call. -/
  | returning (cond : Expr) (body : List Expr) (arg : Expr) (callSpan : Option Span) (span : Span)

inductive Listing where
  | block (items : List Statement) (span : Span)
  | other (e : Expr)

/-- What is read is the statement that was written. A return tail is read as one if these are
`tails` at all, and only the place of its call may be left out. -/
inductive Statement.Recalls (tails : Bool) : Statement → Expr → Prop
  | plain {e : Expr}
      (h : tails = true → ∀ cond body arg callSpan, ¬ e.Returning cond body arg callSpan) :
    Recalls tails (.plain e.trim) e
  | returning {e cond : Expr} {body : List Expr} {arg : Expr} {callSpan : Span}
      {place : Option Span} (htails : tails = true) (h : e.Returning cond body arg callSpan)
      (hplace : place = none ∨ place = some callSpan) :
    Recalls tails (.returning cond.trim (body.map Expr.trim) arg.trim place e.span) e

/-- What is read is the program that was written. -/
inductive Listing.Recalls (options : CompilationOptions) : Listing → Expr → Prop
  | block {read : List Statement} {items : List Expr} (span : Span)
      (h : List.Forall₂ (Statement.Recalls options.returnTails) read items) :
    Recalls options (.block read span) (.block items span)
  | other {e : Expr} (h : ∀ items span, e ≠ .block items span) :
    Recalls options (.other e.trim) e

/-! ### Reading back -/

namespace Tree

/-- The live node that a number leads to. -/
def current? (t : Tree) (id : NodeId) : Option Node := do
  (t.node (← (t.resolve id).toOption)).toOption

/-- Reads one node, with the readings of its children. -/
def readNode (read : NodeId → Option Expr) (n : Node) : Option Expr :=
  match n.kind with
  | .constant v => do return .literal (← v.literal?) n.span
  | .read name => some (.ident name n.span)
  | .assign name value => do return .assign name (← read value) n.span
  | .sequence items => do return .block (← items.mapM read) n.span
  | .unary op operand => do return .unary op (← read operand) n.span
  | .compare op left right => do return .compare op (← read left) (← read right) n.span
  | .call name args => do return .call name (← args.mapM read) n.span
  | .convert input _ => read input
  | .cond (.noElse c b) => do return .ifThen (← read c) (← read b) n.span
  | .cond (.generic c b e) | .cond (.twoBranch c b e) | .cond (.const c b e _)
  | .cond (.specialized c b e _) => do
    return .conditional (← read c) (← read b) (← read e) n.span
  | .cond (.returnBuiltin ..) | .cond (.returnOverridden ..) => none

/-- Reads an expression that is nested at most `depth` deep. -/
def readExpr (t : Tree) : Nat → NodeId → Option Expr
  | 0, _ => none
  | depth + 1, id => do readNode (t.readExpr depth) (← t.current? id)

/-- The children of a sequence, with its place. -/
def items? (t : Tree) (id : NodeId) : Option (List NodeId × Span) := do
  let n ← t.current? id
  match n.kind with
  | .sequence items => some (items, n.span)
  | _ => none

/-- Reads the statements in front of a `return`. -/
def readBody (t : Tree) (depth : Nat) : Option NodeId → Option (List Expr)
  | none => some []
  | some body => do (← t.items? body).1.mapM (t.readExpr depth)

/-- Reads a statement in the program's own block, with the statements that a return tail has
taken along. -/
def readStatement (t : Tree) : Nat → NodeId → Option (List Statement)
  | 0, _ => none
  | depth + 1, id => do
    let n ← t.current? id
    match n.kind with
    | .cond (.returnBuiltin c body arg rest) =>
      let cond ← t.readExpr depth c
      let body ← t.readBody depth body
      let arg ← t.readExpr depth arg
      let items ← (← t.items? rest).1.mapM (t.readStatement depth)
      return .returning cond body arg none n.span :: items.flatten
    | .cond (.returnOverridden c body call rest) =>
      let cond ← t.readExpr depth c
      let body ← t.readBody depth body
      match ← t.readExpr depth call with
      | .call "return" [arg] callSpan =>
        let items ← (← t.items? rest).1.mapM (t.readStatement depth)
        return .returning cond body arg (some callSpan) n.span :: items.flatten
      | _ => none
    | _ => do return [.plain (← t.readExpr (depth + 1) id)]

/-- Reads the program below a root. No path is longer than the number of slots. -/
def readProgram (t : Tree) (root : NodeId) : Option Listing :=
  match t.items? root with
  | some (items, span) => do
    return .block (← items.mapM (t.readStatement t.slots.size)).flatten span
  | none => do return .other (← t.readExpr t.slots.size root)

end Tree

end AdaptiveTree
