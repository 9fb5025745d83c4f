import AdaptiveTree.Expr
import AdaptiveTree.Machine
import AdaptiveTree.Adaptation

/-!
Lowering of expressions to nodes. Every conditional starts in the most hopeful form: a test
of equality with a constant, a return tail, or one that expects a clean truth value.
-/

set_option autoImplicit false
set_option relaxedAutoImplicit false

namespace AdaptiveTree

/-- Which hopeful forms lowering may choose. -/
structure CompilationOptions where
  constantComparisons : Bool
  returnTails : Bool
  deriving DecidableEq, Repr, Inhabited

namespace CompilationOptions

def standard : CompilationOptions := ⟨true, true⟩

end CompilationOptions

namespace Expr

/-- The constant that a condition tests for equality: a literal on the right, possibly negated. -/
def constantTested? : Expr → Option Scalar
  | compare .eq _ (literal l _) _ => l.scalar?
  | compare .eq _ (unary .neg (literal l _) _) _ => l.scalar?.map Scalar.negate
  | _ => none

/-- The statements of a branch. -/
def statements : Expr → List Expr
  | block items _ => items
  | e => [e]

/-- A conditional without `else` whose branch ends with a call of `return` to one argument. -/
structure ReturnTail where
  cond : Expr
  /-- The statements in front of the call. -/
  body : List Expr
  arg : Expr
  callSpan : Span

def returnTail? : Expr → Option ReturnTail
  | ifThen cond branch _ =>
    match branch.statements.getLast? with
    | some (call "return" [arg] span) => some ⟨cond, branch.statements.dropLast, arg, span⟩
    | _ => none
  | _ => none

end Expr

/-- Lowering allocates nodes and enters subscriptions. -/
abbrev Lower (α : Type) := StateM Machine α

namespace Lower

def alloc (kind : NodeKind) (span : Span) : Lower NodeId :=
  modifyGet fun m ↦ (m.tree.nextId, { m with tree := m.tree.alloc kind span })

def form (form : Conditional) (span : Span) : Lower NodeId := alloc (.cond form) span

/-- Asks for `node` to be replaced as soon as `return` is bound. -/
def watchReturn (node : NodeId) (callSpan : Span) : Lower Unit :=
  modify fun m ↦ { m with
    watch := m.watch.subscribe "return" node fun _ ↦ Edit.overrideReturn node callSpan }

mutual

def expr (options : CompilationOptions) : Expr → Lower NodeId
  | .literal l span => alloc (.constant l.value) span
  | .ident name span => alloc (.read name) span
  | .unary op operand span => do
    let operand ← expr options operand
    alloc (.unary op operand) span
  | .compare op left right span => do
    let left ← expr options left
    let right ← expr options right
    alloc (.compare op left right) span
  | .call callee args span => do
    let args ← each options args
    alloc (.call callee args) span
  | .assign name value span => do
    let value ← expr options value
    alloc (.assign name value) span
  | .ifThen c t span => do
    let cond ← expr options c
    let thenBranch ← expr options t
    match if options.constantComparisons then c.constantTested? else none with
    | some constant =>
      let elseBranch ← alloc (.constant .null) span
      form (.const cond thenBranch elseBranch constant) span
    | none => form (.noElse cond thenBranch) span
  | .ifElse c t e span => do
    let cond ← expr options c
    let thenBranch ← expr options t
    let elseBranch ← expr options e
    match if options.constantComparisons then c.constantTested? else none with
    | some constant => form (.const cond thenBranch elseBranch constant) span
    | none => form (.twoBranch cond thenBranch elseBranch) span
  | .block items span => do
    let items ← each options items
    alloc (.sequence items) span

/-- Lowers from left to right. -/
def each (options : CompilationOptions) : List Expr → Lower (List NodeId)
  | [] => pure []
  | e :: rest => do
    let id ← expr options e
    return id :: (← each options rest)

end

/-- Lowers the statements in front of a `return` to one node, if there are any. -/
def body (options : CompilationOptions) : List Expr → Lower (Option NodeId)
  | [] => pure none
  | e :: rest => do
    let items ← each options (e :: rest)
    some <$> alloc (.sequence items) (Expr.spanOf .origin (e :: rest))

/-- Lowers a return tail in front of `rest`: to an ordinary call if `return` is bound already. -/
def returnTail (options : CompilationOptions) (tail : Expr.ReturnTail) (rest : NodeId)
    (span : Span) : Lower NodeId := do
  let cond ← expr options tail.cond
  let body ← body options tail.body
  let arg ← expr options tail.arg
  if (← get).frame.contains "return" then
    let call ← alloc (.call "return" [arg]) tail.callSpan
    form (.returnOverridden cond body call rest) span
  else
    let node ← form (.returnBuiltin cond body arg rest) span
    watchReturn node tail.callSpan
    return node

/-- Lowers the statements of a program. A return tail takes the statements behind it as its
`rest`, which are lowered first. -/
def statements (options : CompilationOptions) : List Expr → Lower (List NodeId)
  | [] => pure []
  | e :: rest => do
    match if options.returnTails then e.returnTail? else none with
    | some tail =>
      let items ← statements options rest
      let rest ← alloc (.sequence items) (Expr.spanOf ⟨e.span.stop, e.span.stop⟩ rest)
      return [← returnTail options tail rest e.span]
    | none =>
      let id ← expr options e
      return id :: (← statements options rest)

/-- Lowers a whole program. Only the program's own block has return tails. -/
def program (options : CompilationOptions) : Expr → Lower NodeId
  | .block items span => do
    let items ← statements options items
    alloc (.sequence items) span
  | e => expr options e

end Lower

end AdaptiveTree
