import AdaptiveTree.Eval.Run
import AdaptiveTree.Lowering
import Mathlib.Control.Lawful

/-!
The meaning of programs without a tree. The reference evaluates an expression as it is written,
on the bindings, the host calls made and the warnings: from left to right, a function is looked
up before its arguments are evaluated, and a condition is evaluated once.
-/

set_option autoImplicit false
set_option relaxedAutoImplicit false

namespace AdaptiveTree

/-- What evaluation can see and change apart from the tree. -/
structure World where
  frame : Frame
  /-- The latest first. -/
  hostCalls : List HostCall
  /-- Oldest first. -/
  warnings : Array Diagnostic

namespace World

def bind (w : World) (name : String) (binding : Binding) : World :=
  { w with frame := w.frame.insert name binding }

/-- The arguments of the calls made to a definition, the latest first. -/
def history (w : World) (serial : Nat) : List (List Value) :=
  (w.hostCalls.filter fun c ↦ c.serial = serial).map HostCall.args

def warn (w : World) (span : Span) (code message : String) : World :=
  { w with warnings := w.warnings.push ⟨.warning, message, span, none, some code⟩ }

end World

def Machine.world (m : Machine) : World := ⟨m.frame, m.hostCalls, m.warnings⟩

/-- How a program is left early. -/
inductive Halt where
  | raised (cause : Fault) (span : Span)
  | returned (value : Value)
  deriving DecidableEq, Repr, Inhabited

namespace Halt

def exit : Halt → Exit
  | raised cause span => .raised cause span
  | returned value => .returned value

/-- A program that is left through `return` has the value that it is left with. -/
def outcome : Halt → Except Failure Value
  | raised cause span => .error (.fault cause span)
  | returned value => .ok value

end Halt

namespace Reference

abbrev Run (α : Type) := EStateM Halt World α

def fail {α : Type} (span : Span) (cause : Fault) : Run α := throw (.raised cause span)

def ofResult {α : Type} (span : Span) : Except Fault α → Run α
  | .ok a => pure a
  | .error cause => fail span cause

def callHost (span : Span) (f : Definition) (args : List Value) : Run Value := do
  let w ← get
  set { w with hostCalls := ⟨f.serial, args⟩ :: w.hostCalls }
  ofResult span (f.function.answer (w.history f.serial) args)

def read (span : Span) (name : String) : Run Value := do
  match (← get).frame.value? name with
  | some v => return v
  | none => fail span (.undefinedVariable name)

/-- A binding hides the builtin of its name. -/
def lookupCallee (span : Span) (name : String) : Run Eval.Callee := do
  match (← get).frame.get? name with
  | some (.function f) => return .host f
  | some (.value _) => fail span (.notAFunction name)
  | none =>
    match Builtin.lookup? name with
    | some b => return .builtin b
    | none => fail span (.undefinedFunction name)

/-- Calls what was looked up. The builtin `return` ends the program. -/
def apply (span : Span) (given : List Value) : Eval.Callee → Run Value
  | .host f => callHost span f given
  | .builtin .ret => do throw (.returned (← ofResult span (Builtin.returnValue given)))
  | .builtin b => ofResult span (b.answer given)

def assign (name : String) (v : Value) : Run Unit := modify (·.bind name (.value v))

/-- The truth of the value of a condition. -/
def truth (span : Span) (v : Value) : Run Logical :=
  match v.truth? with
  | none => fail span .emptyExtent
  | some (l, .single) => pure l
  | some (l, .truncated _) => do
    modify (·.warn span "W001"
      "the condition has length > 1 and only the first element will be used")
    return l

/-- The branch that a truth value selects. -/
def choose (span : Span) (thenBranch elseBranch : Run Value) (l : Logical) : Run Value :=
  match l.toBool? with
  | none => fail span .unexpectedNA
  | some holds => if holds then thenBranch else elseBranch

mutual

def expr : Expr → Run Value
  | .literal l _ => pure l.value
  | .ident name span => read span name
  | .unary op e _ => do return op.apply (← expr e)
  | .compare op left right _ => do
    let a ← expr left
    let b ← expr right
    return a.compareWith op b
  | .call name args span => do
    let callee ← lookupCallee span name
    let given ← each args
    apply span given callee
  | .assign name e _ => do
    let v ← expr e
    assign name v
    return v
  | .ifThen c t span => do
    let l ← truth c.span (← expr c)
    choose span (expr t) (pure .null) l
  | .ifElse c t e span => do
    let l ← truth c.span (← expr c)
    choose span (expr t) (expr e) l
  | .block items _ => inOrder .null items

/-- The values of expressions, from left to right. -/
def each : List Expr → Run (List Value)
  | [] => pure []
  | e :: rest => do
    let v ← expr e
    return v :: (← each rest)

/-- The value of the last of some expressions, `last` if there are none. -/
def inOrder (last : Value) : List Expr → Run Value
  | [] => pure last
  | e :: rest => do inOrder (← expr e) rest

end

/-- The condition of a conditional, as a truth value. -/
def test (e : Expr) : Run Logical := do truth e.span (← expr e)

/-- The outcome of a whole program, and the world that it leaves. -/
def run (program : Expr) (w : World) : Except Failure Value × World :=
  match expr program w with
  | .ok v w' => (.ok v, w')
  | .error halt w' => (halt.outcome, w')

end Reference

end AdaptiveTree
