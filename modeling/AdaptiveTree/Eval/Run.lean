import AdaptiveTree.Eval.Conditional

/-!
Evaluation of every kind of node. The number of evaluations that may still be nested is the
measure of the recursion, so evaluation ends on any tree whatsoever.
-/

set_option autoImplicit false
set_option relaxedAutoImplicit false

namespace AdaptiveTree

namespace Eval

/-- The values of nodes, from left to right. -/
def values (exec : Evaluator) : List NodeId → Eval (List Value)
  | [] => pure []
  | id :: rest => do
    let v ← exec id
    return v :: (← values exec rest)

/-- The value of the last of some nodes, `last` if there are none. -/
def inOrder (exec : Evaluator) (last : Value) : List NodeId → Eval Value
  | [] => pure last
  | id :: rest => do inOrder exec (← exec id) rest

def read (node : NodeId) (name : String) : Eval Value := do
  match (← get).frame.value? name with
  | some v => return v
  | none => fail node (.undefinedVariable name)

/-- What a called name stands for. -/
inductive Callee where
  | host (f : Definition)
  | builtin (b : Builtin)

/-- A binding hides the builtin of its name. -/
def lookupCallee (node : NodeId) (name : String) : Eval Callee := do
  match (← get).frame.get? name with
  | some (.function f) => return .host f
  | some (.value _) => fail node (.notAFunction name)
  | none =>
    match Builtin.lookup? name with
    | some b => return .builtin b
    | none => fail node (.undefinedFunction name)

/-- Calls a function. It is looked up before the arguments are evaluated. -/
def call (exec : Evaluator) (node : NodeId) (name : String) (args : List NodeId) :
    Eval Value := do
  let callee ← lookupCallee node name
  let given ← values exec args
  match callee with
  | .host f => callHost node f given
  | .builtin .ret => throw (.returned (← ofResult node (Builtin.returnValue given)))
  | .builtin b => ofResult node (b.answer given)

/-- Evaluates a node whose children `exec` evaluates. -/
def step (exec : Evaluator) (node : NodeId) : Eval Value := do
  let id ← ask (·.resolve node)
  match ← ask (·.kind id) with
  | .constant v => return v
  | .read name => read id name
  | .assign name value =>
    let v ← exec value
    assign name v
    return v
  | .sequence items => inOrder exec .null items
  | .unary op operand => return op.apply (← exec operand)
  | .compare op left right =>
    let a ← exec left
    let b ← exec right
    return a.compareWith op b
  | .call name args => call exec id name args
  | .convert .. => return .scalar (.logical (← convert exec id))
  | .cond form => conditional exec id form

/-- Evaluates a node with at most `limit` evaluations nested in each other. -/
def execute : Nat → Evaluator
  | 0, node => fun m ↦ .error (.tooDeep (m.spanOf node)) m
  | limit + 1, node => step (execute limit) node

end Eval

namespace Exit

/-- What an exit makes of the program it leaves, under the limit in force. -/
def outcome (limit : Nat) : Exit → Except Failure Value
  | raised cause span => .error (.fault cause span)
  | tooDeep span => .error (.tooDeep limit span)
  | returned v => .ok v

end Exit

namespace Machine

/-- Evaluates a node as a whole program: a value that `return` leaves with is its value. -/
def run (m : Machine) (limit : Nat) (root : NodeId) : Except Failure Value × Machine :=
  match Eval.execute limit root m with
  | .ok v m' => (.ok v, m')
  | .error exit m' => (exit.outcome limit, m')

end Machine

end AdaptiveTree
