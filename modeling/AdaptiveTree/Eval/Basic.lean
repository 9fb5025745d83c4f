import AdaptiveTree.Machine
import AdaptiveTree.Adaptation

/-!
Evaluation as a computation on the machine that ends with a result or leaves early, by a
failure or through `return`. The machine is kept either way.
-/

set_option autoImplicit false
set_option relaxedAutoImplicit false

namespace AdaptiveTree

/-- How an evaluation is left early. -/
inductive Exit where
  | raised (cause : Fault) (span : Span)
  | returned (value : Value)
  /-- One more nested evaluation was needed than the limit allows. -/
  | tooDeep (span : Span)
  deriving DecidableEq, Repr, Inhabited

abbrev Eval (α : Type) := EStateM Exit Machine α

/-- The evaluation of a nested node, as the evaluation of the node around it sees it. -/
abbrev Evaluator := NodeId → Eval Value

namespace Eval

/-- A question about the tree; a failure is an inconsistency that no place is known for. -/
def ask {α : Type} (question : Tree → Except TreeError α) : Eval α := fun m ↦
  match question m.tree with
  | .ok a => .ok a m
  | .error e => .error (.raised (.brokenTree e) .origin) m

/-- An edit of the machine's tree, which fails as `ask` does. -/
def edit {α : Type} (e : Edit α) : Eval α := fun m ↦
  match e m.tree with
  | .ok a t => .ok a { m with tree := t }
  | .error err t => .error (.raised (.brokenTree err) .origin) { m with tree := t }

/-- Fails at the place of a node. -/
def fail {α : Type} (node : NodeId) (cause : Fault) : Eval α := fun m ↦
  .error (.raised cause (m.spanOf node)) m

def unexpected {α : Type} (node : NodeId) (found : NodeKind) : Eval α :=
  fail node (.unexpectedNode found.name)

/-- The result of a function called at a node. -/
def ofResult {α : Type} (node : NodeId) : Except Fault α → Eval α
  | .ok a => pure a
  | .error cause => fail node cause

def warn (node : NodeId) (code message : String) : Eval Unit := modify (·.warn node code message)

def callHost (node : NodeId) (f : Definition) (args : List Value) : Eval Value := fun m ↦
  match m.callHost f args with
  | (result, m') => ofResult node result m'

def assign (name : String) (v : Value) : Eval Unit := fun m ↦
  match m.bindValue name v with
  | (.ok _, m') => .ok () m'
  | (.error e, m') => .error (.raised (.brokenTree e) .origin) m'

end Eval

end AdaptiveTree
