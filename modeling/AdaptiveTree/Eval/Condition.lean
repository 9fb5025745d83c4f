import AdaptiveTree.Eval.Basic
import AdaptiveTree.Value.Extent

/-!
Reading a condition. A conversion step reduces any value to one truth value, with a warning
if elements are dropped; without a step only a scalar logical value is taken, and anything
else is handed back.
-/

set_option autoImplicit false
set_option relaxedAutoImplicit false

namespace AdaptiveTree.Eval

/-- The truth of a value that the conversion step `node` is given. -/
def convertObserved (node : NodeId) (v : Value) : Eval Logical :=
  match v.truth? with
  | none => fail node .emptyExtent
  | some (truth, .single) => pure truth
  | some (truth, .truncated _) => do
    warn node "W001" "the condition has length > 1 and only the first element will be used"
    return truth

/-- Evaluates the input of a conversion step and converts it. A step for one type that meets
another first replaces itself by the step for all. -/
def convert (exec : Evaluator) (node : NodeId) : Eval Logical := do
  match ← ask (·.kind node) with
  | .convert input mode =>
    let v ← exec input
    match Transition.plan? (.convert input mode) none v with
    | some .widenConversion => convertObserved (← edit (Edit.widenConversion node)) v
    | _ => convertObserved node v
  | kind => unexpected node kind

/-- Evaluates a node that should give a scalar logical value, possibly missing. -/
def scalarLogical (exec : Evaluator) (node : NodeId) : Eval (Speculation Logical) := do
  let id ← ask (·.resolve node)
  match ← ask (·.kind id) with
  | .convert .. => return .hit (← convert exec id)
  | _ =>
    match ← exec id with
    | .scalar (.logical truth) => return .hit truth
    | v => return .miss v

/-- What a truth value comes to where a missing one is not expected. -/
def presentTruth (truth : Logical) : Speculation Bool :=
  match truth.toBool? with
  | some b => .hit b
  | none => .miss .na

/-- Evaluates a node that should give a scalar logical value that is not missing. -/
def presentLogical (exec : Evaluator) (node : NodeId) : Eval (Speculation Bool) := do
  match ← scalarLogical exec node with
  | .hit truth => return presentTruth truth
  | .miss v => return .miss v

end AdaptiveTree.Eval
