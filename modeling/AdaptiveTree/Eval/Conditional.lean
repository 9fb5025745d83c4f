import AdaptiveTree.Eval.Condition

/-!
Evaluation of conditionals. A conditional that meets a value outside its form is replaced,
and its evaluation goes on with the value at hand, so no condition is evaluated twice.
-/

set_option autoImplicit false
set_option relaxedAutoImplicit false

namespace AdaptiveTree.Eval

/-- Evaluates the body of a recognised return tail, if it has one. -/
def runBody (exec : Evaluator) : Option NodeId → Eval Unit
  | none => pure ()
  | some body => do let _ ← exec body

/-- The end of a return tail whose condition held: the form that the node has after its body
decides what `return` means. -/
def runTail (exec : Evaluator) (node : NodeId) : Eval Value := do
  let current ← ask (·.resolve node)
  match ← ask (·.kind current) with
  | .cond (.returnBuiltin _ _ arg _) => exec arg
  | .cond (.returnOverridden _ _ call rest) => do
    let _ ← exec call
    exec rest
  | kind => unexpected node kind

/-- Runs the branch that a condition selects. Evaluating the condition may have replaced the
node, so the form that it has now decides. -/
def takeBranch (exec : Evaluator) (node : NodeId) (truth : Logical) : Eval Value := do
  let id ← ask (·.resolve node)
  match truth.toBool? with
  | none => fail id .unexpectedNA
  | some holds =>
    match ← ask (·.kind id) with
    | .cond (.generic _ t e) | .cond (.twoBranch _ t e) | .cond (.const _ t e _)
    | .cond (.specialized _ t e _) => exec (if holds then t else e)
    | .cond (.noElse _ t) => if holds then exec t else return .null
    | .cond (.returnBuiltin _ body _ rest) =>
      if holds then
        runBody exec body
        runTail exec id
      else exec rest
    | .cond (.returnOverridden _ body call rest) =>
      if holds then
        runBody exec body
        let _ ← exec call
      exec rest
    | kind => unexpected id kind

/-- The parts of the comparison that is the condition `cond`. -/
def comparison (cond : NodeId) : Eval (CompareOp × NodeId × NodeId) := do
  let id ← ask (·.resolve cond)
  match ← ask (·.kind id) with
  | .compare op left right => return (op, left, right)
  | kind => unexpected id kind

/-- Compares the operand through a comparator; one of another shape is given to `onMiss`. -/
def compareSpecialized (exec : Evaluator) (onMiss : NodeId → Value → Eval Value)
    (node : NodeId) (k : Comparator) (operand : Value) : Eval Value :=
  match k.compare operand with
  | .ok (.hit holds) => takeBranch exec node (.ofBool holds)
  | .ok (.miss v) => onMiss node v
  | .error cause => fail node cause

/-- Compares the operand at hand with the constant, and branches as the generic conditional
does; an answer that is no scalar is given to `onMiss`. -/
def finishComparison (exec : Evaluator) (onMiss : NodeId → Value → Eval Value)
    (node : NodeId) (operand : Value) : Eval Value := do
  match ← ask (·.kind node) with
  | .cond form =>
    let (op, _, right) ← comparison form.cond
    let constant ← exec right
    match operand.compareWith op constant with
    | .scalar (.logical truth) => takeBranch exec node truth
    | v => onMiss node v
  | kind => unexpected node kind

/-- The conversion step of a conditional, installed if the condition is not one yet. -/
def ensureConversion (node cond : NodeId) (kind : NodeKind) (observed : Value) : Eval NodeId :=
  if kind.isConversion then pure cond
  else edit (Edit.installConversion node cond (.ofValue observed))

/-- Adapts a conditional that missed and finishes its evaluation with the value observed, in at
most `rounds` adaptations. -/
def resume (exec : Evaluator) : Nat → NodeId → Value → Eval Value
  | 0, node, _ => fail node (.brokenTree (.retired node))
  | rounds + 1, node, observed => do
    let id ← ask (·.resolve node)
    match ← ask (·.kind id) with
    | .cond form =>
      let kind ← ask (·.kind form.cond)
      match Transition.forConditional form (some kind) observed with
      | .wrapCondition mode =>
        let step ← edit (Edit.installConversion id form.cond mode)
        takeBranch exec id (← convertObserved step observed)
      | .reuseConversion =>
        takeBranch exec id (← convertObserved form.cond observed)
      | .generalize =>
        let step ← ensureConversion id form.cond kind observed
        let generic ← edit (Edit.installGeneric id)
        takeBranch exec generic (← convertObserved step observed)
      | .specialize k =>
        let new ← edit (Edit.installSpecialized id k)
        compareSpecialized exec (resume exec rounds) new k observed
      | .demote =>
        let generic ← edit (Edit.installGeneric id)
        finishComparison exec (resume exec rounds) generic observed
      | .widenConversion => unexpected id (.cond form)
    | kind => unexpected id kind

/-- Goes on after a miss. An adaptation leads to the generic form or nearer to it; only a
subscriber can put a node back, and each runs once. -/
def settle (exec : Evaluator) (node : NodeId) (observed : Value) : Eval Value := do
  resume exec ((← get).watch.pending + 2) node observed

def conditional (exec : Evaluator) (node : NodeId) (form : Conditional) : Eval Value := do
  match form with
  | .generic cond _ _ =>
    match ← scalarLogical exec cond with
    | .hit truth => takeBranch exec node truth
    | .miss v => settle exec node v
  | .noElse cond _ | .twoBranch cond _ _ | .returnBuiltin cond _ _ _
  | .returnOverridden cond _ _ _ =>
    match ← presentLogical exec cond with
    | .hit truth => takeBranch exec node (.ofBool truth)
    | .miss v => settle exec node v
  | .const cond _ _ _ =>
    let (_, operand, _) ← comparison cond
    settle exec node (← exec operand)
  | .specialized cond _ _ k =>
    let (_, operand, _) ← comparison cond
    compareSpecialized exec (settle exec) node k (← exec operand)

end AdaptiveTree.Eval
