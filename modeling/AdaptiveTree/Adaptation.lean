import AdaptiveTree.Tree.Splice
import AdaptiveTree.Transition

/-!
The edits that carry out transitions. Each allocates the new form of a node over the
children of the old one and splices it in.
-/

set_option autoImplicit false
set_option relaxedAutoImplicit false

namespace AdaptiveTree.Edit

def installConversion (node cond : NodeId) (mode : ConvertMode) : Edit NodeId :=
  insertAbove node cond (fun input ↦ .convert input mode) "condition is not a scalar logical"

/-- Replaces a conditional by another form at the same place in the source. -/
def installForm (node : NodeId) (form : Conditional) (reason : String) : Edit NodeId := do
  let span ← ask (·.span node)
  let new ← alloc (.cond form) span
  replaceSelf node new reason

/-- Replaces a conditional by the generic one. A missing branch becomes one that gives nothing. -/
def installGeneric (node : NodeId) : Edit NodeId := do
  match ← ask (·.kind node) with
  | .cond (.noElse c t) =>
    let e ← alloc (.constant .null) (← ask (·.span node))
    installForm node (.generic c t e) "condition is not a non-NA logical"
  | .cond (.twoBranch c t e) =>
    installForm node (.generic c t e) "condition is not a non-NA logical"
  | .cond (.const c t e _) | .cond (.specialized c t e _) =>
    installForm node (.generic c t e) "operand shape not supported"
  | _ => throw (.retired node)

def installSpecialized (node : NodeId) (comparator : Comparator) : Edit NodeId := do
  match ← ask (·.kind node) with
  | .cond (.const c t e _) =>
    installForm node (.specialized c t e comparator) "first operand observed"
  | _ => throw (.retired node)

/-- Replaces a conversion step by the one that accepts every value. -/
def widenConversion (node : NodeId) : Edit NodeId := do
  match ← ask (·.kind node) with
  | .convert input _ =>
    let new ← alloc (.convert input .generic) (← ask (·.span node))
    replaceSelf node new "condition changed type"
  | _ => throw (.retired node)

/-- The conditional that `owner` has become calls `return` like any other function from now on.
Nothing is done if it is gone or does so already. -/
def overrideReturn (owner : NodeId) (callSpan : Span) : Edit Unit := do
  match (← get).resolve owner with
  | .error (.retired _) => return ()
  | .error e => throw e
  | .ok node =>
    match ← ask (·.kind node) with
    | .cond (.returnBuiltin c body arg rest) =>
      let call ← alloc (.call "return" [arg]) callSpan
      let _ ← installForm node (.returnOverridden c body call rest) "return rebound"
    | _ => return ()

end AdaptiveTree.Edit
