import AdaptiveTree.Node

/-!
The rules of adaptation: which change a node needs after it met a value that its present form
does not handle.
-/

set_option autoImplicit false
set_option relaxedAutoImplicit false

namespace AdaptiveTree

inductive Transition where
  /-- Put a conversion step above the condition. -/
  | wrapCondition (mode : ConvertMode)
  /-- The condition is a conversion step already. -/
  | reuseConversion
  /-- Replace a restricted conditional by the generic one. -/
  | generalize
  /-- Install a comparator for the operand seen. -/
  | specialize (comparator : Comparator)
  /-- Give up comparing with a constant. -/
  | demote
  /-- Let a conversion step accept every value. -/
  | widenConversion
  deriving DecidableEq, Repr, Inhabited

namespace Transition

/-- How a conditional gets a conversion step above its condition. -/
def forCondition (cond : Option NodeKind) (observed : Value) : Transition :=
  if cond.any NodeKind.isConversion then reuseConversion
  else wrapCondition (.ofValue observed)

/-- The change for a conditional over the condition `cond`. -/
def forConditional (form : Conditional) (cond : Option NodeKind) (observed : Value) :
    Transition :=
  match form with
  | .generic .. | .returnBuiltin .. | .returnOverridden .. => forCondition cond observed
  | .noElse .. | .twoBranch .. => generalize
  | .const _ _ _ constant =>
    match Comparator.forShapes? observed constant with
    | some k => specialize k
    | none => demote
  | .specialized .. => demote

/-- The change for a node that observed a value, if it needs one. -/
def plan? (node : NodeKind) (cond : Option NodeKind) (observed : Value) : Option Transition :=
  match node with
  | .cond form => some (forConditional form cond observed)
  | .convert _ mode => if mode.accepts observed then none else some widenConversion
  | _ => none

end Transition

end AdaptiveTree
