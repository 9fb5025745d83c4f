/-!
The numbers by which nodes are known, and what a splice that did not find its nodes reports.
-/

set_option autoImplicit false
set_option relaxedAutoImplicit false

namespace AdaptiveTree

/-- Nodes are numbered in the order of their allocation. -/
abbrev NodeId := Nat

namespace NodeId

def text (id : NodeId) : String := "#" ++ toString id

end NodeId

inductive TreeError where
  | notAChild (parent child : NodeId)
  | retired (node : NodeId)
  | unknownNode (node : NodeId)
  deriving DecidableEq, Repr, Inhabited

def TreeError.message : TreeError → String
  | notAChild parent child => "node " ++ child.text ++ " is not a child of " ++ parent.text
  | retired node => "node " ++ node.text ++ " has been replaced or discarded"
  | unknownNode node => "unknown node " ++ node.text

end AdaptiveTree
