import AdaptiveTree.Span

/-!
Messages about a place in the source.
-/

set_option autoImplicit false
set_option relaxedAutoImplicit false

namespace AdaptiveTree

inductive Severity where
  | error
  | warning
  | info
  deriving DecidableEq, Repr, Inhabited

def Severity.name : Severity → String
  | error => "error"
  | warning => "warning"
  | info => "info"

structure Diagnostic where
  severity : Severity
  message : String
  span : Span
  help : Option String
  code : Option String
  deriving DecidableEq, Repr, Inhabited

end AdaptiveTree
