import AdaptiveTree.Fault
import AdaptiveTree.Value.Basic
import AdaptiveTree.Text.Quoted

/-!
Functions that the surrounding program lends to the language. A host function may answer
by what it was asked before, so it is a function of its past calls.
-/

set_option autoImplicit false
set_option relaxedAutoImplicit false

namespace AdaptiveTree

structure HostFunction where
  /-- The name that the function gives itself. -/
  name : String
  /-- The answer to some arguments after the given earlier calls, the latest first. -/
  answer : List (List Value) → List Value → Except Fault Value
  deriving Inhabited

/-- A description, which only knows the name. -/
def HostFunction.text (f : HostFunction) : String :=
  "NativeFunction \x7b name: " ++ Text.quoted f.name ++ ", .. \x7d"

/-- A host function as defined at one time; each definition has calls of its own. -/
structure Definition where
  serial : Nat
  function : HostFunction
  deriving Inhabited

/-- One call of a host function. -/
structure HostCall where
  serial : Nat
  args : List Value
  deriving DecidableEq, Repr, Inhabited

end AdaptiveTree
