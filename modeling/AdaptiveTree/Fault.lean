import AdaptiveTree.Diagnostic
import AdaptiveTree.Tree.Error

/-!
The ways in which an evaluation fails, their wording, and the diagnostics made of them.
-/

set_option autoImplicit false
set_option relaxedAutoImplicit false

namespace AdaptiveTree

inductive Fault where
  | emptyExtent
  | unexpectedNA
  | undefinedVariable (name : String)
  | undefinedFunction (name : String)
  | notAFunction (name : String)
  | invalidArgument (function message : String)
  | hostCall (function message : String)
  /-- A splice did not find a node where it expected it. -/
  | brokenTree (error : TreeError)
  /-- A node is not of the kind that its parent relies on. -/
  | unexpectedNode (found : String)
  deriving DecidableEq, Repr, Inhabited

namespace Fault

def message : Fault → String
  | emptyExtent => "argument is of length zero"
  | unexpectedNA => "missing value where TRUE/FALSE needed"
  | undefinedVariable name => "object '" ++ name ++ "' not found"
  | undefinedFunction name => "could not find function \"" ++ name ++ "\""
  | notAFunction name => "'" ++ name ++ "' is not a function"
  | invalidArgument function text => "invalid argument to " ++ function ++ ": " ++ text
  | hostCall function text => "error in " ++ function ++ ": " ++ text
  | brokenTree error => "internal error: " ++ error.message
  | unexpectedNode found => "internal error: unexpected " ++ found ++ " node"

def code : Fault → String
  | emptyExtent => "R001"
  | unexpectedNA => "R002"
  | undefinedVariable _ => "R003"
  | undefinedFunction _ => "R004"
  | notAFunction _ => "R005"
  | invalidArgument .. => "R006"
  | hostCall .. => "R007"
  | brokenTree _ | unexpectedNode _ => "R999"

def help? : Fault → Option String
  | unexpectedNA => some "use is.na() to test for missing values first"
  | _ => none

end Fault

/-- How an evaluation ends without a value. -/
inductive Failure where
  | fault (cause : Fault) (span : Span)
  /-- Evaluations were nested `limit` deep and one more was needed. -/
  | tooDeep (limit : Nat) (span : Span)
  deriving DecidableEq, Repr, Inhabited

namespace Failure

def span : Failure → Span
  | fault _ s => s
  | tooDeep _ s => s

def message : Failure → String
  | fault cause _ => cause.message
  | tooDeep limit _ => "Evaluation stack overflow: depth " ++ toString limit ++
      " exceeds maximum of " ++ toString limit

def diagnostic : Failure → Diagnostic
  | fault cause s => ⟨.error, cause.message, s, cause.help?, some cause.code⟩
  | tooDeep limit s => ⟨.error, (tooDeep limit s).message, s, none, some "L001"⟩

end Failure

end AdaptiveTree
