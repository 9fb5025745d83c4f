import AdaptiveTree.Comparator

/-!
The nodes of the executable tree. A node names its children by number and is never changed
into another kind in place; `children` and `withChildren` are the view in which splices
treat all kinds alike.
-/

set_option autoImplicit false
set_option relaxedAutoImplicit false

namespace AdaptiveTree

/-- What a conversion step expects below it. -/
inductive ConvertMode where
  | logical
  | integer
  | double
  | generic
  deriving DecidableEq, Repr, Inhabited

namespace ConvertMode

/-- The narrowest mode for a value. -/
def ofValue (v : Value) : ConvertMode :=
  match v.rank with
  | some .logical => logical
  | some .integer => integer
  | some .double => double
  | none => generic

def accepts (mode : ConvertMode) (v : Value) : Bool :=
  mode = generic || ofValue v = mode

def name : ConvertMode → String
  | logical => "Logical"
  | integer => "Integer"
  | double => "Double"
  | generic => "Generic"

end ConvertMode

/-- The forms of a conditional. -/
inductive Conditional where
  /-- Takes any truth value from its condition. -/
  | generic (cond thenBranch elseBranch : NodeId)
  /-- Expects a condition that is not missing, and has nothing to do if it fails. -/
  | noElse (cond thenBranch : NodeId)
  /-- Expects a condition that is not missing. -/
  | twoBranch (cond thenBranch elseBranch : NodeId)
  /-- Ends the program with `returnArg`, or goes on with `rest`; `return` has its own meaning. -/
  | returnBuiltin (cond : NodeId) (body : Option NodeId) (returnArg rest : NodeId)
  /-- The same statement after `return` was bound: an ordinary call, and `rest` always runs. -/
  | returnOverridden (cond : NodeId) (body : Option NodeId) (returnCall rest : NodeId)
  /-- Tests equality with a constant and has not seen the other operand yet. -/
  | const (cond thenBranch elseBranch : NodeId) (constant : Scalar)
  /-- Tests equality with a constant through a comparator for the operand's shape. -/
  | specialized (cond thenBranch elseBranch : NodeId) (comparator : Comparator)
  deriving DecidableEq, Repr, Inhabited

namespace Conditional

def cond : Conditional → NodeId
  | generic c _ _ | noElse c _ | twoBranch c _ _ | returnBuiltin c _ _ _
  | returnOverridden c _ _ _ | const c _ _ _ | specialized c _ _ _ => c

def children : Conditional → List NodeId
  | generic c t e | twoBranch c t e | const c t e _ | specialized c t e _ => [c, t, e]
  | noElse c t => [c, t]
  | returnBuiltin c body t r | returnOverridden c body t r => c :: body.toList ++ [t, r]

/-- The same form over other children; as many are needed as there were. -/
def withChildren : Conditional → List NodeId → Conditional
  | generic _ _ _, [c, t, e] => generic c t e
  | noElse _ _, [c, t] => noElse c t
  | twoBranch _ _ _, [c, t, e] => twoBranch c t e
  | returnBuiltin _ none _ _, [c, t, r] => returnBuiltin c none t r
  | returnBuiltin _ (some _) _ _, [c, b, t, r] => returnBuiltin c (some b) t r
  | returnOverridden _ none _ _, [c, t, r] => returnOverridden c none t r
  | returnOverridden _ (some _) _ _, [c, b, t, r] => returnOverridden c (some b) t r
  | const _ _ _ k, [c, t, e] => const c t e k
  | specialized _ _ _ k, [c, t, e] => specialized c t e k
  | node, _ => node

def name : Conditional → String
  | generic .. => "If"
  | noElse .. => "IfNoElse"
  | twoBranch .. => "IfElse"
  | returnBuiltin .. => "IfReturnRest.Builtin"
  | returnOverridden .. => "IfReturnRest.Overridden"
  | const .. => "IfConst"
  | specialized .. => "IfConst.Specialized"

end Conditional

inductive NodeKind where
  | constant (value : Value)
  | read (name : String)
  | assign (name : String) (value : NodeId)
  | sequence (items : List NodeId)
  | unary (op : UnaryOp) (operand : NodeId)
  | compare (op : CompareOp) (left right : NodeId)
  | call (callee : String) (args : List NodeId)
  /-- Turns what its input gives into one truth value. -/
  | convert (input : NodeId) (mode : ConvertMode)
  | cond (form : Conditional)
  deriving DecidableEq, Repr, Inhabited

namespace NodeKind

/-- The children in the order of their evaluation. -/
def children : NodeKind → List NodeId
  | constant _ | read _ => []
  | assign _ value => [value]
  | sequence items => items
  | unary _ operand => [operand]
  | compare _ left right => [left, right]
  | call _ args => args
  | convert input _ => [input]
  | cond form => form.children

/-- The same kind over other children; as many are needed as there were. -/
def withChildren : NodeKind → List NodeId → NodeKind
  | assign name _, [value] => assign name value
  | sequence _, items => sequence items
  | unary op _, [operand] => unary op operand
  | compare op _ _, [left, right] => compare op left right
  | call callee _, args => call callee args
  | convert _ mode, [input] => convert input mode
  | cond form, ids => cond (form.withChildren ids)
  | kind, _ => kind

/-- The first child slot that holds `old` holds `new` instead. -/
def replaceChild (kind : NodeKind) (old new : NodeId) : NodeKind :=
  kind.withChildren (kind.children.replace old new)

def isConversion : NodeKind → Bool
  | convert .. => true
  | _ => false

def name : NodeKind → String
  | constant _ => "Constant"
  | read _ => "Read"
  | assign .. => "Assign"
  | sequence _ => "Sequence"
  | unary .. => "Unary"
  | compare .. => "Compare"
  | call .. => "Call"
  | convert _ mode => "ConvertToLogical." ++ mode.name
  | cond form => form.name

end NodeKind

end AdaptiveTree
