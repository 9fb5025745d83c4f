import AdaptiveTree.Builtin
import AdaptiveTree.Frame
import AdaptiveTree.Watch

/-!
All the state that programs share: the tree they are evaluated from, who waits for which
name, the bindings, the host calls made, and the warnings. Binding a builtin's name tells
everybody who relied on the builtin before anything else happens.
-/

set_option autoImplicit false
set_option relaxedAutoImplicit false

namespace AdaptiveTree

structure Machine where
  tree : Tree
  watch : Watch
  frame : Frame
  /-- The number of host functions ever defined. -/
  defined : Nat
  /-- Every call of a host function, the latest first. -/
  hostCalls : List HostCall
  /-- Oldest first. -/
  warnings : Array Diagnostic
  deriving Inhabited

namespace Machine

def empty : Machine := ⟨.empty, .empty, .empty, 0, [], #[]⟩

/-- Runs the subscribers of a name. -/
def notify (m : Machine) (name : String) : Except TreeError Unit × Machine :=
  match m.watch.notify name m.tree with
  | (watch, tree, failure) =>
    (failure.elim (.ok ()) .error, { m with watch := watch, tree := tree })

/-- Binds a name. The binding stands before the subscribers of a builtin's name run, and stays
if one of them fails. -/
def bind (m : Machine) (name : String) (binding : Binding) : Except TreeError Unit × Machine :=
  let bound := { m with frame := m.frame.insert name binding }
  if Builtin.isName name then bound.notify name else (.ok (), bound)

def bindValue (m : Machine) (name : String) (v : Value) : Except TreeError Unit × Machine :=
  m.bind name (.value v)

/-- Binds a name to a new definition of a host function, which has not been called yet. -/
def bindFunction (m : Machine) (name : String) (f : HostFunction) :
    Except TreeError Unit × Machine :=
  { m with defined := m.defined + 1 }.bind name (.function ⟨m.defined, f⟩)

/-- Removes a binding. What was replaced for it stays replaced. -/
def unbind (m : Machine) (name : String) : Machine := { m with frame := m.frame.erase name }

/-- The arguments of the calls made to a definition, the latest first. -/
def history (m : Machine) (serial : Nat) : List (List Value) :=
  (m.hostCalls.filter fun c ↦ c.serial = serial).map HostCall.args

def callHost (m : Machine) (f : Definition) (args : List Value) :
    Except Fault Value × Machine :=
  (f.function.answer (m.history f.serial) args,
    { m with hostCalls := ⟨f.serial, args⟩ :: m.hostCalls })

/-- Where the construct stands that a node was made for, as far as that is known. -/
def spanOf (m : Machine) (node : NodeId) : Span :=
  match m.tree.resolve node with
  | .error _ => .origin
  | .ok id =>
    match m.tree.span id with
    | .ok s => s
    | .error _ => .origin

def warn (m : Machine) (node : NodeId) (code message : String) : Machine :=
  { m with warnings := m.warnings.push ⟨.warning, message, m.spanOf node, none, some code⟩ }

end Machine

end AdaptiveTree
