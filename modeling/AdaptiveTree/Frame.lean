import AdaptiveTree.Host

/-!
The bindings of a program: one flat table from names to values and host functions.
-/

set_option autoImplicit false
set_option relaxedAutoImplicit false

namespace AdaptiveTree

inductive Binding where
  | value (v : Value)
  | function (f : Definition)
  deriving Inhabited

/-- Every name is bound at most once. -/
structure Frame where
  bindings : List (String × Binding)
  deriving Inhabited

namespace Frame

def empty : Frame := ⟨[]⟩

def get? (f : Frame) (name : String) : Option Binding := f.bindings.lookup name

def contains (f : Frame) (name : String) : Bool := (f.get? name).isSome

def size (f : Frame) : Nat := f.bindings.length

def erase (f : Frame) (name : String) : Frame := ⟨f.bindings.filter fun b ↦ b.1 ≠ name⟩

def insert (f : Frame) (name : String) (binding : Binding) : Frame :=
  ⟨(name, binding) :: (f.erase name).bindings⟩

/-- The value that a name is bound to, if it is not bound to a function. -/
def value? (f : Frame) (name : String) : Option Value :=
  match f.get? name with
  | some (.value v) => some v
  | _ => none

end Frame

end AdaptiveTree
