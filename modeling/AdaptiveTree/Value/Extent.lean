import AdaptiveTree.Value.Coercion

/-!
The reduction of a value to the one element that a condition needs: a longer value is cut
to its first element and says so, and an empty one has none.
-/

set_option autoImplicit false
set_option relaxedAutoImplicit false

namespace AdaptiveTree

/-- How the element taken relates to the value it was taken from. -/
inductive Extent where
  | single
  | truncated (length : Nat)
  deriving DecidableEq, Repr, Inhabited

namespace Value

def extent (v : Value) : Extent := if v.length = 1 then .single else .truncated v.length

def single? (v : Value) : Option (Scalar × Extent) :=
  v.elements.head?.map fun s ↦ (s, v.extent)

def truth? (v : Value) : Option (Logical × Extent) :=
  v.single?.map fun (s, e) ↦ (s.toLogical, e)

end Value

end AdaptiveTree
