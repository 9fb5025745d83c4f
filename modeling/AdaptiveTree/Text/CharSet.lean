/-!
Sets of characters as ranges of code points, the form in which the properties of characters are
published. The sets are those of Unicode 17 and hold a few characters that were assigned later.
-/

set_option autoImplicit false
set_option relaxedAutoImplicit false

namespace AdaptiveTree.Text

structure CharSet where
  /-- Ranges with both ends included, ascending and apart. -/
  ranges : List (Nat × Nat)
  deriving DecidableEq, Repr, Inhabited

namespace CharSet

def has (s : CharSet) (c : Char) : Bool :=
  s.ranges.any fun r ↦ r.1 ≤ c.toNat && c.toNat ≤ r.2

end CharSet

end AdaptiveTree.Text
