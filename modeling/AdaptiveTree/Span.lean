/-!
Stretches of source text, given by the byte offsets of their two ends.
-/

set_option autoImplicit false
set_option relaxedAutoImplicit false

namespace AdaptiveTree

structure Span where
  start : Nat
  stop : Nat
  deriving DecidableEq, Repr, Inhabited

/-- How many bytes characters take in UTF-8. -/
def byteLength : List Char → Nat
  | [] => 0
  | c :: rest => c.utf8Size + byteLength rest

/-- The characters that begin within the next `bytes` bytes. -/
def takeBytes : Nat → List Char → List Char
  | 0, _ => []
  | _, [] => []
  | n + 1, c :: rest => c :: takeBytes (n + 1 - c.utf8Size) rest

/-- What is left after the characters that begin within the next `bytes` bytes. -/
def dropBytes : Nat → List Char → List Char
  | 0, chars => chars
  | _, [] => []
  | n + 1, c :: rest => dropBytes (n + 1 - c.utf8Size) rest

namespace Span

/-- Where nothing better is known. -/
def origin : Span := ⟨0, 0⟩

/-- From the start of one stretch to the end of another. -/
def combine (a b : Span) : Span := ⟨a.start, b.stop⟩

def textIn (s : Span) (source : String) : String :=
  String.ofList (takeBytes (s.stop - s.start) (dropBytes s.start source.toList))

end Span

end AdaptiveTree
