/-!
Sources as lines. A line keeps the characters that end it, so the lines of a source join to
the source again; offsets count characters.
-/

set_option autoImplicit false
set_option relaxedAutoImplicit false

namespace AdaptiveTree.Report

structure Line where
  /-- The number of characters in front of the line. -/
  offset : Nat
  chars : List Char
  deriving DecidableEq, Repr, Inhabited

namespace Line

def stop (l : Line) : Nat := l.offset + l.chars.length

end Line

/-- The characters after which a line ends. -/
def isLineBreak (c : Char) : Bool :=
  c = '\n' || c = '\r' || c.toNat = 0xB || c.toNat = 0xC || c.toNat = 0x85 ||
    c.toNat = 0x2028 || c.toNat = 0x2029

/-- Whether a line ends with `c`; a line feed stays with the carriage return in front of it. -/
def endsLine (c : Char) (rest : List Char) : Bool :=
  isLineBreak c && ! (c = '\r' && rest.head? = some '\n')

/-- Splits a text after line breaks. `taken` is the part of the current line already seen, in
reverse order. -/
def linesFrom (offset : Nat) (taken : List Char) : List Char → List Line
  | [] => if taken.isEmpty then [] else [⟨offset, taken.reverse⟩]
  | c :: rest =>
    if endsLine c rest then
      ⟨offset, (c :: taken).reverse⟩ :: linesFrom (offset + taken.length + 1) [] rest
    else linesFrom offset (c :: taken) rest

/-- The lines of a source, of which there is at least one. -/
def linesOf (source : String) : List Line :=
  match linesFrom 0 [] source.toList with
  | [] => [⟨0, []⟩]
  | lines => lines

/-- The number, from zero, and the contents of the line that a character offset lies in. The end
of the source lies in its last line. -/
def lineAt? (lines : List Line) (length offset : Nat) : Option (Nat × Line) :=
  if length < offset then none
  else
    let number := (lines.filter fun l ↦ l.offset ≤ offset).length - 1
    lines[number]?.map fun l ↦ (number, l)

end AdaptiveTree.Report
