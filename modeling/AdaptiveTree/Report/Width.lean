import AdaptiveTree.Text.Extending
import AdaptiveTree.Text.Wide

/-!
How wide characters are shown. Ideographs and their like take two columns, what melts into its
neighbours takes none, and nearly everything else takes one.
-/

set_option autoImplicit false
set_option relaxedAutoImplicit false

namespace AdaptiveTree.Report

open Text

/-- Characters that are not shown unless a font knows better. -/
def ignorable : CharSet :=
  ⟨[(0xAD, 0xAD), (0x34F, 0x34F), (0x61C, 0x61C), (0x115F, 0x1160), (0x17B4, 0x17B5),
    (0x180B, 0x180F), (0x200B, 0x200F), (0x202A, 0x202E), (0x2060, 0x206F), (0x3164, 0x3164),
    (0xFE00, 0xFE0F), (0xFEFF, 0xFEFF), (0xFFA0, 0xFFA0), (0xFFF0, 0xFFF8), (0x1BCA0, 0x1BCA3),
    (0x1D173, 0x1D17A), (0xE0000, 0xE0FFF)]⟩

/-- The vowels and finals that join an initial to one syllable block. -/
def joiningJamo : CharSet := ⟨[(0x1160, 0x11FF), (0xD7B0, 0xD7C6), (0xD7CB, 0xD7FB)]⟩

/-- Signs that are drawn over or under the text behind them, consonants that join the one behind
them, and the caret. -/
def overlaid : CharSet :=
  ⟨[(0x605, 0x605), (0x70F, 0x70F), (0x890, 0x891), (0x8E2, 0x8E2), (0xD4E, 0xD4E),
    (0xA8FA, 0xA8FA), (0x111C2, 0x111C3), (0x113D1, 0x113D1), (0x1193F, 0x1193F),
    (0x11941, 0x11941), (0x11A84, 0x11A89), (0x11D46, 0x11D46), (0x11F02, 0x11F02)]⟩

/-- The characters that are shown as blank space. -/
def blank : CharSet :=
  ⟨[(0x9, 0xD), (0x20, 0x20), (0x85, 0x85), (0xA0, 0xA0), (0x1680, 0x1680), (0x2000, 0x200A),
    (0x2028, 0x2029), (0x202F, 0x202F), (0x205F, 0x205F), (0x3000, 0x3000)]⟩

def isBlank (c : Char) : Bool := blank.has c

/-- Widths that do not follow from a property: an initial that stands for a whole block, a joiner
that is visible, and two ligatures. -/
def widthException? (c : Char) : Option Nat :=
  match c.toNat with
  | 0x115F => some 2
  | 0x2D7F => some 1
  | 0x17A4 => some 2
  | 0x17D8 => some 3
  | _ => none

/-- The number of columns that a character takes wherever it stands. -/
def charWidth (c : Char) : Nat :=
  match widthException? c with
  | some n => n
  | none =>
    if extending.has c || ignorable.has c || joiningJamo.has c || overlaid.has c then 0
    else if wide.has c then 2
    else 1

/-- Tabs lead to the next multiple of this column. -/
def tabStop : Nat := 4

/-- The width of a character that stands at the given column. -/
def widthAt (column : Nat) (c : Char) : Nat :=
  if c = '\t' then (column / tabStop + 1) * tabStop - column
  else if isBlank c then 1
  else charWidth c

end AdaptiveTree.Report
