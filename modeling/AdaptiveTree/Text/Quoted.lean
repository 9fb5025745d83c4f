import AdaptiveTree.Text.Extending
import AdaptiveTree.Text.Unprintable

/-!
Names in double quotes, as descriptions for people show them. Quotes and backslashes are escaped,
and so is what could not be seen or would melt into the character in front of it.
-/

set_option autoImplicit false
set_option relaxedAutoImplicit false

namespace AdaptiveTree.Text

/-- A character by its number in base sixteen. -/
def numbered (c : Char) : List Char :=
  ['\\', 'u', '\x7b'] ++ Nat.toDigits 16 c.toNat ++ ['\x7d']

/-- A character between quotes. -/
def escaped (c : Char) : List Char :=
  if c = '"' || c = '\\' then ['\\', c]
  else if c = '\n' then ['\\', 'n']
  else if c = '\r' then ['\\', 'r']
  else if c = '\t' then ['\\', 't']
  else if c.toNat = 0 then ['\\', '0']
  else if extending.has c || unprintable.has c then numbered c
  else [c]

def quoted (s : String) : String := String.ofList ('"' :: s.toList.flatMap escaped ++ ['"'])

end AdaptiveTree.Text
