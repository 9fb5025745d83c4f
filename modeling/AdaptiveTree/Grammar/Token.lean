/-!
The shapes of names and numbers. Each scanner splits a text into what it takes and what it
leaves; digits and letters are those of ASCII.
-/

set_option autoImplicit false
set_option relaxedAutoImplicit false

namespace AdaptiveTree.Grammar.Token

/-- The characters of names. -/
def isNameChar (c : Char) : Bool := c.isAlphanum || c = '.' || c = '_'

/-- The run of name characters that a text begins with. -/
def word (chars : List Char) : List Char := chars.takeWhile isNameChar

def keywords : List (List Char) :=
  ["if".toList, "else".toList, "NULL".toList, "NA".toList, "TRUE".toList, "FALSE".toList]

/-- A name begins with a letter, or with a point that no digit follows. -/
def startsName : List Char → Bool
  | '.' :: c :: _ => ! c.isDigit
  | ['.'] => true
  | c :: _ => c.isAlpha
  | [] => false

/-- A name: a word that starts like one and is no keyword. -/
def name? (chars : List Char) : Option (String × List Char × List Char) :=
  if startsName chars && ! keywords.contains (word chars) then
    some (String.ofList (word chars), word chars, chars.dropWhile isNameChar)
  else none

/-- The keyword `w`, which no name character follows. -/
def keyword? (w : String) (chars : List Char) : Option (Unit × List Char × List Char) :=
  if word chars = w.toList then some ((), word chars, chars.dropWhile isNameChar) else none

def digitValue (c : Char) : Nat := c.toNat - 48

/-- The number that some digits are written for. -/
def digitsValue (digits : List Char) : Nat := digits.foldl (fun n c ↦ 10 * n + digitValue c) 0

/-- Digits and the suffix `L`. -/
def integer? (chars : List Char) : Option (Nat × List Char × List Char) :=
  let digits := chars.takeWhile Char.isDigit
  match digits, chars.dropWhile Char.isDigit with
  | _ :: _, 'L' :: rest => some (digitsValue digits, digits ++ ['L'], rest)
  | _, _ => none

/-- Digits with a point behind or between them, or in front if digits follow: the digits, how
many of them stand behind the point, and the text. -/
def mantissa? (chars : List Char) : Option ((List Char × Nat) × List Char × List Char) :=
  let whole := chars.takeWhile Char.isDigit
  match whole, chars.dropWhile Char.isDigit with
  | [], '.' :: rest =>
    match rest.takeWhile Char.isDigit with
    | [] => none
    | places => some ((places, places.length), '.' :: places, rest.dropWhile Char.isDigit)
  | [], _ => none
  | _, '.' :: rest =>
    let places := rest.takeWhile Char.isDigit
    some ((whole ++ places, places.length), whole ++ '.' :: places, rest.dropWhile Char.isDigit)
  | _, rest => some ((whole, 0), whole, rest)

/-- The sign of an exponent: whether it is negative, and the text. -/
def sign : List Char → Bool × List Char × List Char
  | '-' :: rest => (true, ['-'], rest)
  | '+' :: rest => (false, ['+'], rest)
  | rest => (false, [], rest)

/-- The exponent behind a mantissa; without digits there is none. -/
def exponent? : List Char → Option (Int × List Char × List Char)
  | [] => none
  | e :: chars =>
    let (negative, mark, unsigned) := sign chars
    let digits := unsigned.takeWhile Char.isDigit
    if (e = 'e' || e = 'E') && ! digits.isEmpty then
      let n : Int := digitsValue digits
      some (if negative then -n else n, e :: mark ++ digits, unsigned.dropWhile Char.isDigit)
    else none

/-- A number with a point, an exponent, both or neither, as digits and a power of ten. -/
def double? (chars : List Char) : Option ((Nat × Int) × List Char × List Char) :=
  match mantissa? chars with
  | none => none
  | some ((digits, places), taken, rest) =>
    match exponent? rest with
    | none => some ((digitsValue digits, -places), taken, rest)
    | some (power, taken', rest') =>
      some ((digitsValue digits, power - places), taken ++ taken', rest')

end AdaptiveTree.Grammar.Token
