import AdaptiveTree.Double.Basic

/-!
Decimal text of doubles. `ofDecimal` rounds a decimal to the nearest double, a half to the
even neighbour. `shortest` finds the fewest digits that read back, so a finite double is
the value of its own text; text is positional at every size.
-/

set_option autoImplicit false
set_option relaxedAutoImplicit false

namespace AdaptiveTree.Double

/-- The nearest integer to `num / den`; a half goes to the even neighbour. -/
def roundHalfEven (num den : Nat) : Nat :=
  let low := num / den
  let twice := 2 * (num % den)
  if twice < den then low
  else if den < twice then low + 1
  else low + low % 2

/-- The binary exponent of a positive ratio: the greatest `e` with `2 ^ e ≤ num / den`. -/
def ratioLog2 (num den : Nat) : Int :=
  let e : Int := (num.log2 : Int) - den.log2
  if num <<< (-e).toNat < den <<< e.toNat then e - 1 else e

/-- The double nearest to `num / den`. The significand is rounded on the grid `2 ^ q` of its
binade and added to the pattern of `q`, so a carry moves on to the next binade, and from the
last binade to infinity. -/
def ofRatio (num den : Nat) : Double :=
  if num = 0 then zero
  else
    let q := max (ratioLog2 num den - 52) (-1074)
    let m := roundHalfEven (num <<< (-q).toNat) (den <<< q.toNat)
    ofNatBits (min ((q + 1074).toNat * hiddenBit + m) infiniteMagnitude)

/-- A power of ten. -/
def tenTo (n : Nat) : Nat := Nat.pow 10 n

/-- How many decimal digits a number is written with. -/
def digitCount (n : Nat) : Nat := (Nat.toDigits 10 n).length

/-- The double nearest to `digits * 10 ^ power`. Powers far outside the range of doubles are
answered without being computed. -/
def ofDecimal (digits : Nat) (power : Int) : Double :=
  if digits = 0 then zero
  else if 400 < (digitCount digits : Int) + power then infinity
  else if (digitCount digits : Int) + power < -400 then zero
  else ofRatio (digits * tenTo power.toNat) (tenTo (-power).toNat)

/-- The magnitude of a finite double as a ratio of integers. -/
def ratio (d : Double) : Nat × Nat :=
  (d.significand <<< d.exponent.toNat, 1 <<< (-d.exponent).toNat)

/-- The power of ten at or below a positive ratio. -/
def ratioLog10 (num den : Nat) : Int :=
  if den ≤ num then digitCount (num / den) - 1
  else -(digitCount ((den - 1) / num) : Int)

/-- A number on the decimal grid `10 ^ power`. -/
structure Decimal where
  digits : Nat
  power : Int
  deriving DecidableEq, Repr, Inhabited

/-- The neighbour of `num / den` on the grid `10 ^ power` that reads back as `target`. If both
do, the nearer one, and the upper one in a tie. -/
def gridHit? (target : Double) (num den : Nat) (power : Int) : Option Decimal :=
  let n := num * tenTo (-power).toNat
  let m := den * tenTo power.toNat
  let low := n / m
  let lowHit := ofDecimal low power = target
  let highHit := ofDecimal (low + 1) power = target
  if lowHit ∧ (¬ highHit ∨ 2 * (n % m) < m) then some ⟨low, power⟩
  else if highHit then some ⟨low + 1, power⟩
  else none

/-- The decimal with the fewest digits that reads back as the magnitude of a finite double,
found on ever finer grids. Seventeen digits always suffice; the last resort is the exact value. -/
def shortest (d : Double) : Decimal :=
  let r := d.ratio
  let target := ofNatBits d.magnitude
  let start := ratioLog10 r.1 r.2 + 1
  match (List.range 18).findSome? fun (i : Nat) ↦ gridHit? target r.1 r.2 (start - i) with
  | some hit => hit
  | none => ⟨r.1 * Nat.pow 5 (-d.exponent).toNat, min d.exponent 0⟩

/-- Positional text: zeros behind a positive power, a point in front of `-power` digits. -/
def Decimal.text (x : Decimal) : String :=
  let written := Nat.toDigits 10 x.digits
  if 0 ≤ x.power then String.ofList (written ++ List.replicate x.power.toNat '0')
  else
    let places := (-x.power).toNat
    let padded := List.replicate (places + 1 - written.length) '0' ++ written
    String.ofList (padded.take (padded.length - places) ++ '.' ::
      padded.drop (padded.length - places))

/-- The text of a double. Only one NaN pattern is the missing marker. -/
def text (d : Double) : String :=
  if d = na then "NA"
  else if d.isNaN then "NaN"
  else
    let sign := if d.isNegative then "-" else ""
    if d.isInfinite then sign ++ "Inf"
    else if d.magnitude = 0 then sign ++ "0"
    else sign ++ d.shortest.text

end AdaptiveTree.Double
