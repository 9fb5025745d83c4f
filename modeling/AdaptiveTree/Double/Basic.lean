/-!
Double precision numbers kept as their 64 bits and taken apart in exact integer
arithmetic. A finite double is its sign times `significand * 2 ^ exponent`; two
doubles are ordered through `orderKey`, which counts representable values.
-/

set_option autoImplicit false
set_option relaxedAutoImplicit false

namespace AdaptiveTree

/-- A double precision number, identified by its bit pattern. -/
structure Double where
  bits : UInt64
  deriving DecidableEq, Repr, Inhabited

namespace Double

/-- The weight of the sign bit. -/
def signBit : Nat := 0x8000000000000000

/-- The weight of the lowest bit of the exponent, which is the bit that a fraction leaves out. -/
def hiddenBit : Nat := 0x10000000000000

/-- The least magnitude that is no finite number. -/
def infiniteMagnitude : Nat := 0x7FF0000000000000

/-- The pattern without its sign bit. -/
def magnitude (d : Double) : Nat := d.bits.toNat % signBit

def isNegative (d : Double) : Bool := signBit ≤ d.bits.toNat

def isNaN (d : Double) : Bool := infiniteMagnitude < d.magnitude

def isInfinite (d : Double) : Bool := d.magnitude = infiniteMagnitude

def isFinite (d : Double) : Bool := d.magnitude < infiniteMagnitude

def ofNatBits (bits : Nat) : Double := ⟨UInt64.ofNat bits⟩

def zero : Double := ofNatBits 0

def one : Double := ofNatBits 0x3FF0000000000000

def infinity : Double := ofNatBits infiniteMagnitude

/-- The missing marker: one NaN pattern among many. -/
def na : Double := ofNatBits 0x7FF00000000007A2

/-- Adding half of the range flips the sign bit and nothing else. -/
def neg (d : Double) : Double := ofNatBits (d.bits.toNat + signBit)

instance : Neg Double := ⟨neg⟩

def exponentField (d : Double) : Nat := d.magnitude / hiddenBit

def fractionField (d : Double) : Nat := d.magnitude % hiddenBit

/-- The integer part of the exact value; subnormal numbers lack the hidden bit. -/
def significand (d : Double) : Nat :=
  if d.exponentField = 0 then d.fractionField else hiddenBit + d.fractionField

def exponent (d : Double) : Int := (max d.exponentField 1 : Nat) - 1075

/-- Order preserving on everything but NaN; both zeros have the key `0`. -/
def orderKey (d : Double) : Int :=
  if d.isNegative then -(d.magnitude : Int) else d.magnitude

/-- The order of two doubles, `none` when one of them is NaN. -/
def compare? (a b : Double) : Option Ordering :=
  if a.isNaN || b.isNaN then none else some (compare a.orderKey b.orderKey)

/-- Equality of values: NaN equals nothing and the two zeros are equal. -/
def sameValue (a b : Double) : Bool := a.compare? b = some .eq

/-- The exact value without its fraction, for a double that is not NaN. Infinity is out of
every integer's range because its fields read as `2 ^ 1024`. -/
def truncate (d : Double) : Int :=
  let size : Nat :=
    if 0 ≤ d.exponent then d.significand <<< d.exponent.toNat
    else d.significand >>> (-d.exponent).toNat
  if d.isNegative then -(size : Int) else size

/-- The pattern of a positive integer below `2 ^ 53`, which a double holds exactly. -/
def patternOfNat (n : Nat) : Nat :=
  (1023 + n.log2) * hiddenBit + (n - 1 <<< n.log2) <<< (52 - n.log2)

/-- The double equal to an integer of magnitude below `2 ^ 53`. -/
def ofInt (n : Int) : Double :=
  if n = 0 then zero
  else if n < 0 then ofNatBits (signBit + patternOfNat n.natAbs)
  else ofNatBits (patternOfNat n.natAbs)

end Double

end AdaptiveTree
