/-!
# Binary64 numbers by their bits

A finite number is a whole count of units of `2 ^ -1074` with a sign (`Binary64.units`), so every
operation here computes exactly on `Nat` and rounds once (`Binary64.ofRatio`), to the nearest
number, a tie to the even significand. Nothing goes through a machine float.
-/

namespace ConfigCompiler

/-- A 64-bit binary floating point number; two of them are equal when their bits are. -/
structure Binary64 where
  bits : UInt64
  deriving DecidableEq, Hashable, Repr

namespace Binary64

/-! ## Fields -/

/-- The bits of infinity without its sign. -/
def infinityBits : Nat := 2047 <<< 52

/-- The bits without the sign. -/
def magnitude (x : Binary64) : Nat := x.bits.toNat % (1 <<< 63)

def isNegative (x : Binary64) : Bool := decide (1 <<< 63 ≤ x.bits.toNat)

def isNaN (x : Binary64) : Bool := decide (infinityBits < x.magnitude)

def isInfinite (x : Binary64) : Bool := decide (x.magnitude = infinityBits)

def isFinite (x : Binary64) : Bool := decide (x.magnitude < infinityBits)

def isZero (x : Binary64) : Bool := decide (x.magnitude = 0)

/-- The number with the given sign and bits below the sign. -/
def ofMagnitude (negative : Bool) (magnitude : Nat) : Binary64 :=
  ⟨UInt64.ofNat (if negative then 1 <<< 63 + magnitude else magnitude)⟩

def zero : Binary64 := ⟨0⟩

def nan : Binary64 := ⟨0x7ff8000000000000⟩

def infinity (negative : Bool) : Binary64 := ofMagnitude negative infinityBits

/-- One spelling for each number: every NaN becomes `nan` and a negative zero becomes `zero`. -/
def normalize (x : Binary64) : Binary64 :=
  if x.isNaN then nan else if x.isZero then zero else x

/-! ## Exact values -/

/-- The distance of a finite number from zero, in units of `2 ^ -1074`. -/
def units (x : Binary64) : Nat :=
  let exponent := x.magnitude >>> 52
  let fraction := x.magnitude % (1 <<< 52)
  if exponent = 0 then fraction else (1 <<< 52 + fraction) <<< (exponent - 1)

/-- The number of units in one. -/
def unitsPerOne : Nat := 1 <<< 1074

/-- The quotient rounded to a whole number, a tie to the even one. -/
def roundHalfEven (num den : Nat) : Nat :=
  let q := num / den
  let r := num % den
  if 2 * r < den ∨ (2 * r = den ∧ q % 2 = 0) then q else q + 1

/--
The number nearest to `num / den` units. A number of `2 ^ s` units times a significand below
`2 ^ 53` has the bits `s * 2 ^ 52 + significand`, also where the significand rounds up to
`2 ^ 53` and where it has no leading bit; from infinity's bits on it is infinity.
-/
def ofRatio (negative : Bool) (num den : Nat) : Binary64 :=
  let s := (num / den).log2 - 52
  ofMagnitude negative (min (s <<< 52 + roundHalfEven num (den <<< s)) infinityBits)

def ofInt (i : Int) : Binary64 := ofRatio (decide (i < 0)) (i.natAbs * unitsPerOne) 1

/-! ## Arithmetic -/

def mul (x y : Binary64) : Binary64 :=
  let negative := x.isNegative != y.isNegative
  if x.isNaN || y.isNaN then nan
  else if x.isInfinite || y.isInfinite then
    if x.isZero || y.isZero then nan else infinity negative
  else ofRatio negative (x.units * y.units) unitsPerOne

def div (x y : Binary64) : Binary64 :=
  let negative := x.isNegative != y.isNegative
  if x.isNaN || y.isNaN then nan
  else if x.isInfinite then if y.isInfinite then nan else infinity negative
  else if y.isInfinite then ofMagnitude negative 0
  else if y.isZero then if x.isZero then nan else infinity negative
  else ofRatio negative (x.units * unitsPerOne) y.units

/-- The nearest whole number to a finite one, a tie away from zero. -/
def round (x : Binary64) : Int :=
  let n := (2 * x.units + unitsPerOne) / (2 * unitsPerOne)
  if x.isNegative then -(n : Int) else n

/-- The whole number that a finite number denotes, if it denotes one. -/
def toInt? (x : Binary64) : Option Int :=
  if x.isFinite && x.units % unitsPerOne == 0 then some x.round else none

end Binary64

end ConfigCompiler
