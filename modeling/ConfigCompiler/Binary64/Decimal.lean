import ConfigCompiler.Binary64.Basic

/-!
# Decimals of binary64 numbers

`Binary64.ofDecimal` reads `digits * 10 ^ exponent` as the nearest number. `Binary64.shortest` goes
back: of the decimals that read as the number it takes one with the fewest digits, and of those
the nearest.
-/

namespace ConfigCompiler

/-- The nonnegative decimal `digits * 10 ^ exponent`. -/
structure Decimal where
  digits : Nat
  exponent : Int
  deriving DecidableEq, Repr

namespace Decimal

/-- The number of decimal digits of a number, one for zero. -/
def digitCount (n : Nat) : Nat := (Nat.toDigits 10 n).length

/-- The place of the leading digit: `x` lies in `[10 ^ place, 10 ^ (place + 1))` unless it is zero. -/
def place (d : Decimal) : Int := digitCount d.digits - 1 + d.exponent

/-- Numerator and denominator of a decimal. -/
def ratio (d : Decimal) : Nat × Nat :=
  (d.digits * Nat.pow 10 d.exponent.toNat, Nat.pow 10 (-d.exponent).toNat)

/-- The same decimal without zeros at its end; `fuel` bounds their number. -/
def trimZeros : (fuel : Nat) → Decimal → Decimal
  | 0, d => d
  | fuel + 1, d =>
    if d.digits ≠ 0 ∧ d.digits % 10 = 0 then trimZeros fuel ⟨d.digits / 10, d.exponent + 1⟩ else d

end Decimal

namespace Binary64

/--
The number nearest to a decimal, with a sign. Beyond the places that binary64 reaches, the answer
is infinity or zero and needs no powers of ten.
-/
def ofDecimal (negative : Bool) (d : Decimal) : Binary64 :=
  if d.digits = 0 then ofMagnitude negative 0
  else if d.place > 400 then infinity negative
  else if d.place < -400 then ofMagnitude negative 0
  else ofRatio negative (d.ratio.1 * unitsPerOne) d.ratio.2

/-- The place of the leading digit of a finite nonzero number; all of them lie above `10 ^ -400`. -/
def place (x : Binary64) : Int :=
  Decimal.digitCount (x.units * Nat.pow 10 400 / unitsPerOne) - 401

/--
The decimals next to `x` below and above on the grid of `10 ^ exponent`, that below first, and
twice the distance of `x` from the lower one as a share of the grid's step.
-/
def neighbours (x : Binary64) (exponent : Int) : Decimal × Decimal × Nat × Nat :=
  let num := x.units * Nat.pow 10 (-exponent).toNat
  let den := unitsPerOne * Nat.pow 10 exponent.toNat
  (⟨num / den, exponent⟩, ⟨num / den + 1, exponent⟩, 2 * (num % den), den)

/-- Which decimal is taken where two are equally near. -/
inductive Tie where
  | even
  | up
  deriving DecidableEq, Repr

/-- The decimal of the grid of `10 ^ exponent` nearest to `x` among those that read as `x`. -/
def onGrid? (tie : Tie) (x : Binary64) (exponent : Int) : Option Decimal :=
  let (below, above, twice, whole) := x.neighbours exponent
  let reads (d : Decimal) : Bool := ofDecimal x.isNegative d == x
  match reads below, reads above with
  | false, false => none
  | true, false => some below
  | false, true => some above
  | true, true =>
    if twice < whole then some below
    else if whole < twice then some above
    else match tie with
      | .up => some above
      | .even => some (if below.digits % 2 = 0 then below else above)

/--
The shortest decimal that reads as a finite nonzero number, without zeros at its end. Seventeen
digits always suffice.
-/
def shortest (tie : Tie) (x : Binary64) : Decimal :=
  let digits? (n : Nat) : Option Decimal := x.onGrid? tie (x.place - n)
  let found := (List.range 17).findSome? digits?
  (found.getD ⟨x.units, -1074⟩).trimZeros 17

end Binary64

end ConfigCompiler
