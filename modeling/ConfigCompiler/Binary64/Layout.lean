import ConfigCompiler.Binary64.Decimal

/-!
# Ways to write a binary64 number

A `Layout` holds the decisions that a format leaves open around the shortest digits: which
magnitudes are written positionally, whether a whole number keeps a fraction, how the exponent
looks and what stands for the numbers without digits.
-/

namespace ConfigCompiler

structure Layout where
  /-- The least place of a leading digit that is written positionally, if there is one. -/
  leastPlace : Option Int
  /-- The greatest such place, if there is one. -/
  greatestPlace : Option Int
  /-- A positional whole number ends in `.0`. -/
  keepsFraction : Bool
  /-- What an exponent that is not negative starts with. -/
  plus : String
  tie : Binary64.Tie
  nan : String
  infinity : String
  negativeInfinity : String

namespace Layout

private def digitsText (n : Nat) : List Char := Nat.toDigits 10 n

/-- The decimal with its point and without an exponent. -/
def positional (keepsFraction : Bool) (d : Decimal) : String :=
  let ds := digitsText d.digits
  let fractionLength := (-d.exponent).toNat
  let whole := ds ++ List.replicate d.exponent.toNat '0'
  if fractionLength = 0 then
    String.ofList (if keepsFraction then whole ++ ['.', '0'] else whole)
  else
    let padded := List.replicate (fractionLength + 1 - ds.length) '0' ++ ds
    let pointAt := padded.length - fractionLength
    String.ofList (padded.take pointAt ++ '.' :: padded.drop pointAt)

/-- The decimal with one digit before the point and an exponent. -/
def scientific (plus : String) (d : Decimal) : String :=
  let exponent := d.place
  let sign := if exponent < 0 then "-" else plus
  let mantissa := match digitsText d.digits with
    | first :: second :: rest => first :: '.' :: second :: rest
    | short => short
  String.ofList mantissa ++ "e" ++ sign ++ toString exponent.natAbs

/-- The text of a number. -/
def write (l : Layout) (x : Binary64) : String :=
  if x.isNaN then l.nan
  else if x.isInfinite then if x.isNegative then l.negativeInfinity else l.infinity
  else
    let sign := if x.isNegative then "-" else ""
    if x.isZero then sign ++ positional l.keepsFraction ⟨0, 0⟩
    else
      let d := x.shortest l.tie
      let isPositional := l.leastPlace.all (· ≤ d.place) && l.greatestPlace.all (d.place ≤ ·)
      sign ++ if isPositional then positional l.keepsFraction d else scientific l.plus d

/-- JSON text: positional from `1e-5` up to `1e16`, and no spelling for what JSON cannot hold. -/
def json : Layout where
  leastPlace := some (-5)
  greatestPlace := some 15
  keepsFraction := true
  plus := "+"
  tie := .even
  nan := "null"
  infinity := "null"
  negativeInfinity := "null"

/-- Inspection of a value: positional from `1e-4` up to `1e16`. -/
def inspect : Layout where
  leastPlace := some (-4)
  greatestPlace := some 15
  keepsFraction := true
  plus := ""
  tie := .up
  nan := "NaN"
  infinity := "inf"
  negativeInfinity := "-inf"

/-- Messages: always positional, a whole number without a fraction. -/
def message : Layout where
  leastPlace := none
  greatestPlace := none
  keepsFraction := false
  plus := ""
  tie := .up
  nan := "NaN"
  infinity := "inf"
  negativeInfinity := "-inf"

end Layout

end ConfigCompiler
