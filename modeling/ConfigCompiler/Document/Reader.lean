/-!
# Readers

A reader takes what it reads off the front of the text and leaves the rest.
-/

namespace ConfigCompiler.Document

abbrev Reader (α : Type) := List Char → Option (α × List Char)

/-- The text after a word, if it starts with it. -/
def after? : (word s : List Char) → Option (List Char)
  | [], s => some s
  | w :: word, c :: s => if w = c then after? word s else none
  | _ :: _, [] => none

/-- The number that digits in a base stand for, the leading one first. -/
def baseNumber (base : Nat) (digits : List Nat) : Nat := digits.foldl (fun n d => base * n + d) 0

/-- The value of decimal digits. -/
def digitsValue (ds : List Char) : Nat := baseNumber 10 (ds.map fun c => c.toNat - '0'.toNat)

def hexValue? (c : Char) : Option Nat :=
  if '0' ≤ c ∧ c ≤ '9' then some (c.toNat - '0'.toNat)
  else if 'a' ≤ c ∧ c ≤ 'f' then some (c.toNat - 'a'.toNat + 10)
  else if 'A' ≤ c ∧ c ≤ 'F' then some (c.toNat - 'A'.toNat + 10)
  else none

/-- The value of hexadecimal digits of either case. -/
def hexNumber? (ds : List Char) : Option Nat := (ds.mapM hexValue?).map (baseNumber 16)

end ConfigCompiler.Document
