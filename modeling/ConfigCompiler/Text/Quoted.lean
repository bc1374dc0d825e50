import ConfigCompiler.Text.GraphemeExtend
import ConfigCompiler.Text.Unprintable

/-!
# Quoted text

Text between quotes, as messages and inspected values show it: what would not be seen is written
as an escape.
-/

namespace ConfigCompiler.Text

def inRanges (ranges : Array (Nat × Nat)) (c : Char) : Bool :=
  ranges.any fun (first, last) => first ≤ c.toNat && c.toNat ≤ last

/-- Whether a character shows as itself wherever it stands. -/
def isShown (c : Char) : Bool :=
  !inRanges unprintableRanges c && !inRanges graphemeExtendRanges c

def hexDigits (n : Nat) : List Char := Nat.toDigits 16 n

/-- A character as it stands between quotes. -/
def escape (c : Char) : List Char :=
  match c with
  | '"' => ['\\', '"']
  | '\\' => ['\\', '\\']
  | '\n' => ['\\', 'n']
  | '\t' => ['\\', 't']
  | '\r' => ['\\', 'r']
  | '\x00' => ['\\', '0']
  | c => if isShown c then [c] else ['\\', 'u', '\x7b'] ++ hexDigits c.toNat ++ ['\x7d']

/-- The text between quotes. -/
def quoted (s : String) : String :=
  String.ofList ('"' :: s.toList.flatMap escape ++ ['"'])

/-- Quoted texts in brackets. -/
def quotedList (texts : List String) : String :=
  "[" ++ String.intercalate ", " (texts.map quoted) ++ "]"

end ConfigCompiler.Text
