import ConfigCompiler.Binary64.Decimal
import ConfigCompiler.Document.Basic
import ConfigCompiler.Document.Reader

/-!
# Reading JSON

`Document.Json.parse?` reads one JSON document with blanks around it. An integer of at most 64 bits
stays an integer, any other number becomes the nearest float and is refused where that is infinite.
Arrays and objects nest up to `maxDepth`.
-/

namespace ConfigCompiler.Document.Json

def isBlank (c : Char) : Bool := c == ' ' || c == '\t' || c == '\n' || c == '\r'

def skipBlanks (s : List Char) : List Char := s.dropWhile isBlank

/-! ## Numbers -/

/-- Digits in front, at least one. -/
def digits : Reader (List Char) := fun s =>
  match s.takeWhile Char.isDigit with
  | [] => none
  | ds => some (ds, s.dropWhile Char.isDigit)

/-- Digits without a needless zero in front. -/
def wholePart : Reader (List Char) := fun s => do
  let (ds, rest) ← digits s
  match ds with
  | '0' :: _ :: _ => none
  | _ => some (ds, rest)

/-- The digits after a point, none where there is no point. -/
def fraction : Reader (List Char)
  | '.' :: s => digits s
  | s => some ([], s)

/-- The exponent, if there is one. -/
def exponent : Reader (Option Int) := fun s =>
  match s with
  | c :: s' =>
    if c = 'e' ∨ c = 'E' then do
      let (negative, s') := match s' with
        | '-' :: s' => (true, s')
        | '+' :: s' => (false, s')
        | s' => (false, s')
      let (ds, rest) ← digits s'
      let n : Int := digitsValue ds
      some (some (if negative then -n else n), rest)
    else some (none, s)
  | [] => some (none, s)

/-- The number of a literal's parts. -/
def numberOf? (negative : Bool) (whole fraction : List Char) (exponent : Option Int) :
    Option Document :=
  let n := digitsValue whole
  let isWhole := fraction.isEmpty && exponent.isNone
  if isWhole && !negative && decide (n < UInt64.size) then some (.int n)
  else if isWhole && negative && decide (0 < n ∧ n ≤ 1 <<< 63) then some (.int (-n))
  else
    let x := Binary64.ofDecimal negative
      ⟨digitsValue (whole ++ fraction), exponent.getD 0 - fraction.length⟩
    if x.isFinite then some (.float x) else none

def number : Reader Document := fun s => do
  let (negative, s) := match s with
    | '-' :: s => (true, s)
    | s => (false, s)
  let (whole, s) ← wholePart s
  let (fraction, s) ← fraction s
  let (exponent, s) ← exponent s
  return (← numberOf? negative whole fraction exponent, s)

/-! ## Strings -/

/-- Four hexadecimal digits. -/
def unit : Reader Nat
  | a :: b :: c :: d :: s => do
    some (← hexNumber? [a, b, c, d], s)
  | _ => none

/-- The character of one or two 16-bit units; a surrogate that has no partner is refused. -/
def unicodeEscape : Reader Char := fun s => do
  let (high, s) ← unit s
  if high < 0xd800 ∨ 0xe000 ≤ high then some (Char.ofNat high, s)
  else if 0xdc00 ≤ high then none
  else
    let (low, s) ← unit (← after? ['\\', 'u'] s)
    if 0xdc00 ≤ low ∧ low < 0xe000 then
      some (Char.ofNat (0x10000 + (high - 0xd800) * 0x400 + (low - 0xdc00)), s)
    else none

/-- The character of an escape whose backslash has been read. -/
def escaped : Reader Char
  | '"' :: s => some ('"', s)
  | '\\' :: s => some ('\\', s)
  | '/' :: s => some ('/', s)
  | 'b' :: s => some ('\x08', s)
  | 'f' :: s => some ('\x0c', s)
  | 'n' :: s => some ('\n', s)
  | 'r' :: s => some ('\r', s)
  | 't' :: s => some ('\t', s)
  | 'u' :: s => unicodeEscape s
  | _ => none

/-- The characters up to the closing quote. -/
def characters : (fuel : Nat) → Reader (List Char)
  | 0, _ => none
  | fuel + 1, s =>
    match s with
    | [] => none
    | '"' :: s => some ([], s)
    | '\\' :: s => do
      let (c, s) ← escaped s
      let (cs, s) ← characters fuel s
      some (c :: cs, s)
    | c :: s =>
      if c.toNat < 32 then none
      else do
        let (cs, s) ← characters fuel s
        some (c :: cs, s)

def text : Reader String := fun s => do
  let s ← after? ['"'] s
  let (cs, s) ← characters (s.length + 1) s
  some (String.ofList cs, s)

/-! ## Documents -/

/-- Items between commas up to the closing character. -/
def items {α : Type} (item : Reader α) (closing : Char) : (fuel : Nat) → Reader (List α)
  | 0, _ => none
  | fuel + 1, s => do
    let (x, s) ← item (skipBlanks s)
    match skipBlanks s with
    | [] => none
    | c :: s =>
      if c = closing then some ([x], s)
      else if c = ',' then do
        let (xs, s) ← items item closing fuel s
        some (x :: xs, s)
      else none

/-- A list that has been opened. -/
def enclosed {α : Type} (item : Reader α) (closing : Char) : Reader (List α) := fun s =>
  match skipBlanks s with
  | [] => none
  | c :: rest => if c = closing then some ([], rest) else items item closing (s.length + 1) s

def entry (value : Reader Document) : Reader (String × Document) := fun s => do
  let (key, s) ← text s
  let s ← after? [':'] (skipBlanks s)
  let (d, s) ← value (skipBlanks s)
  some ((key, d), s)

def word (s : List Char) : Option (Document × List Char) :=
  match after? "null".toList s, after? "true".toList s, after? "false".toList s with
  | some s, _, _ => some (.null, s)
  | _, some s, _ => some (.bool true, s)
  | _, _, some s => some (.bool false, s)
  | none, none, none => none

/-- A document that holds no other. -/
def scalar : Reader Document := fun s =>
  match s with
  | '"' :: _ => do
    let (t, s) ← text s
    some (.text t, s)
  | c :: _ => if c = '-' ∨ c.isDigit then number s else word s
  | [] => none

/-- A document in which arrays and objects nest up to `depth`. -/
def document : (depth : Nat) → Reader Document
  | 0, s => match s with
    | '[' :: _ => none
    | '\x7b' :: _ => none
    | s => scalar s
  | depth + 1, s => match s with
    | '[' :: s => do
      let (ds, s) ← enclosed (document depth) ']' s
      some (.list ds, s)
    | '\x7b' :: s => do
      let (es, s) ← enclosed (entry (document depth)) '\x7d' s
      some (.table es, s)
    | s => scalar s

def maxDepth : Nat := 127

/-- The document that the whole text denotes. -/
def parse? (s : String) : Option Document :=
  match document maxDepth (skipBlanks s.toList) with
  | some (d, rest) => if (skipBlanks rest).isEmpty then some d else none
  | none => none

end ConfigCompiler.Document.Json
