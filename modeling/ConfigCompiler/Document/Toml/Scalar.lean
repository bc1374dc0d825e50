import ConfigCompiler.Binary64.Decimal
import ConfigCompiler.Document.Basic
import ConfigCompiler.Document.Reader

/-!
# Unquoted scalars of TOML

Truth values, numbers, dates and times. Each is read from the whole word in which it stands, and the
front of the word decides what it has to be. Of a whole number with underscores only their places are
checked, so `1_a` is a word of that kind; without a decimal value it denotes `.other`.
-/

namespace ConfigCompiler.Document.Toml

/-! ## Numbers -/

/-- The sign in front of a word, `true` for a minus, and what follows it. -/
def signed : List Char → Option Bool × List Char
  | '-' :: s => (some true, s)
  | '+' :: s => (some false, s)
  | s => (none, s)

/-- Whether a number has zeros in front that it does not need. -/
def hasIdleZero (s : List Char) : Bool := s.head? == some '0' && s.length != 1

/-- Whether a digit stands on either side of each underscore; one in front needs `opens` instead. -/
def isGrouped (isDigit : Char → Bool) : (opens : Bool) → List Char → Bool
  | _, [] => true
  | opens, '_' :: s => opens && s.head?.any isDigit && isGrouped isDigit false s
  | _, c :: s => isGrouped isDigit (isDigit c) s

/-- What digits in a base denote, with underscores between them; no digits denote no number. -/
def based? (base : Nat) (s : List Char) : Option Document :=
  let isDigit (c : Char) : Bool := (hexValue? c).any (· < base)
  if s.all (fun c => isDigit c || c == '_') && isGrouped isDigit false s then
    some (if s.isEmpty then .other else .int (baseNumber base (s.filterMap hexValue?)))
  else none

/-- A whole number after its sign. An underscore may follow the sign. -/
def integer? (sign : Option Bool) (s : List Char) : Option Document :=
  if !hasIdleZero s && isGrouped (hexValue? · |>.isSome) sign.isSome s then
    let ds := s.filter (· != '_')
    let n : Int := digitsValue ds
    some (if ds.all Char.isDigit then .int (if sign = some true then -n else n) else .other)
  else none

/-- Digits with underscores among them, at least one digit. -/
def digitRun : Reader (List Char) := fun s =>
  let isRunChar (c : Char) : Bool := c.isDigit || c == '_'
  let run := s.takeWhile isRunChar
  if run.any Char.isDigit then some (run, s.dropWhile isRunChar) else none

/-- The digits after a point, none where there is no point. -/
def fraction : Reader (List Char)
  | '.' :: s => digitRun s
  | s => some ([], s)

/-- The exponent, zero where there is none. -/
def exponent : Reader Int
  | c :: s =>
    if c = 'e' ∨ c = 'E' then do
      let (sign, s) := signed s
      let (run, s) ← digitRun s
      let n : Int := digitsValue (run.filter Char.isDigit)
      some (if sign = some true then -n else n, s)
    else some (0, c :: s)
  | [] => some (0, [])

/-- A number with a fraction or an exponent after its sign; beyond the floats it is no number. -/
def decimal? (sign : Option Bool) (s : List Char) : Option Document := do
  let (whole, rest) ← digitRun s
  let (fraction, rest) ← fraction rest
  let (exponent, rest) ← exponent rest
  if rest.isEmpty && !hasIdleZero whole && isGrouped Char.isDigit sign.isSome s then
    let fraction := fraction.filter Char.isDigit
    let x := Binary64.ofDecimal (sign = some true)
      ⟨digitsValue (whole.filter Char.isDigit ++ fraction), exponent - fraction.length⟩
    some (if x.isFinite then .float x else .other)
  else none

/-! ## Dates and times -/

/-- A number of `count` digits up to `greatest`, and the rest of the word. -/
def bounded? (count least greatest : Nat) (s : List Char) : Option (Nat × List Char) :=
  let ds := s.take count
  let n := digitsValue ds
  if ds.length = count ∧ ds.all Char.isDigit ∧ least ≤ n ∧ n ≤ greatest then some (n, s.drop count)
  else none

def daysIn (year month : Nat) : Nat :=
  if month = 2 then if year % 4 = 0 ∧ (year % 100 ≠ 0 ∨ year % 400 = 0) then 29 else 28
  else if month ∈ [4, 6, 9, 11] then 30 else 31

def date? (s : List Char) : Option (List Char) := do
  let (year, s) ← bounded? 4 0 9999 s
  let (month, s) ← bounded? 2 1 12 (← after? ['-'] s)
  let (_, s) ← bounded? 2 1 (daysIn year month) (← after? ['-'] s)
  some s

/-- The fraction of a second, if there is one. -/
def secondFraction? : List Char → Option (List Char)
  | '.' :: s => if (s.takeWhile Char.isDigit).isEmpty then none else some (s.dropWhile Char.isDigit)
  | s => some s

def time? (s : List Char) : Option (List Char) := do
  let (_, s) ← bounded? 2 0 23 s
  let (_, s) ← bounded? 2 0 59 (← after? [':'] s)
  match s with
  | ':' :: s => do
    let (_, s) ← bounded? 2 0 60 s
    secondFraction? s
  | s => some s

/-- The offset of a time, if there is one. -/
def offset? : List Char → Option (List Char)
  | 'Z' :: s => some s
  | 'z' :: s => some s
  | c :: s =>
    if c = '+' ∨ c = '-' then do
      let (_, s) ← bounded? 2 0 23 s
      let (_, s) ← bounded? 2 0 59 (← after? [':'] s)
      some s
    else none
  | [] => some []

/-- Whether the word is a date, a time, or a date with a time and perhaps an offset. -/
def isMoment (s : List Char) : Bool :=
  match date? s with
  | none => time? s == some []
  | some [] => true
  | some (mark :: s) =>
    (mark == 'T' || mark == 't' || mark == ' ') && (time? s).bind offset? == some []

/-! ## Words -/

/-- Whether a character belongs to the word in which it stands. -/
def isWordChar (c : Char) : Bool :=
  c ∉ ['=', ',', '[', ']', '\x7b', '\x7d', ' ', '\t', '#', '\r', '\n']

/-- The word in front; a blank between a date and a time belongs to it. -/
def word (s : List Char) : List Char × List Char :=
  let w := s.takeWhile isWordChar
  match s.dropWhile isWordChar with
  | ' ' :: c :: rest =>
    if date? w == some [] && c.isDigit then
      (w ++ ' ' :: (c :: rest).takeWhile isWordChar, (c :: rest).dropWhile isWordChar)
    else (w, ' ' :: c :: rest)
  | rest => (w, rest)

/-- The number or moment of a word after its sign: what follows the leading digits tells them apart. -/
def numeral? (sign : Option Bool) (s : List Char) : Option Document :=
  match s.dropWhile Char.isDigit with
  | [] => if s.isEmpty then none else integer? sign s
  | c :: rest =>
    if c = '-' ∨ c = ':' then if sign = none ∧ isMoment s then some .other else none
    else if (c :: rest).any (· ∈ ['.', 'e', 'E']) then decimal? sign s
    else if c = '_' then integer? sign s
    else none

/-- The document of a word. -/
def wordDocument? (w : List Char) : Option Document :=
  if w = "true".toList then some (.bool true)
  else if w = "false".toList then some (.bool false)
  else match w with
    | '0' :: 'x' :: s => based? 16 s
    | '0' :: 'o' :: s => based? 8 s
    | '0' :: 'b' :: s => based? 2 s
    | w => match signed w with
      | (sign, ['i', 'n', 'f']) => some (.float (Binary64.infinity (sign = some true)))
      | (_, ['n', 'a', 'n']) => some (.float Binary64.nan)
      | (sign, s) => numeral? sign s

def scalar : Reader Document := fun s =>
  let (w, s) := word s
  (wordDocument? w).map (·, s)

end ConfigCompiler.Document.Toml
