import ConfigCompiler.Document.Reader

/-!
# Strings, keys and blanks of TOML
-/

namespace ConfigCompiler.Document.Toml

/-! ## Blanks -/

def isBlank (c : Char) : Bool := c == ' ' || c == '\t'

def skipBlanks (s : List Char) : List Char := s.dropWhile isBlank

/-- The text after a line end, if it starts with one. -/
def afterNewline? : List Char → Option (List Char)
  | '\n' :: s => some s
  | '\r' :: '\n' :: s => some s
  | _ => none

/-- Whether a character may stand in a comment or on a line of a string. -/
def isTextChar (c : Char) : Bool := c == '\t' || (decide (32 ≤ c.toNat) && c.toNat != 127)

/-- The text after a comment, if there is one; its line end stays. -/
def skipComment : List Char → List Char
  | '#' :: s => s.dropWhile isTextChar
  | s => s

/-- The text after blanks and line ends. -/
def skipBlankLines : (fuel : Nat) → List Char → List Char
  | 0, s => s
  | fuel + 1, s =>
    let s := skipBlanks s
    match afterNewline? s with
    | some s => skipBlankLines fuel s
    | none => s

/-- The text after blanks, comments and line ends. -/
def skipLines : (fuel : Nat) → List Char → List Char
  | 0, s => s
  | fuel + 1, s =>
    let s := skipComment (skipBlanks s)
    match afterNewline? s with
    | some s => skipLines fuel s
    | none => s

def skipTrivia (s : List Char) : List Char := skipLines s.length s

/-! ## Strings -/

/-- The character with a code, if a text can hold it. -/
def charOf? (n : Nat) : Option Char := if n.isValidChar then some (Char.ofNat n) else none

/-- The character of the next `count` hexadecimal digits. -/
def hexChar (count : Nat) : Reader Char := fun s => do
  let ds := s.take count
  if ds.length = count then
    let c ← charOf? (← hexNumber? ds)
    some (c, s.drop count)
  else none

/-- The character of an escape whose backslash has been read. -/
def escaped : Reader Char
  | 'b' :: s => some ('\x08', s)
  | 't' :: s => some ('\t', s)
  | 'n' :: s => some ('\n', s)
  | 'f' :: s => some ('\x0c', s)
  | 'r' :: s => some ('\r', s)
  | 'e' :: s => some ('\x1b', s)
  | '"' :: s => some ('"', s)
  | '\\' :: s => some ('\\', s)
  | 'x' :: s => hexChar 2 s
  | 'u' :: s => hexChar 4 s
  | 'U' :: s => hexChar 8 s
  | _ => none

/-- The characters of a string on one line up to its closing quote. -/
def lineText (quote : Char) (escapes : Bool) : (fuel : Nat) → Reader (List Char)
  | 0, _ => none
  | fuel + 1, s =>
    match s with
    | [] => none
    | c :: s =>
      if c = quote then some ([], s)
      else if c = '\\' ∧ escapes = true then do
        let (c, s) ← escaped s
        let (cs, s) ← lineText quote escapes fuel s
        some (c :: cs, s)
      else if isTextChar c then do
        let (cs, s) ← lineText quote escapes fuel s
        some (c :: cs, s)
      else none

/-- The text after the blanks and line ends that follow a backslash at the end of a line. -/
def afterLineJoin? (s : List Char) : Option (List Char) := do
  let s ← afterNewline? (skipBlanks s)
  some (skipBlankLines s.length s)

/-- The characters of a string on several lines, whose line ends stay as they are; up to two quotes may
stand before the closing three. -/
def linesText (quote : Char) (escapes : Bool) : (fuel : Nat) → Reader (List Char)
  | 0, _ => none
  | fuel + 1, s =>
    match s with
    | [] => none
    | c :: rest =>
      if c = quote then
        let run := (s.takeWhile (· == quote)).length
        if 3 ≤ run then
          let inside := min (run - 3) 2
          some (List.replicate inside quote, s.drop (inside + 3))
        else do
          let (cs, s) ← linesText quote escapes fuel rest
          some (c :: cs, s)
      else if c = '\\' ∧ escapes = true then
        match afterLineJoin? rest with
        | some s => linesText quote escapes fuel s
        | none => do
          let (c, s) ← escaped rest
          let (cs, s) ← linesText quote escapes fuel s
          some (c :: cs, s)
      else if isTextChar c ∨ (afterNewline? s).isSome then do
        let (cs, s) ← linesText quote escapes fuel rest
        some (c :: cs, s)
      else none

/-- A string on one line, in double or single quotes; only the former has escapes. -/
def quotedLine : Reader String
  | c :: s =>
    if c = '"' ∨ c = '\'' then do
      let (cs, s) ← lineText c (c == '"') (s.length + 1) s
      some (String.ofList cs, s)
    else none
  | [] => none

/-- A string that opens with three quotes; a line end after them is skipped. -/
def quotedLines : Reader String
  | a :: b :: c :: s =>
    if (a = '"' ∨ a = '\'') ∧ a = b ∧ b = c then do
      let s := (afterNewline? s).getD s
      let (cs, s) ← linesText a (a == '"') (s.length + 1) s
      some (String.ofList cs, s)
    else none
  | _ => none

def text : Reader String := fun s =>
  match after? ['"', '"', '"'] s, after? ['\'', '\'', '\''] s with
  | none, none => quotedLine s
  | _, _ => quotedLines s

/-! ## Keys -/

def isBareChar (c : Char) : Bool := c.isAlphanum || c == '_' || c == '-'

/-- One part of a key: a bare word or a string on one line. -/
def simpleKey : Reader String := fun s =>
  match s with
  | '"' :: _ => quotedLine s
  | '\'' :: _ => quotedLine s
  | _ =>
    match s.takeWhile isBareChar with
    | [] => none
    | cs => some (String.ofList cs, s.dropWhile isBareChar)

/-- Up to `most` parts of a key between dots, with blanks around them. -/
def dottedKey : (most : Nat) → Reader (List String)
  | 0, _ => none
  | most + 1, s => do
    let (part, s) ← simpleKey (skipBlanks s)
    match skipBlanks s with
    | '.' :: s => do
      let (parts, s) ← dottedKey most s
      some (part :: parts, s)
    | s => some ([part], s)

def maxKeyParts : Nat := 80

def key : Reader (List String) := dottedKey maxKeyParts

end ConfigCompiler.Document.Toml
