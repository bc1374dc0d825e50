import ConfigCompiler.Binary64.Layout
import ConfigCompiler.Document.Basic

/-!
# Writing JSON

The text of a document without spaces. Only what JSON forbids inside a string is escaped.
-/

namespace ConfigCompiler.Document.Json

/-- A character as it stands inside a string. -/
def escape (c : Char) : List Char :=
  match c with
  | '"' => ['\\', '"']
  | '\\' => ['\\', '\\']
  | '\x08' => ['\\', 'b']
  | '\t' => ['\\', 't']
  | '\n' => ['\\', 'n']
  | '\x0c' => ['\\', 'f']
  | '\r' => ['\\', 'r']
  | c =>
    if c.toNat < 32 then
      ['\\', 'u', '0', '0', Nat.digitChar (c.toNat / 16), Nat.digitChar (c.toNat % 16)]
    else [c]

def writeText (s : String) : String := String.ofList ('"' :: s.toList.flatMap escape ++ ['"'])

/-- The parts between an opening and a closing character, with commas between them. -/
def bracketed (opening closing : Char) (parts : List String) : String :=
  String.singleton opening ++ String.intercalate "," parts ++ String.singleton closing

mutual

/-- The text of a document; what JSON cannot hold is written as null. -/
def write : Document → String
  | .null => "null"
  | .bool b => if b then "true" else "false"
  | .int i => toString i
  | .float x => Layout.json.write x
  | .text s => writeText s
  | .other => "null"
  | .list items => bracketed '[' ']' (writeItems items)
  | .table entries => bracketed '\x7b' '\x7d' (writeEntries entries)

def writeItems : List Document → List String
  | [] => []
  | d :: items => write d :: writeItems items

def writeEntries : List (String × Document) → List String
  | [] => []
  | (key, d) :: entries => (writeText key ++ ":" ++ write d) :: writeEntries entries

end

end ConfigCompiler.Document.Json
