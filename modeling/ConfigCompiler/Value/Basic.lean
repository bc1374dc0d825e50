import ConfigCompiler.Binary64.Basic
import ConfigCompiler.Value.Entries

/-!
# Raw configuration values

Nested maps, sequences and scalars. A map keeps the order in which its keys were first inserted,
and holds each key once (`Entries.insert`).
-/

namespace ConfigCompiler

inductive Value where
  | null
  | bool (b : Bool)
  | int (i : Int64)
  | float (x : Binary64)
  | str (s : String)
  | seq (items : List Value)
  | map (entries : List (String × Value))

namespace Value

instance : Inhabited Value := ⟨null⟩

def ofPairs (pairs : List (String × Value)) : Value := map (Entries.ofPairs pairs)

/-- The name of a value's type in messages. -/
def kind : Value → String
  | null => "null"
  | bool _ => "bool"
  | int _ => "int"
  | float _ => "float"
  | str _ => "string"
  | seq _ => "sequence"
  | map _ => "map"

def asMap? : Value → Option (Entries Value)
  | map entries => some entries
  | _ => none

def asStr? : Value → Option String
  | str s => some s
  | _ => none

def asInt? : Value → Option Int64
  | int i => some i
  | _ => none

/-- A number as a float; an integer is rounded to one. -/
def asFloat? : Value → Option Binary64
  | float x => some x
  | int i => some (Binary64.ofInt i.toInt)
  | _ => none

def asBool? : Value → Option Bool
  | bool b => some b
  | _ => none

def isComposite : Value → Bool
  | seq _ => true
  | map _ => true
  | _ => false

end Value

end ConfigCompiler
