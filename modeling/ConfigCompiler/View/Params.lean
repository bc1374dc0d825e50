import ConfigCompiler.Value.Digest
import ConfigCompiler.View.Error

/-!
# Parameters of views

Parameters that mean the same are made the same: the order of keys is forgotten, and a float that denotes
a 64-bit integer becomes that integer.
-/

namespace ConfigCompiler

namespace Value

/-- The integer that a float denotes, or else the float in its one spelling. -/
def canonicalFloat (x : Binary64) : Value :=
  match x.toInt? with
  | some i => if Int64.minValue.toInt ≤ i ∧ i ≤ Int64.maxValue.toInt then int (Int64.ofInt i) else float x.normalize
  | none => float x.normalize

mutual

/-- The value that stands for all those that mean the same as a parameter. -/
def canonical : Value → Value
  | null => null
  | bool b => bool b
  | int i => int i
  | float x => canonicalFloat x
  | str s => str s
  | seq items => seq (canonicalItems items)
  | map entries => map (Entries.sorted (canonicalEntries entries))

def canonicalItems : List Value → List Value
  | [] => []
  | v :: items => canonical v :: canonicalItems items

def canonicalEntries : List (String × Value) → List (String × Value)
  | [] => []
  | (key, v) :: entries => (key, canonical v) :: canonicalEntries entries

end

end Value

/-- Canonical parameters in ascending order of their names. -/
structure Params where
  entries : Entries Value

namespace Params

def empty : Params := ⟨[]⟩

/-- Sets a parameter. -/
def set (p : Params) (name : String) (v : Value) : Params :=
  ⟨Entries.sorted (p.entries.insert name v.canonical)⟩

/-- The parameters of a map, or none for null. -/
def ofValue : Value → Except ViewError Params
  | .null => .ok empty
  | .map entries => .ok (entries.foldl (fun p e => p.set e.1 e.2) empty)
  | other => .error (.invalidParam "$" "map" other.kind)

def get? (p : Params) (name : String) : Option Value := p.entries.get? name

/-- A parameter that is a text or missing. -/
def str? (p : Params) (name : String) : Except ViewError (Option String) :=
  match p.get? name with
  | none => .ok none
  | some .null => .ok none
  | some (.str s) => .ok (some s)
  | some other => .error (.invalidParam name "string" other.kind)

/-- A parameter that is a text. -/
def requireStr (p : Params) (name : String) : Except ViewError String := do
  match ← p.str? name with
  | some s => return s
  | none => throw (.missingParam name)

def size (p : Params) : Nat := p.entries.length

def fields (p : Params) : List Digest.Field :=
  .mapHeader p.size :: p.entries.flatMap fun (name, v) => [.text name, .digest (v.digest .disabled)]

def digest (p : Params) : Digest := Digest.ofFields "strata.params.v1" p.fields

end Params

end ConfigCompiler
