import ConfigCompiler.Document.Basic
import ConfigCompiler.Value.Basic

/-!
# Values as documents
-/

namespace ConfigCompiler.Value

mutual

/--
The value of a document. An integer beyond 64 bits with a sign becomes a float, and of equal keys
the last one binds.
-/
def ofDocument : Document → Value
  | .null => null
  | .bool b => bool b
  | .int i => if Int64.minValue.toInt ≤ i ∧ i ≤ Int64.maxValue.toInt then int (Int64.ofInt i)
    else float (Binary64.ofInt i)
  | .float x => float x
  | .text s => str s
  | .other => null
  | .list items => seq (ofItems items)
  | .table entries => ofPairs (ofEntries entries)

def ofItems : List Document → List Value
  | [] => []
  | d :: items => ofDocument d :: ofItems items

def ofEntries : List (String × Document) → List (String × Value)
  | [] => []
  | (key, d) :: entries => (key, ofDocument d) :: ofEntries entries

end

mutual

def toDocument : Value → Document
  | null => .null
  | bool b => .bool b
  | int i => .int i.toInt
  | float x => .float x
  | str s => .text s
  | seq items => .list (toItems items)
  | map entries => .table (toEntries entries)

def toItems : List Value → List Document
  | [] => []
  | v :: items => toDocument v :: toItems items

def toEntries : List (String × Value) → List (String × Document)
  | [] => []
  | (key, v) :: entries => (key, toDocument v) :: toEntries entries

end

end ConfigCompiler.Value
