import ConfigCompiler.Document.Json.Reader
import ConfigCompiler.Document.Json.Writer
import ConfigCompiler.Document.Toml.Reader
import ConfigCompiler.Hierarchy.Document
import ConfigCompiler.Settings.Basic

/-!
# Settings in documents

Settings are a table of named fields, each of which may be missing. JSON and TOML differ in what else
they let pass (`Settings.Form`).
-/

namespace ConfigCompiler.Settings

/-- What a form of documents lets pass beside the table of fields. -/
structure Form where
  /-- A list of values stands for the fields in their order. -/
  positional : Bool
  /-- What follows the two texts of a pair is ignored. -/
  longPairs : Bool

def json : Form := ⟨true, false⟩

def toml : Form := ⟨false, true⟩

def fieldNames : List String :=
  ["cache_capacity", "quantization_epsilon", "pass_list", "collect_stats", "override_compatible"]

/-! ## Reading -/

/-- A count of at most 64 bits. -/
def asCount? : Document → Option Nat
  | .int i => if 0 ≤ i ∧ i < UInt64.size then some i.toNat else none
  | _ => none

def asCapacity? : Document → Option Capacity
  | .table [(name, d)] => do
    let n ← asCount? d
    if name = "entries" then some (.entries n)
    else if name = "weight" then some (.weight (UInt64.ofNat n))
    else none
  | _ => none

/-- An epsilon or its absence; an integer is rounded to a float. -/
def asEpsilon? : Document → Option (Option Binary64)
  | .null => some none
  | .float x => some (some x)
  | .int i => if Int64.minValue.toInt ≤ i ∧ i < UInt64.size then some (some (Binary64.ofInt i)) else none
  | _ => none

def asFlag? : Document → Option Bool
  | .bool b => some b
  | _ => none

def asPair? (form : Form) : Document → Option (String × String)
  | .list (.text a :: .text b :: rest) => if rest.isEmpty || form.longPairs then some (a, b) else none
  | _ => none

def asPairs? (form : Form) : Document → Option (List (String × String))
  | .list items => items.mapM (asPair? form)
  | _ => none

/-- The settings with one field set. -/
def withField (form : Form) (s : Settings) : String × Document → Option Settings
  | ("cache_capacity", d) => return { s with capacity := ← asCapacity? d }
  | ("quantization_epsilon", d) => return { s with epsilon? := ← asEpsilon? d }
  | ("pass_list", d) => return { s with passes := ← d.asTexts? }
  | ("collect_stats", d) => return { s with collectsStats := ← asFlag? d }
  | ("override_compatible", d) => return { s with overridePairs := ← asPairs? form d }
  | _ => none

/-- The fields of a document by name. -/
def fields? (form : Form) : Document → Option (List (String × Document))
  | .table entries => some entries
  | .list items =>
    if form.positional && decide (items.length ≤ fieldNames.length) then some (fieldNames.zip items)
    else none
  | _ => none

/-- The settings of a document; no field may be unknown or given twice. -/
def ofDocument? (form : Form) (d : Document) : Option Settings := do
  let fields ← fields? form d
  if (Entries.firstRepeated? [] fields).isSome then none
  else fields.foldlM (withField form) default

/-- The settings of a text that has been read, unless a kernel refuses them. -/
def checked (s : Option Settings) : Except SettingsError Settings :=
  match s with
  | none => .error .unreadable
  | some s => s.check.map fun _ => s

def ofToml (text : String) : Except SettingsError Settings :=
  checked (Document.Toml.parse? text >>= ofDocument? toml)

def ofJson (text : String) : Except SettingsError Settings :=
  checked (Document.Json.parse? text >>= ofDocument? json)

/-! ## Writing -/

def capacityDocument : Capacity → Document
  | .entries limit => .table [("entries", .int limit)]
  | .weight budget => .table [("weight", .int budget.toNat)]

/-- The table of all fields. -/
def toDocument (s : Settings) : Document :=
  .table [
    ("cache_capacity", capacityDocument s.capacity),
    ("quantization_epsilon", s.epsilon?.elim .null .float),
    ("pass_list", .list (s.passes.map .text)),
    ("collect_stats", .bool s.collectsStats),
    ("override_compatible", .list (s.overridePairs.map fun (a, b) => .list [.text a, .text b]))]

def toJson (s : Settings) : String := Document.Json.write s.toDocument

end ConfigCompiler.Settings
