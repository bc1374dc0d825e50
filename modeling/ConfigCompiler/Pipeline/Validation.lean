import ConfigCompiler.Binary64.Layout
import ConfigCompiler.Pattern.Basic
import ConfigCompiler.Pipeline.Error

/-!
# Validation

What a raw configuration must look like: a map of patterns to values whose floats are finite, whose nested
keys are not empty and which nest no deeper than `maxDepth`. The first offence in document order is
reported, with its path.
-/

namespace ConfigCompiler

namespace Value

/-- The root map of a configuration. -/
def root (v : Value) : Except ValidationError (Entries Value) :=
  match v with
  | map entries => .ok entries
  | other => .error ⟨"$", "root must be a map, got " ++ other.kind⟩

def maxDepth : Nat := 64

def itemPath (path : String) (i : Nat) : String := path ++ "[" ++ toString i ++ "]"

def entryPath (path key : String) : String := path ++ "." ++ key

mutual

/-- Checks a value at a path and a depth. -/
def checkAt (path : String) (depth : Nat) (v : Value) : Except ValidationError Unit :=
  if maxDepth < depth then .error ⟨path, "nesting deeper than " ++ toString maxDepth⟩
  else match v with
    | float x =>
      if x.isFinite then .ok () else .error ⟨path, "non-finite float " ++ Layout.message.write x⟩
    | seq items => checkItems path (depth + 1) 0 items
    | map entries => checkEntries path (depth + 1) entries
    | null => .ok ()
    | bool _ => .ok ()
    | int _ => .ok ()
    | str _ => .ok ()

def checkItems (path : String) (depth i : Nat) : List Value → Except ValidationError Unit
  | [] => .ok ()
  | v :: items => do
    checkAt (itemPath path i) depth v
    checkItems path depth (i + 1) items

def checkEntries (path : String) (depth : Nat) : List (String × Value) → Except ValidationError Unit
  | [] => .ok ()
  | (key, v) :: entries => do
    if key.isEmpty then throw ⟨path, "empty map key"⟩
    checkAt (entryPath path key) depth v
    checkEntries path depth entries

end

/-- Checks the entries of a root map. -/
def checkRoot : List (String × Value) → Except ValidationError Unit
  | [] => .ok ()
  | (key, v) :: entries => do
    match Pattern.parse key with
    | .error e => throw ⟨key, e.message⟩
    | .ok _ => checkAt key 1 v
    checkRoot entries

/-- Checks a raw configuration. -/
def validate (v : Value) : Except ValidationError Unit := do checkRoot (← v.root)

end Value

end ConfigCompiler
