import ConfigCompiler.Compilation.Basic
import ConfigCompiler.View.Params
import ConfigCompiler.View.Result

/-!
# Views

A view is a named projection of a compilation. What it makes depends on the compilation and the
parameters alone.
-/

namespace ConfigCompiler

structure View where
  name : String
  materialize : Compilation → Params → Except ViewError View.Result

namespace View

/-- The entries below the path that the parameter `prefix` names, or all of them without it. -/
def scope (c : Compilation) (p : Params) : Except ViewError (List (Key × Interned)) := do
  match ← p.str? "prefix" with
  | some path => return c.under path
  | none => return c.entries.toList

/-- Every entry. -/
def all : View := ⟨"all", fun c _ => .ok (.entries c.entries.toList)⟩

/-- The value of the key that the parameter `key` names. -/
def get : View := ⟨"get", fun c p => return .value (c.get? (← p.requireStr "key"))⟩

/-- The entries strictly below the path that the parameter `prefix` names. -/
def below : View := ⟨"prefix", fun c p => return .entries (c.under (← p.requireStr "prefix"))⟩

/-- The keys, or those below a path. -/
def keys : View := ⟨"keys", fun c p => return .keys ((← scope c p).map Prod.fst)⟩

/-- The number of entries, or of those below a path. -/
def count : View := ⟨"count", fun c p => return .count (← scope c p).length⟩

/-- The views that every kernel starts with. -/
def builtins : List View := [all, get, below, keys, count]

/-! ## Views to try a kernel with -/

/-- The number of entries whose value is not a map. -/
def leafCount : View :=
  ⟨"leaf_count", fun c _ => .ok (.count (c.nodes.countP fun n => n.kind != "map"))⟩

/-- Always fails, with the sizes of what it was given. -/
def broken : View :=
  ⟨"broken", fun c p =>
    .error (.custom ("broken: " ++ toString c.size ++ " entries, " ++ toString p.size ++ " params"))⟩

end View

end ConfigCompiler
