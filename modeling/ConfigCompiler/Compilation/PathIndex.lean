import Std.Data.HashMap
import ConfigCompiler.Key.Basic

/-!
# Index by prefix

In a sorted list the keys below a path stand together, so one range of positions for each path answers
what is below it.
-/

namespace ConfigCompiler

/-- The positions from the first one on, before the second one. -/
abbrev Span := Nat × Nat

/-- For each path that is above some key, the span from the first key below it to the last one. -/
structure PathIndex where
  spans : Std.HashMap String Span

namespace PathIndex

def empty : PathIndex := ⟨∅⟩

/-- Extends the span of a path to a position, or begins it there. -/
def extend (position : Nat) (x : PathIndex) (path : String) : PathIndex :=
  let first := (x.spans[path]?.map Prod.fst).getD position
  ⟨x.spans.insert path (first, position + 1)⟩

/-- Indexes keys from a position on. -/
def addKeys (x : PathIndex) : (position : Nat) → List Key → PathIndex
  | _, [] => x
  | position, key :: keys => (key.ancestors.foldl (extend position) x).addKeys (position + 1) keys

/-- The index of keys in ascending order. -/
def build (keys : List Key) : PathIndex := empty.addKeys 0 keys

def span? (x : PathIndex) (path : String) : Option Span := x.spans[path]?

/-- The number of paths. -/
def size (x : PathIndex) : Nat := x.spans.size

end PathIndex

end ConfigCompiler
