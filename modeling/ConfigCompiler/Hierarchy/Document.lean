import ConfigCompiler.Document.Basic
import ConfigCompiler.Hierarchy.Build

/-!
# Hierarchies in documents

A hierarchy is written as a table of lists of texts; of equal parents the last one binds.
-/

namespace ConfigCompiler

def Document.asText? : Document → Option String
  | .text s => some s
  | _ => none

def Document.asTexts? : Document → Option (List String)
  | .list items => items.mapM asText?
  | _ => none

namespace Hierarchy

def ofDocument? : Document → Option Hierarchy
  | .table entries => do
    let declared ← entries.mapM fun (parent, kids) => return (parent, ← kids.asTexts?)
    (build (Entries.ofPairs declared)).toOption
  | _ => none

end Hierarchy

end ConfigCompiler
