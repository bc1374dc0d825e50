import ConfigCompiler.Document.Basic

/-!
# Tables of TOML while they are read

Statements add to tables by path. Which additions are allowed depends on how a table came about, so
that no table is defined twice.
-/

namespace ConfigCompiler.Document.Toml

/-- How a table came about. -/
inductive Origin where
  /-- As a part of a longer header. -/
  | implied
  /-- By its own header. -/
  | header
  /-- By a dotted key. -/
  | dotted
  deriving DecidableEq, Repr

/-- What a key is bound to so far. -/
inductive Node where
  /-- A finished value. -/
  | value (d : Document)
  | table (origin : Origin) (entries : List (String × Node))
  /-- An array of tables, the last one first. -/
  | tables (latest : List (String × Node)) (earlier : List (List (String × Node)))

abbrev Nodes := List (String × Node)

/-- Binds a key in place, or at the end if it is new. -/
def put (nodes : Nodes) (key : String) (node : Node) : Nodes :=
  if nodes.any (·.1 == key) then nodes.map fun e => if e.1 == key then (key, node) else e
  else nodes ++ [(key, node)]

/--
Changes the table at the end of a path. Tables that are missing on the way arise with `origin`; a
dotted key does not enter a table that has its own header.
-/
def change (origin : Origin) (f : Nodes → Option Nodes) : (path : List String) → Nodes → Option Nodes
  | [], nodes => f nodes
  | key :: path, nodes =>
    match nodes.lookup key with
    | none => do return put nodes key (.table origin (← change origin f path []))
    | some (.table own entries) =>
      if origin = .dotted ∧ own = .header then none
      else do return put nodes key (.table own (← change origin f path entries))
    | some (.tables latest earlier) =>
      if origin = .dotted then none
      else do return put nodes key (.tables (← change origin f path latest) earlier)
    | some (.value _) => none

/-- Binds a new key. -/
def addValue (key : String) (d : Document) (nodes : Nodes) : Option Nodes :=
  match nodes.lookup key with
  | none => some (nodes ++ [(key, .value d)])
  | some _ => none

/-- Opens a table by its header. -/
def openTable (key : String) (nodes : Nodes) : Option Nodes :=
  match nodes.lookup key with
  | none => some (nodes ++ [(key, .table .header [])])
  | some (.table .implied entries) => some (put nodes key (.table .header entries))
  | some _ => none

/-- Opens one more table of an array. -/
def openElement (key : String) (nodes : Nodes) : Option Nodes :=
  match nodes.lookup key with
  | none => some (nodes ++ [(key, .tables [] [])])
  | some (.tables latest earlier) => some (put nodes key (.tables [] (latest :: earlier)))
  | some _ => none

mutual

/-- The finished document. -/
def Node.toDocument : Node → Document
  | .value d => d
  | .table _ entries => .table (toEntries entries)
  | .tables latest earlier => .list (toTables earlier [.table (toEntries latest)])

def toEntries : List (String × Node) → List (String × Document)
  | [] => []
  | (key, node) :: nodes => (key, node.toDocument) :: toEntries nodes

/-- The tables of a list that holds the last one first, in front of those already finished. -/
def toTables : List (List (String × Node)) → List Document → List Document
  | [], done => done
  | nodes :: earlier, done => toTables earlier (.table (toEntries nodes) :: done)

end

end ConfigCompiler.Document.Toml
