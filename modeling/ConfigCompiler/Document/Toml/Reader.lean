import ConfigCompiler.Document.Toml.Scalar
import ConfigCompiler.Document.Toml.Table
import ConfigCompiler.Document.Toml.Text

/-!
# Reading TOML

`Document.Toml.parse?` reads the statements of a text into one table. Arrays and inline tables nest up
to `maxDepth`; within an inline table, comments and line ends may stand wherever blanks may, except
around the dots of a key.
-/

namespace ConfigCompiler.Document.Toml

/-! ## Values -/

/-- Items between commas up to the closing character; a comma may follow the last one. -/
def items {α : Type} (item : Reader α) (closing : Char) : (fuel : Nat) → Reader (List α)
  | 0, _ => none
  | fuel + 1, s =>
    match skipTrivia s with
    | [] => none
    | c :: rest =>
      if c = closing then some ([], rest)
      else do
        let (x, s) ← item (c :: rest)
        match skipTrivia s with
        | [] => none
        | c :: rest =>
          if c = closing then some ([x], rest)
          else if c = ',' then do
            let (xs, s) ← items item closing fuel rest
            some (x :: xs, s)
          else none

/-- A key with its value; `skip` takes off what may stand around the sign between them. -/
def binding (skip : List Char → List Char) (value : Reader Document) :
    Reader (List String × Document) := fun s => do
  let (path, s) ← key s
  let s ← after? ['='] (skip s)
  let (d, s) ← value (skip s)
  some ((path, d), s)

/-- Binds a dotted key in a table. -/
def addBinding (nodes : Nodes) (b : List String × Document) : Option Nodes := do
  let last ← b.1.getLast?
  change .dotted (addValue last b.2) b.1.dropLast nodes

/-- A value that holds no other. -/
def leaf : Reader Document := fun s =>
  match s with
  | '"' :: _ => do
    let (t, s) ← text s
    some (.text t, s)
  | '\'' :: _ => do
    let (t, s) ← text s
    some (.text t, s)
  | s => scalar s

/-- A value in which arrays and inline tables nest up to `depth`. -/
def value : (depth : Nat) → Reader Document
  | 0, s => leaf s
  | depth + 1, s => match s with
    | '[' :: s => do
      let (ds, s) ← items (value depth) ']' (s.length + 1) s
      some (.list ds, s)
    | '\x7b' :: s => do
      let (bs, s) ← items (binding skipTrivia (value depth)) '\x7d' (s.length + 1) s
      let nodes ← bs.foldlM addBinding []
      some (.table (toEntries nodes), s)
    | s => leaf s

def maxDepth : Nat := 80

/-! ## Statements -/

inductive Statement where
  | table (path : List String)
  | element (path : List String)
  | binding (path : List String) (d : Document)

def statement : Reader Statement
  | '[' :: '[' :: s => do
    let (path, s) ← key s
    some (.element path, ← after? [']', ']'] s)
  | '[' :: s => do
    let (path, s) ← key s
    some (.table path, ← after? [']'] s)
  | s => do
    let ((path, d), s) ← binding skipBlanks (value maxDepth) s
    some (.binding path d, s)

/-- The statements of a text, each on lines of its own. -/
def statements : (fuel : Nat) → List Char → Option (List Statement)
  | 0, _ => none
  | fuel + 1, s =>
    match skipTrivia s with
    | [] => some []
    | s => do
      let (st, s) ← statement s
      match skipComment (skipBlanks s) with
      | [] => some [st]
      | s => return st :: (← statements fuel (← afterNewline? s))

/-- The root table after a statement, and the path of the table that bindings go to. -/
def apply (state : Nodes × List String) : Statement → Option (Nodes × List String)
  | .table path => do
    let last ← path.getLast?
    some (← change .implied (openTable last) path.dropLast state.1, path)
  | .element path => do
    let last ← path.getLast?
    some (← change .implied (openElement last) path.dropLast state.1, path)
  | .binding path d => do
    some (← change .implied (addBinding · (path, d)) state.2 state.1, state.2)

/-- The table that the whole text denotes. -/
def parse? (s : String) : Option Document := do
  let cs := match s.toList with
    | '\ufeff' :: cs => cs
    | cs => cs
  let sts ← statements (cs.length + 1) cs
  let (nodes, _) ← sts.foldlM apply ([], [])
  some (.table (toEntries nodes))

end ConfigCompiler.Document.Toml
