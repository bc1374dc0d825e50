import ConfigCompiler.Binary64.Layout
import ConfigCompiler.Digest.Basic
import ConfigCompiler.Document.Basic
import ConfigCompiler.Text.Quoted
import ConfigCompiler.Value.Basic
import ConfigCompiler.Value.Search

/-!
# Interned values

An interned value is a node with an identity: of the values that an interner has seen, equal ones are
the same node, and the children of a node are nodes themselves. A shape is one level of a value, over
any kind of children.
-/

namespace ConfigCompiler

inductive Shape (α : Type) where
  | null
  | bool (b : Bool)
  | int (i : Int64)
  | float (x : Binary64)
  | str (s : String)
  | seq (items : List α)
  /-- The entries are in the order of their keys. -/
  | map (entries : List (String × α))

namespace Shape

variable {α : Type}

/-- The name of a shape in messages. -/
def kind : Shape α → String
  | null => "null"
  | bool _ => "bool"
  | int _ => "int"
  | float _ => "float"
  | str _ => "string"
  | seq _ => "sequence"
  | map _ => "map"

def children : Shape α → List α
  | seq items => items
  | map entries => entries.map (·.2)
  | _ => []

/-- Whether two lists have equal lengths and `same` elements. -/
def allSame {β : Type} (same : β → β → Bool) : List β → List β → Bool
  | [], [] => true
  | x :: xs, y :: ys => same x y && allSame same xs ys
  | _, _ => false

/-- Equality of shapes whose children are compared by `same`. -/
def matches? (same : α → α → Bool) : Shape α → Shape α → Bool
  | null, null => true
  | bool a, bool b => a == b
  | int a, int b => a == b
  | float a, float b => a.bits == b.bits
  | str a, str b => a == b
  | seq a, seq b => allSame same a b
  | map a, map b => allSame (fun x y => x.1 == y.1 && same x.2 y.2) a b
  | _, _ => false

def nodeSize : Nat := 56

def itemSize : Nat := 8

def entrySize : Nat := 24

/-- The bytes that a node of this shape takes without its children. -/
def shallowSize : Shape α → Nat
  | str s => nodeSize + s.utf8ByteSize
  | seq items => nodeSize + items.length * itemSize
  | map entries => nodeSize + entries.foldr (fun e n => e.1.utf8ByteSize + entrySize + n) 0
  | _ => nodeSize

end Shape

/-- A canonical node; `id` is its identity. -/
inductive Interned where
  | node (id : Nat) (digest : Digest) (shape : Shape Interned)

namespace Interned

def id : Interned → Nat
  | node id _ _ => id

def digest : Interned → Digest
  | node _ digest _ => digest

def shape : Interned → Shape Interned
  | node _ _ shape => shape

instance : Inhabited Interned := ⟨node 0 default .null⟩

def kind (n : Interned) : String := n.shape.kind

/-- Whether two handles refer to one node. -/
def same (a b : Interned) : Bool := a.id == b.id

/-- Equality of contents. -/
def equal (a b : Interned) : Bool := a.same b || a.digest == b.digest

/-! ## Parts -/

/-- The entry of a map node under a key. -/
def get? (n : Interned) (key : String) : Option Interned :=
  match n.shape with
  | .map entries => Search.entry? entries.toArray key
  | _ => none

def asInt? (n : Interned) : Option Int64 :=
  match n.shape with
  | .int i => some i
  | _ => none

/-- A number as a float; an integer is rounded to one. -/
def asFloat? (n : Interned) : Option Binary64 :=
  match n.shape with
  | .float x => some x
  | .int i => some (Binary64.ofInt i.toInt)
  | _ => none

def asStr? (n : Interned) : Option String :=
  match n.shape with
  | .str s => some s
  | _ => none

def asBool? (n : Interned) : Option Bool :=
  match n.shape with
  | .bool b => some b
  | _ => none

/-! ## Values -/

mutual

/-- The value that a node stands for; the keys of its maps are sorted. -/
def toValue : Interned → Value
  | node _ _ shape => shapeToValue shape

def shapeToValue : Shape Interned → Value
  | .null => .null
  | .bool b => .bool b
  | .int i => .int i
  | .float x => .float x
  | .str s => .str s
  | .seq items => .seq (itemsToValues items)
  | .map entries => .map (entriesToValues entries)

def itemsToValues : List Interned → List Value
  | [] => []
  | n :: items => toValue n :: itemsToValues items

def entriesToValues : List (String × Interned) → List (String × Value)
  | [] => []
  | (key, n) :: entries => (key, toValue n) :: entriesToValues entries

end

theorem itemsToValues_eq (ns : List Interned) : itemsToValues ns = ns.map toValue := by
  induction ns with
  | nil => rw [itemsToValues, List.map_nil]
  | cons n ns ih => rw [itemsToValues, ih, List.map_cons]

theorem entriesToValues_eq (es : List (String × Interned)) :
    entriesToValues es = es.map fun e => (e.1, e.2.toValue) := by
  induction es with
  | nil => rw [entriesToValues, List.map_nil]
  | cons e es ih => rw [entriesToValues, ih, List.map_cons]

/-! ## Inspection -/

mutual

/-- How inspection shows a value: as written in code, with a blank after each comma and colon. -/
def inspectValue : Value → String
  | .null => "null"
  | .bool b => if b then "true" else "false"
  | .int i => toString i.toInt
  | .float x => Layout.inspect.write x
  | .str s => Text.quoted s
  | .seq items => "[" ++ String.intercalate ", " (inspectItems items) ++ "]"
  | .map entries => "\x7b" ++ String.intercalate ", " (inspectEntries entries) ++ "\x7d"

def inspectItems : List Value → List String
  | [] => []
  | v :: items => inspectValue v :: inspectItems items

def inspectEntries : List (String × Value) → List String
  | [] => []
  | (key, v) :: entries => (Text.quoted key ++ ": " ++ inspectValue v) :: inspectEntries entries

end

def inspect (n : Interned) : String := inspectValue n.toValue

end Interned

end ConfigCompiler
