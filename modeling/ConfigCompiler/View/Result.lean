import ConfigCompiler.Cache.Basic
import ConfigCompiler.Interner.Node
import ConfigCompiler.Key.Basic
import ConfigCompiler.Value.Document

/-!
# Results of views
-/

namespace ConfigCompiler

inductive View.Result where
  /-- Entries in ascending order of their keys. -/
  | entries (entries : List (Key × Interned))
  | keys (keys : List Key)
  | value (value? : Option Interned)
  | count (n : Nat)

namespace View.Result

/-- The entry of a key in a result that has entries. -/
def get? (r : View.Result) (key : String) : Option Interned :=
  match r with
  | entries es => Search.entry? es.toArray ⟨key⟩
  | _ => none

/-- The number of items; a count is one. -/
def size : View.Result → Nat
  | entries es => es.length
  | keys ks => ks.length
  | value v => if v.isSome then 1 else 0
  | count _ => 1

/-- The nodes that the result holds. -/
def nodes : View.Result → List Interned
  | entries es => es.map Prod.snd
  | value v => v.toList
  | _ => []

def resultSize : Nat := 32

def entrySize : Nat := 24

def keySize : Nat := 16

/-- The bytes that the result takes. -/
def byteSize : View.Result → Nat
  | entries es => resultSize + es.foldr (fun e n => e.1.text.utf8ByteSize + entrySize + n) 0
  | keys ks => resultSize + ks.foldr (fun k n => k.text.utf8ByteSize + keySize + n) 0
  | _ => resultSize

instance : HasWeight View.Result := ⟨fun r => UInt64.ofNat r.byteSize⟩

/-- A table whose only key names the kind of result. -/
def toDocument : View.Result → Document
  | entries es => .table [("entries", .table (es.map fun e => (e.1.text, e.2.toValue.toDocument)))]
  | keys ks => .table [("keys", .list (ks.map fun k => .text k.text))]
  | value v => .table [("value", (v.map fun n => n.toValue.toDocument).getD .null)]
  | count n => .table [("count", .int n)]

end View.Result

end ConfigCompiler
