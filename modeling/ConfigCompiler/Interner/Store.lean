import Std.Data.HashMap
import ConfigCompiler.Binary64.Rate
import ConfigCompiler.Interner.Node
import ConfigCompiler.Value.Digest

/-!
# The interner

A store finds the node of a digest and counts who holds each node: the handles given out, and the
nodes that have it as a child, once for each occurrence. A node that nobody holds is dead: it lets go of
its children, and its slot in the table stays until a sweep or until its digest is stored again. The
table itself holds nothing.
-/

namespace ConfigCompiler

/-- Two different values have one digest. -/
structure IntegrityError where
  digest : Digest
  existing : String
  incoming : String
  deriving DecidableEq

def IntegrityError.message (e : IntegrityError) : String :=
  "digest collision at " ++ e.digest.toHex ++ ": canonical " ++ e.existing ++
    " differs from incoming " ++ e.incoming

structure Store.Stats where
  calls : Nat
  hits : Nat
  /-- The number of live nodes. -/
  distinct : Nat
  /-- The number of slots, dead ones included. -/
  tableSize : Nat
  /-- The number of dead slots that sweeps have removed. -/
  reclaimed : Nat
  bytesSaved : Nat
  deriving DecidableEq, Repr

def Store.Stats.hitRate (s : Store.Stats) : Binary64 := Binary64.rate s.hits s.calls

structure Store where
  quantization : Quantization
  table : Std.HashMap Digest Interned
  /-- The number of holders of each live node. -/
  holders : Std.HashMap Nat Nat
  nextId : Nat
  /-- The size of the table at which it is swept. -/
  sweepAt : Nat
  calls : Nat
  hits : Nat
  reclaimed : Nat
  bytesSaved : Nat

namespace Store

/-- The table is never swept on its own below this size. -/
def minSweepAt : Nat := 1024

def empty (q : Quantization) : Store := ⟨q, ∅, ∅, 0, minSweepAt, 0, 0, 0, 0⟩

/-! ## Holders -/

def holderCount (s : Store) (n : Interned) : Nat := s.holders.getD n.id 0

def isLive (s : Store) (n : Interned) : Bool := s.holders.contains n.id

/-- One more holder of a node. -/
def retain (s : Store) (n : Interned) : Store :=
  { s with holders := s.holders.insert n.id (s.holderCount n + 1) }

mutual

/-- One holder of a node less; without holders it dies and releases its children. -/
def release (s : Store) : Interned → Store
  | .node id _ shape =>
    let count := s.holders.getD id 0
    if count ≤ 1 then releaseShape { s with holders := s.holders.erase id } shape
    else { s with holders := s.holders.insert id (count - 1) }

def releaseShape (s : Store) : Shape Interned → Store
  | .seq items => releaseAll s items
  | .map entries => releaseEntries s entries
  | .null => s
  | .bool _ => s
  | .int _ => s
  | .float _ => s
  | .str _ => s

def releaseAll (s : Store) : List Interned → Store
  | [] => s
  | n :: ns => releaseAll (release s n) ns

def releaseEntries (s : Store) : List (String × Interned) → Store
  | [] => s
  | (_, n) :: es => releaseEntries (release s n) es

end

/-! ## Table -/

/-- The live node of a digest; whoever keeps it retains it. -/
def lookup (s : Store) (d : Digest) : Option Interned := s.table[d]?.filter s.isLive

def tableSize (s : Store) : Nat := s.table.size

/-- Removes the slots of dead nodes and says how many there were. -/
def sweep (s : Store) : Store × Nat :=
  let table := s.table.filter fun _ n => s.isLive n
  let removed := s.table.size - table.size
  ({ s with table, reclaimed := s.reclaimed + removed, sweepAt := max (2 * table.size) minSweepAt },
    removed)

def stats (s : Store) : Store.Stats where
  calls := s.calls
  hits := s.hits
  distinct := (s.table.filter fun _ n => s.isLive n).size
  tableSize := s.table.size
  reclaimed := s.reclaimed
  bytesSaved := s.bytesSaved

/-! ## Interning -/

/-- Takes the node that is there already for a shape, whose own children are let go. -/
def reuse (s : Store) (existing : Interned) (shape : Shape Interned) :
    Store × Except IntegrityError Interned :=
  if existing.shape.matches? Interned.same shape then
    let s := { s with hits := s.hits + 1, bytesSaved := s.bytesSaved + shape.shallowSize }
    ((s.retain existing).releaseAll shape.children, .ok existing)
  else
    (s.releaseAll shape.children, .error ⟨existing.digest, existing.kind, shape.kind⟩)

/-- Makes a node of a shape, which takes over the handles of the children. -/
def create (s : Store) (digest : Digest) (shape : Shape Interned) : Store × Interned :=
  let n := Interned.node s.nextId digest shape
  let s := { s with
    nextId := s.nextId + 1
    table := s.table.insert digest n
    holders := s.holders.insert n.id 1 }
  (if s.sweepAt ≤ s.table.size then s.sweep.1 else s, n)

/-- The canonical node of a digest and a shape, with one more handle to it. -/
def resolve (s : Store) (digest : Digest) (shape : Shape Interned) :
    Store × Except IntegrityError Interned :=
  let s := { s with calls := s.calls + 1 }
  match s.lookup digest with
  | some existing => s.reuse existing shape
  | none =>
    let (s, n) := s.create digest shape
    (s, .ok n)

def seqDigest (items : List Interned) : Digest :=
  Digest.ofValueFields (Digest.seqFields (items.map Interned.digest))

def mapDigest (entries : Entries Interned) : Digest :=
  Digest.ofValueFields (Digest.mapFields (entries.map fun e => (e.1, e.2.digest)))

mutual

/-- The canonical node of a value, with one more handle to it. -/
def intern (s : Store) : Value → Store × Except IntegrityError Interned
  | .null => s.resolve Digest.null .null
  | .bool b => s.resolve (Digest.ofValueFields [.bool b]) (.bool b)
  | .int i => s.resolve (Digest.ofValueFields [.int i]) (.int i)
  | .float x => s.resolve (Digest.ofValueFields [.float x s.quantization]) (.float (s.quantization.apply x))
  | .str t => s.resolve (Digest.ofValueFields [.text t]) (.str t)
  | .seq items =>
    match internItems s items with
    | (s, .error e) => (s, .error e)
    | (s, .ok children) => s.resolve (seqDigest children) (.seq children)
  | .map entries =>
    match internEntries s entries with
    | (s, .error e) => (s, .error e)
    | (s, .ok children) =>
      let children := Entries.sorted children
      s.resolve (mapDigest children) (.map children)

/-- The nodes of values in their order; a failure lets go of those before it. -/
def internItems (s : Store) : List Value → Store × Except IntegrityError (List Interned)
  | [] => (s, .ok [])
  | v :: vs =>
    match intern s v with
    | (s, .error e) => (s, .error e)
    | (s, .ok n) =>
      match internItems s vs with
      | (s, .error e) => (s.release n, .error e)
      | (s, .ok ns) => (s, .ok (n :: ns))

def internEntries (s : Store) : List (String × Value) →
    Store × Except IntegrityError (List (String × Interned))
  | [] => (s, .ok [])
  | (key, v) :: es =>
    match intern s v with
    | (s, .error e) => (s, .error e)
    | (s, .ok n) =>
      match internEntries s es with
      | (s, .error e) => (s.release n, .error e)
      | (s, .ok ns) => (s, .ok ((key, n) :: ns))

end

end Store

end ConfigCompiler
