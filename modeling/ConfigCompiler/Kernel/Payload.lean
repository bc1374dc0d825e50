import ConfigCompiler.Kernel.Error
import ConfigCompiler.View.Result

/-!
# Payloads and their keys

What a kernel caches: compilations and results of views. A payload has an identity, so that two callers
can tell whether they were given the same one.
-/

namespace ConfigCompiler

/--
Names a payload by all that it depends on. The digest of the raw configuration, which the id covers too,
is there for those who ask what was derived from it: keys of one id have one source, unless two inputs of
their digests collide (`CacheKey.derive_inj`).
-/
structure CacheKey where
  id : Digest
  source : Digest
  deriving DecidableEq

namespace CacheKey

def domain : String := "strata.cache-key.v1"

def fields (source passSet : Digest) (view? : Option (String × Digest)) : List Digest.Field :=
  [.digest source, .digest passSet] ++ match view? with
    | some (name, params) => [.text name, .digest params]
    | none => [.absent]

def derive (source passSet : Digest) (view? : Option (String × Digest)) : CacheKey :=
  ⟨Digest.ofFields domain (fields source passSet view?), source⟩

/-- The key of a compilation. -/
def compiled (source passSet : Digest) : CacheKey := derive source passSet none

/-- The key of a view's result over a compilation. -/
def view (source passSet : Digest) (name : String) (params : Digest) : CacheKey :=
  derive source passSet (some (name, params))

end CacheKey

namespace Payload

inductive Kind where
  | compiled
  | view
  deriving DecidableEq, Repr

def Kind.name : Kind → String
  | compiled => "compiled"
  | view => "view"

inductive Content where
  | compiled (c : Compilation)
  | view (r : View.Result)

namespace Content

def kind : Content → Kind
  | compiled _ => .compiled
  | view _ => .view

/-- The nodes that a payload holds. -/
def nodes : Content → List Interned
  | compiled c => c.nodes
  | view r => r.nodes

instance : HasWeight Content where
  weight
    | compiled c => HasWeight.weight c
    | view r => HasWeight.weight r

end Content

end Payload

structure Payload where
  id : Nat
  content : Payload.Content

namespace Payload

instance : HasWeight Payload := ⟨fun p => HasWeight.weight p.content⟩

/-- Whether two callers were given one payload. -/
def same (a b : Payload) : Bool := a.id == b.id

/-- The failure to find a payload of the expected kind under a key. -/
def mismatch (key : CacheKey) (found expected : Kind) : KernelError :=
  .integrity ⟨key.id, found.name, expected.name⟩

end Payload

end ConfigCompiler
