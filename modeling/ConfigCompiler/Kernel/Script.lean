import ConfigCompiler.Hierarchy.Build
import ConfigCompiler.Kernel.Task

/-!
# Operations on a kernel

The operations that a session with a kernel is made of, and what each of them answers. The hook of a pass
is a list of such operations, so that a caller may come back to the kernel while it compiles.
-/

namespace ConfigCompiler

namespace Kernel

/-- A raw configuration, given itself or by its digest. -/
inductive Source where
  | raw (raw : Value)
  | digest (d : Digest)

/-- What is read off a payload along with the answer. -/
structure Reading where
  /-- Keys to look up. -/
  keys? : Option (List String)
  /-- Paths to list the entries below. -/
  paths? : Option (List String)
  /-- Whether the payload is written as a document. -/
  document : Bool
  deriving DecidableEq, Repr

inductive Op where
  | compile (raw : Value) (keep? : Option String) (reading : Reading)
  | query (view : String) (params : Value) (raw : Value) (deadline? : Option Deadline)
      (keep? : Option String) (reading : Reading)
  | queryCompiled (view : String) (params : Value) (source : Source) (keep? : Option String)
      (reading : Reading)
  /-- Whether two kept payloads are one. -/
  | same (a b : String)
  /-- Whether the values of two keys of a kept compilation are one node, and how many hold the first. -/
  | sameValue (name a b : String)
  | drop (name : String)
  | sourceDigest (raw : Value)
  | passSet
  | replaceHierarchy (declared : List (String × List String))
  | invalidate (source : Source)
  | stats
  | report
  | settings
  | hierarchy
  | inspect
  | registerPass (pass : Pass (List Op))
  | registerView (view : View)
  | setPassList (names : List String)

inductive Reply where
  | done
  | flag (b : Bool)
  | count (n : Nat)
  | digest (d : Digest)
  | payload (content : Payload.Content) (reading : Reading)
  | sharing (shared? : Option (Bool × Nat))
  | stats (s : Kernel.Stats)
  | settings (s : Settings)
  | hierarchy (h : Hierarchy)
  | text (t : String)
  | failed (error : KernelError)
  | badParams (error : ViewError)
  | badHierarchy (error : HierarchyError)
  /-- Nothing of the kind is kept under the name. -/
  | notKept
  /-- The caller waits for ever for a production of its own. -/
  | never

/-- An operation performed. -/
structure Step where
  reply : Reply
  /-- The kernel's counters afterwards. -/
  stats : Kernel.Stats
  /-- The operations that hooks performed meanwhile. -/
  nested : List Step
  /-- The snapshots that were published, apart from those of nested operations. -/
  published : List Kernel.Stats

end Kernel

end ConfigCompiler
