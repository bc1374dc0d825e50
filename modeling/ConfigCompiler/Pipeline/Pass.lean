import ConfigCompiler.Compilation.Basic
import ConfigCompiler.Expansion.Claims
import ConfigCompiler.Pipeline.Stage
import ConfigCompiler.Pipeline.Validation

/-!
# Passes

A pass is one step of a compilation. It takes over the draft, which carries the raw configuration and
what the passes before have made of it, and hands it on or fails; a draft that is given up lets go of the
nodes that it holds.

Besides the four steps that make a compilation there are small actions that rewrite the configuration,
take something away or fail, and hooks, whose effect is up to whoever runs the pipeline.
-/

namespace ConfigCompiler

/-- A compilation in progress. -/
structure Draft where
  source : Value
  expansions? : Option (List Expansion)
  entries? : Option (List (Key × Interned))
  index? : Option PathIndex

/-- A part of a draft that a pass may take away. -/
inductive Draft.Part where
  | expansions
  | entries
  | index
  deriving DecidableEq, Repr

inductive Action (H : Type) where
  /-- Checks the shape of the configuration. -/
  | validate
  /-- Expands the patterns of the root into keys. -/
  | expand
  /-- Interns the values of the root and binds them to the keys. -/
  | intern
  /-- Indexes the keys by prefix. -/
  | index
  | noop
  /-- Adds a root entry if its key is not there. -/
  | setDefault (key : String) (value : Value)
  | set (key : String) (value : Value)
  | remove (key : String)
  | replace (source : Value)
  | unset (part : Draft.Part)
  | fail (text : String)
  | failIntegrity (error : IntegrityError)
  /-- Fails with the quantization as text. -/
  | failQuantization
  /-- Fails unless the root is a map. -/
  | requireRoot
  | hook (h : H)

structure Pass (H : Type) where
  name : String
  stage : Stage
  action : Action H

/-- What is fixed for all passes of a compilation. -/
structure Premises where
  hierarchy : Hierarchy
  overrides : Overrides
  /-- The digest of the raw configuration. -/
  source : Digest
  passSet : Digest

namespace Draft

def ofSource (source : Value) : Draft := ⟨source, none, none, none⟩

/-- The nodes that the draft holds. -/
def nodes (d : Draft) : List Interned := (d.entries?.getD []).map Prod.snd

/-- Changes the root map, if the source is one. -/
def editRoot (d : Draft) (f : Entries Value → Entries Value) : Draft :=
  match d.source with
  | .map entries => { d with source := .map (f entries) }
  | _ => d

def root (d : Draft) : Except PassError (Entries Value) := d.source.root.mapError .validation

end Draft

namespace Action

variable {H : Type}

/-! ## Steps of a compilation -/

/-- The keys of a root map. -/
def expansions (q : Quantization) (given : Premises) (root : Entries Value) :
    Except ExpandError (List Expansion) := do
  let entries ← root.mapM fun (key, v) => SourceEntry.ofText key (v.digest q)
  Expansion.ofEntries given.hierarchy entries given.overrides

/-- The nodes of the origins that have been interned so far. -/
abbrev Memo := List (Nat × Interned)

/-- The node of an origin, with one more handle to it; each origin is interned once. -/
def originNode (store : Store) (root : Entries Value) (memo : Memo) (origin : Nat) :
    Store × Except PassError (Memo × Interned) :=
  match memo.lookup origin with
  | some n => (store.retain n, .ok (memo, n))
  | none =>
    match root[origin]? with
    | none => (store, .error (.custom ("expansion origin " ++ toString origin ++
        " is outside the source; was it rewritten after expand?")))
    | some (_, v) =>
      match store.intern v with
      | (store, .error e) => (store, .error (.integrity e))
      | (store, .ok n) => (store, .ok ((origin, n) :: memo, n))

/-- The entries of expansions; a failure lets go of the nodes so far. -/
def internAll (root : Entries Value) : (expansions : List Expansion) → Store → Memo →
    Store × Except PassError (List (Key × Interned))
  | [], store, _ => (store, .ok [])
  | x :: xs, store, memo =>
    match originNode store root memo x.origin with
    | (store, .error e) => (store, .error e)
    | (store, .ok (memo, n)) =>
      match internAll root xs store memo with
      | (store, .error e) => (store.release n, .error e)
      | (store, .ok entries) => (store, .ok ((x.key, n) :: entries))

/-! ## Actions -/

/-- The quantization as inspection shows it. -/
def inspectQuantization : Quantization → String
  | .disabled => "Disabled"
  | .epsilon width => "Epsilon(" ++ Layout.inspect.write width ++ ")"

/-- The draft with new entries; those that it had are let go. -/
def withEntries (store : Store) (d : Draft) (entries? : Option (List (Key × Interned))) :
    Store × Draft :=
  (store.releaseAll d.nodes, { d with entries? })

/-- What an action makes of a draft that it does not give up; a hook does nothing here. -/
def transform (given : Premises) (store : Store) (d : Draft) :
    Action H → Store × Except PassError Draft
  | validate => (store, (d.source.validate.mapError .validation).map fun _ => d)
  | expand => (store, do
      let xs ← (expansions store.quantization given (← d.root)).mapError .expand
      return { d with expansions? := some xs })
  | intern =>
    match d.expansions?, d.root with
    | none, _ => (store, .error (.missingInput "expand"))
    | some _, .error e => (store, .error e)
    | some xs, .ok root =>
      match internAll root xs store [] with
      | (store, .error e) => (store, .error e)
      | (store, .ok entries) =>
        let (store, d) := withEntries store d (some entries)
        (store, .ok d)
  | index =>
    match d.entries? with
    | none => (store, .error (.missingInput "intern"))
    | some entries => (store, .ok { d with index? := some (.build (entries.map Prod.fst)) })
  | noop => (store, .ok d)
  | setDefault key v =>
    (store, .ok (d.editRoot fun root => if root.contains key then root else root.insert key v))
  | set key v => (store, .ok (d.editRoot (·.insert key v)))
  | remove key => (store, .ok (d.editRoot (·.erase key)))
  | replace source => (store, .ok { d with source })
  | unset .expansions => (store, .ok { d with expansions? := none })
  | unset .entries =>
    let (store, d) := withEntries store d none
    (store, .ok d)
  | unset .index => (store, .ok { d with index? := none })
  | fail text => (store, .error (.custom text))
  | failIntegrity error => (store, .error (.integrity error))
  | failQuantization => (store, .error (.custom (inspectQuantization store.quantization)))
  | requireRoot => (store, d.root.map fun _ => d)
  | hook _ => (store, .ok d)

/-- Runs an action; if it fails, the draft is given up. -/
def run (given : Premises) (store : Store) (d : Draft) (a : Action H) :
    Store × Except PassError Draft :=
  match a.transform given store d with
  | (store, .ok d) => (store, .ok d)
  | (store, .error e) => (store.releaseAll d.nodes, .error e)

end Action

namespace Pass

variable {H : Type}

/-- The passes that every kernel starts with. -/
def builtins : List (Pass H) :=
  [⟨"validate", .validate, .validate⟩, ⟨"expand", .expand, .expand⟩,
    ⟨"intern", .intern, .intern⟩, ⟨"index", .index, .index⟩]

end Pass

end ConfigCompiler
