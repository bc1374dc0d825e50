import ConfigCompiler.Pipeline.Pass

/-!
# Running a pipeline

A run goes through its passes one by one (`Run.step`) and then publishes the compilation. It stops at the
first pass that fails. At a hook the run is handed back to whoever runs it, to be taken up again once the
hook has been performed.
-/

namespace ConfigCompiler

/-- A pass failed, or publication after the last one. -/
structure PassFailure where
  pass : String
  position : Nat
  error : PassError
  deriving DecidableEq

/-- A run in progress. -/
structure Run (H : Type) where
  /-- The passes still to come. -/
  rest : List (Pass H)
  /-- The number of passes that have run. -/
  position : Nat
  phase : Phase
  draft : Draft
  /-- The changes of phase so far, the last one first. -/
  transitions : List Transition

namespace Run

variable {H : Type}

def start (passes : List (Pass H)) (source : Value) : Run H :=
  ⟨passes, 0, .initial, .ofSource source, []⟩

inductive Progress (H : Type) where
  | next (r : Run H)
  /-- A pass wants a hook to be performed; the run goes on afterwards. -/
  | hook (pass : String) (h : H) (r : Run H)
  /-- The run is over; its changes of phase are in their order. -/
  | done (transitions : List Transition) (result : Except PassFailure Compilation)

/-- The compilation of a draft after its last pass; a draft that lacks a part is given up. -/
def publish (given : Premises) (store : Store) (d : Draft) :
    Store × Except PassError Compilation :=
  match d.entries?, d.index? with
  | none, _ => (store, .error (.incomplete "intern"))
  | some _, none => (store.releaseAll d.nodes, .error (.incomplete "index"))
  | some entries, some index =>
    (store, .ok (.assemble entries index given.source given.passSet store.stats))

/-- Enters the stage of a pass. -/
def enter (r : Run H) (pass : Pass H) : Run H :=
  let phase := Phase.ofStage pass.stage
  if phase = r.phase then r
  else { r with phase, transitions := ⟨r.phase, phase, some pass.name⟩ :: r.transitions }

/-- Goes on after a pass. -/
def proceed (r : Run H) (rest : List (Pass H)) (draft : Draft) : Run H :=
  { r with rest, draft, position := r.position + 1 }

/-- Runs the next pass, or publishes. -/
def step (given : Premises) (store : Store) (r : Run H) : Store × Progress H :=
  match r.rest with
  | [] =>
    match publish given store r.draft with
    | (store, .error e) => (store, .done r.transitions.reverse (.error ⟨"publish", r.position, e⟩))
    | (store, .ok c) =>
      (store, .done (⟨r.phase, .compiled, none⟩ :: r.transitions).reverse (.ok c))
  | pass :: rest =>
    let r := r.enter pass
    match pass.action with
    | .hook h => (store, .hook pass.name h (r.proceed rest r.draft))
    | action =>
      match action.run given store r.draft with
      | (store, .ok draft) => (store, .next (r.proceed rest draft))
      | (store, .error e) =>
        (store, .done (⟨r.phase, .failed, some pass.name⟩ :: r.transitions).reverse
          (.error ⟨pass.name, r.position, e⟩))

/-- Runs to the end and performs no hooks; `fuel` bounds the number of passes. -/
def toEnd (given : Premises) : (fuel : Nat) → Store → Run H →
    Store × List Transition × Except PassFailure Compilation
  | 0, store, r => (store, r.transitions.reverse, .error ⟨"publish", r.position, .incomplete "intern"⟩)
  | fuel + 1, store, r =>
    match r.step given store with
    | (store, .next r) => toEnd given fuel store r
    | (store, .hook _ _ r) => toEnd given fuel store r
    | (store, .done transitions result) => (store, transitions, result)

/-- Runs passes over a raw configuration. -/
def all (given : Premises) (store : Store) (passes : List (Pass H)) (source : Value) :
    Store × List Transition × Except PassFailure Compilation :=
  toEnd given (passes.length + 1) store (start passes source)

end Run

end ConfigCompiler
