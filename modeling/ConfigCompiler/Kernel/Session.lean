import ConfigCompiler.Kernel.Script

/-!
# Sessions with a kernel

A session gives names to payloads that it keeps and performs operations one after another. A payload that
is not kept is let go before the next operation. The hook of a pass is performed the first time that the
pass runs; the operations of a hook see the kernel as the compilation has left it so far.
-/

namespace ConfigCompiler

namespace Kernel

structure Session where
  kernel : Kernel (List Op)
  kept : Entries Payload
  /-- The passes whose hooks have been performed. -/
  hooked : List String

namespace Session

def start (settings : Settings) (hierarchy : Hierarchy) : Except KernelError Session :=
  return ⟨← Kernel.new settings hierarchy, [], []⟩

/-- Performs the hook of a pass and says what its operations answered. -/
abbrev Performer := Session → String → List Op → Session × List Step

/-! ## Kept payloads -/

/-- Lets go of the payload of a name, if there is one. -/
def drop (s : Session) (name : String) : Session × Bool :=
  match s.kept.get? name with
  | some p => ({ s with kernel := s.kernel.release p, kept := s.kept.erase name }, true)
  | none => (s, false)

/-- Gives a payload that is held already to a name, or lets go of it where there is no name. -/
def keep (s : Session) (name? : Option String) (p : Payload) : Session :=
  match name? with
  | none => { s with kernel := s.kernel.release p }
  | some name =>
    let s := (s.drop name).1
    { s with kept := s.kept.insert name p }

def same (s : Session) (a b : String) : Reply :=
  match s.kept.get? a, s.kept.get? b with
  | some a, some b => .flag (a.same b)
  | _, _ => .notKept

def sameValue (s : Session) (name a b : String) : Reply :=
  match (s.kept.get? name).map Payload.content with
  | some (.compiled c) => .sharing do
    let a ← c.get? a
    let b ← c.get? b
    return (a.same b, s.kernel.store.holderCount a)
  | _ => .notKept

/-! ## Calls -/

/-- A bound on the steps of a call, whose pipeline runs twice at most. -/
def maxSteps (t : Task (List Op)) : Nat := 4 * (t.snapshot.passes.length + 10)

/--
Takes a call to its end: its answer and what hooks performed meanwhile, after `nested`. There is no answer
if the call waits for ever.
-/
def finishCall (perform : Performer) : (fuel : Nat) → Session → Task (List Op) →
    (nested : List Step) → Session × List Step × Option (Except KernelError Payload)
  | 0, s, _, nested => (s, nested, none)
  | fuel + 1, s, t, nested =>
    match t.step s.kernel with
    | (kernel, .next t) => finishCall perform fuel { s with kernel } t nested
    | (kernel, .hook pass ops t) =>
      let (s, steps) := perform { s with kernel } pass ops
      finishCall perform fuel s t (nested ++ steps)
    | (kernel, .blocked t) =>
      if t.deadline? = some .expired then
        let (kernel, t) := t.giveUp kernel
        finishCall perform fuel { s with kernel } t nested
      else ({ s with kernel }, nested, none)
    | (kernel, .done result) => ({ s with kernel }, nested, some result)

/-- Calls the kernel and keeps the payload. -/
def call (perform : Performer) (s : Session) (request : Request) (keep? : Option String)
    (reading : Reading) : Session × List Step × Reply :=
  match Task.ofRequest s.kernel request with
  | .error e => (s, [], .failed e)
  | .ok t =>
    match finishCall perform (maxSteps t) s t [] with
    | (s, nested, some (.ok p)) => (s.keep keep? p, nested, .payload p.content reading)
    | (s, nested, some (.error e)) => (s, nested, .failed e)
    | (s, nested, none) => (s, nested, .never)

/-- Calls the kernel with the parameters that a value holds. -/
def callWith (perform : Performer) (s : Session) (params : Value) (request : Params → Request)
    (keep? : Option String) (reading : Reading) : Session × List Step × Reply :=
  match Params.ofValue params with
  | .error e => (s, [], .badParams e)
  | .ok params => s.call perform (request params) keep? reading

/-! ## Operations -/

def digestOf (s : Session) : Source → Digest
  | .raw raw => s.kernel.sourceDigest raw
  | .digest d => d

/-- Changes the kernel, unless the change is refused. -/
def change (s : Session) : Except KernelError (Kernel (List Op)) → Session × Reply
  | .ok kernel => ({ s with kernel }, .done)
  | .error e => (s, .failed e)

/-- What an operation that drops cached payloads answers. -/
def dropped (s : Session) : Kernel (List Op) × Nat → Session × Reply
  | (kernel, n) => ({ s with kernel }, .count n)

/-- Nothing is nested in an operation that makes no call. -/
def alone (r : Session × Reply) : Session × List Step × Reply := (r.1, [], r.2)

def perform (hook : Performer) (s : Session) : Op → Session × List Step × Reply
  | .compile raw keep? reading => s.call hook (.compile raw) keep? reading
  | .query view params raw deadline? keep? reading =>
    s.callWith hook params (.query view · raw deadline?) keep? reading
  | .queryCompiled view params source keep? reading =>
    s.callWith hook params (.queryCompiled view · (s.digestOf source)) keep? reading
  | .same a b => alone (s, s.same a b)
  | .sameValue name a b => alone (s, s.sameValue name a b)
  | .drop name =>
    let (s, there) := s.drop name
    alone (s, .flag there)
  | .sourceDigest raw => alone (s, .digest (s.kernel.sourceDigest raw))
  | .passSet => alone (s, .digest s.kernel.passSet)
  | .replaceHierarchy declared =>
    alone (match Hierarchy.build declared with
      | .error e => (s, .badHierarchy e)
      | .ok h => s.dropped (s.kernel.replaceHierarchy h))
  | .invalidate source => alone (s.dropped (s.kernel.invalidateSource (s.digestOf source)))
  | .stats => alone (s, .stats s.kernel.stats)
  | .report => alone ({ s with kernel := s.kernel.report }, .done)
  | .settings => alone (s, .settings s.kernel.settings)
  | .hierarchy => alone (s, .hierarchy s.kernel.hierarchy)
  | .inspect => alone (s, .text s.kernel.inspect)
  | .registerPass pass => alone (s.change (s.kernel.registerPass pass))
  | .registerView view => alone (s.change (s.kernel.registerView view))
  | .setPassList names => alone (s.change (s.kernel.setPassList names))

/-- Performs an operation and tells the snapshots published meanwhile from those before. -/
def step (hook : Performer) (s : Session) (op : Op) : Session × Step :=
  let before := s.kernel.published
  let (s, nested, reply) :=
    perform hook { s with kernel := { s.kernel with published := [] } } op
  let done : Step := ⟨reply, s.kernel.stats, nested, s.kernel.published.reverse⟩
  ({ s with kernel := { s.kernel with published := before } }, done)

def steps (hook : Performer) (s : Session) : List Op → Session × List Step
  | [] => (s, [])
  | op :: ops =>
    let (s, done) := s.step hook op
    let (s, others) := s.steps hook ops
    (s, done :: others)

/-- Performs operations, with hooks within each other up to a depth. -/
def runWithin : (depth : Nat) → Session → List Op → Session × List Step
  | 0, s, ops => s.steps (fun s _ _ => (s, [])) ops
  | depth + 1, s, ops =>
    let hook : Performer := fun s pass ops =>
      if pass ∈ s.hooked then (s, [])
      else runWithin depth { s with hooked := pass :: s.hooked } ops
    s.steps hook ops

/-- Performs operations; hooks nest no deeper than there are passes, each of which has one hook. -/
def run (s : Session) (ops : List Op) : List Step := (s.runWithin ops.length ops).2

end Session

end Kernel

end ConfigCompiler
