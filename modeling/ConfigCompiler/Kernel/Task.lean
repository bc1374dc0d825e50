import ConfigCompiler.Cache.Deadline
import ConfigCompiler.Kernel.Basic

/-!
# Calls in progress

A call to the kernel is a task: what it is about to do, and frames that say what becomes of the answer.
`Task.step` makes one atomic step. Tasks of several callers may take their steps in any order; one that
waits for another caller's flight is blocked until that flight has ended, or until it gives up at its
deadline.
-/

namespace ConfigCompiler

/-- What a caller may ask for. -/
inductive Request where
  /-- The compilation of a raw configuration. -/
  | compile (raw : Value)
  /-- A view over the compilation of a raw configuration. -/
  | query (view : String) (params : Params) (raw : Value) (deadline? : Option Deadline)
  /-- A view over a compilation that is cached already. -/
  | queryCompiled (view : String) (params : Params) (source : Digest)

/-- How a missing payload is produced. -/
inductive Production where
  | compile (raw : Value)
  | view (view : View) (params : Params) (raw : Value)
  | viewOfCached (view : View) (params : Params)

/-- What a call saw of the kernel when it began; all that it does depends on this. -/
structure Snapshot (H : Type) where
  source : Digest
  passSet : Digest
  hierarchy : Hierarchy
  passes : List (Pass H)

/-- What a task is about to do. -/
inductive Goal (H : Type) where
  /-- Ask the cache, and produce what is missing. -/
  | ask (key : CacheKey) (deadline? : Option Deadline) (production : Production)
  /-- Wait for another caller's flight. -/
  | wait (key : CacheKey) (flight : Nat) (deadline? : Option Deadline) (production : Production)
  /-- Go on with a run of the pipeline. -/
  | run (r : Run H)
  /-- Hand on an answer, whose payload the task holds. -/
  | answer (result : Except KernelError Payload)

/-- What becomes of an answer. -/
inductive Frame where
  /-- It must be of a kind. -/
  | expect (kind : Payload.Kind) (key : CacheKey)
  /-- It is the compilation that a view is made of. -/
  | materialize (key : CacheKey) (view : View) (params : Params)
  /-- It ends the flight that the task leads. -/
  | land (key : CacheKey) (flight : Nat)
  /-- Only its failure matters; then another payload is asked for. -/
  | thenAsk (key : CacheKey) (deadline? : Option Deadline) (production : Production)

structure Task (H : Type) where
  snapshot : Snapshot H
  goal : Goal H
  /-- The next frame comes first. -/
  frames : List Frame

namespace Snapshot

variable {H : Type}

def take (k : Kernel H) (source : Digest) : Snapshot H := ⟨source, k.passSet, k.hierarchy, k.pipeline⟩

def compiledKey (s : Snapshot H) : CacheKey := .compiled s.source s.passSet

def viewKey (s : Snapshot H) (view : String) (params : Params) : CacheKey :=
  .view s.source s.passSet view params.digest

def premises (s : Snapshot H) (k : Kernel H) : Premises :=
  ⟨s.hierarchy, k.overrides, s.source, s.passSet⟩

end Snapshot

namespace Task

variable {H : Type}

/-! ## Beginning -/

/-- The task that asks for a view's result. -/
def forView (s : Snapshot H) (key : CacheKey) (deadline? : Option Deadline) (production : Production) :
    Task H :=
  ⟨s, .ask key deadline? production, [.expect .view key]⟩

/--
The task of a request. A caller with a deadline first waits for the compilation up to the deadline: a
view's production is shared with callers who have none, so it waits for ever.
-/
def ofRequest (k : Kernel H) : Request → Except KernelError (Task H)
  | .compile raw =>
    let s := Snapshot.take k (k.sourceDigest raw)
    .ok ⟨s, .ask s.compiledKey none (.compile raw), [.expect .compiled s.compiledKey]⟩
  | .query name params raw deadline? => do
    let view ← k.views.view name
    let s := Snapshot.take k (k.sourceDigest raw)
    let key := s.viewKey name params
    let t := forView s key deadline? (.view view params raw)
    if deadline?.isSome && !k.cache.contains key then
      return { t with
        goal := .ask s.compiledKey deadline? (.compile raw)
        frames := [.expect .compiled s.compiledKey, .thenAsk key deadline? (.view view params raw),
          .expect .view key] }
    else return t
  | .queryCompiled name params source => do
    let view ← k.views.view name
    let s := Snapshot.take k source
    return forView s (s.viewKey name params) none (.viewOfCached view params)

/-! ## Steps -/

inductive Progress (H : Type) where
  | next (t : Task H)
  /-- The flight that the task waits for has not ended. -/
  | blocked (t : Task H)
  /-- A pass wants a hook to be performed; the task goes on afterwards. -/
  | hook (pass : String) (h : H) (t : Task H)
  /-- The call is over; the caller holds the payload. -/
  | done (result : Except KernelError Payload)

/-- Goes on with another goal. -/
def toward (t : Task H) (goal : Goal H) : Task H := { t with goal }

def answer (t : Task H) (result : Except KernelError Payload) : Task H := t.toward (.answer result)

/-- One caller less waits for a flight. -/
def stopWaiting (k : Kernel H) (flight : Nat) : Kernel H :=
  { k with waiting := k.waiting.insert flight (k.waiting.getD flight 0 - 1) }

/-- Begins a production. -/
def produce (k : Kernel H) (t : Task H) : Production → Kernel H × Task H
  | .compile raw => (k, t.toward (.run (.start t.snapshot.passes raw)))
  | .view view params raw =>
    let key := t.snapshot.compiledKey
    (k, { t with
      goal := .ask key none (.compile raw)
      frames := .materialize key view params :: t.frames })
  | .viewOfCached view params =>
    let key := t.snapshot.compiledKey
    match k.cache.get key with
    | (cache, some p) =>
      (({ k with cache }).retain p 1,
        { t with goal := .answer (.ok p), frames := .materialize key view params :: t.frames })
    | (cache, none) => ({ k with cache }, t.answer (.error (.notCompiled t.snapshot.source)))

/-- Asks the cache for a key. -/
def ask (k : Kernel H) (t : Task H) (key : CacheKey) (deadline? : Option Deadline)
    (production : Production) : Kernel H × Task H :=
  match k.cache.enter key with
  | (cache, .found p) => (({ k with cache }).retain p 1, t.answer (.ok p))
  | (cache, .join flight) =>
    ({ k with cache, waiting := k.waiting.insert flight (k.waiting.getD flight 0 + 1) },
      t.toward (.wait key flight deadline? production))
  | (cache, .lead flight) =>
    produce { k with cache } { t with frames := .land key flight :: t.frames } production

/-- Looks whether a flight has ended; its result is shared, and an abandoned one is asked for again. -/
def wait (k : Kernel H) (t : Task H) (key : CacheKey) (flight : Nat) (deadline? : Option Deadline)
    (production : Production) : Kernel H × Progress H :=
  match k.cache.landing flight with
  | .running => (k, .blocked t)
  | .landed result =>
    (stopWaiting { k with cache := k.cache.coalesce } flight, .next (t.answer result))
  | .abandoned => (stopWaiting k flight, .next (t.toward (.ask key deadline? production)))

/-- How long the task waits for another caller's flight. -/
def deadline? (t : Task H) : Option Deadline :=
  match t.goal with
  | .wait _ _ deadline? _ => deadline?
  | _ => none

/--
A task with a deadline gives up a flight that is still running; nothing but its own call is affected. Once
the flight has ended, its result is taken even if the deadline has passed.
-/
def giveUp (k : Kernel H) (t : Task H) : Kernel H × Task H :=
  match t.goal with
  | .wait _ flight (some _) _ =>
    match k.cache.landing flight with
    | .running => (stopWaiting k flight, t.answer (.error .waitTimedOut))
    | .landed _ | .abandoned => (k, t)
  | _ => (k, t)

/-- Takes a run of the pipeline one step further. -/
def run (k : Kernel H) (t : Task H) (r : Run H) : Kernel H × Progress H :=
  match r.step (t.snapshot.premises k) k.store with
  | (store, .next r) => ({ k with store }, .next (t.toward (.run r)))
  | (store, .hook pass h r) => ({ k with store }, .hook pass h (t.toward (.run r)))
  | (store, .done _ (.error failure)) =>
    ({ k with store }, .next (t.answer (.error (.pipeline failure))))
  | (store, .done _ (.ok c)) =>
    let k := ({ k with store }).record (t.snapshot.passes.map Pass.name)
    let (k, p) := k.wrap (.compiled c)
    (k, .next (t.answer (.ok p)))

/-- The result of a view over a compilation, which is let go. -/
def materialize (k : Kernel H) (p : Payload) (key : CacheKey) (view : View) (params : Params) :
    Kernel H × Except KernelError Payload :=
  match p.content with
  | .view _ => (k.release p, .error (Payload.mismatch key .view .compiled))
  | .compiled c =>
    match view.materialize c params with
    | .error e => (k.release p, .error (.view view.name e))
    | .ok r =>
      let store := r.nodes.foldl Store.retain k.store
      let (k, made) := ({ k with store }).wrap (.view r)
      (k.release p, .ok made)

/-- Ends the flight that the task leads; those who wait for it hold its payload from now on. -/
def land (k : Kernel H) (key : CacheKey) (flight : Nat) (result : Except KernelError Payload) :
    Kernel H :=
  let k := match result with
    | .ok p => k.retain p (1 + k.waiting.getD flight 0)
    | .error _ => k
  let (cache, left) := k.cache.finish key flight result
  ({ k with cache }).releaseAll left

/-- Hands an answer to a frame. -/
def resume (k : Kernel H) (t : Task H) (result : Except KernelError Payload) :
    Frame → Kernel H × Task H
  | .expect kind key =>
    match result with
    | .error e => (k, t.answer (.error e))
    | .ok p =>
      if p.content.kind = kind then (k, t.answer (.ok p))
      else (k.release p, t.answer (.error (Payload.mismatch key p.content.kind kind)))
  | .materialize key view params =>
    match result with
    | .error e => (k, t.answer (.error e))
    | .ok p =>
      let (k, result) := materialize k p key view params
      (k, t.answer result)
  | .land key flight => (land k key flight result, t.answer result)
  | .thenAsk key deadline? production =>
    match result with
    | .error e => (k, t.answer (.error e))
    | .ok p => (k.release p, t.toward (.ask key deadline? production))

/-- One atomic step of a task. -/
def step (k : Kernel H) (t : Task H) : Kernel H × Progress H :=
  match t.goal with
  | .ask key deadline? production =>
    let (k, t) := ask k t key deadline? production
    (k, .next t)
  | .wait key flight deadline? production => wait k t key flight deadline? production
  | .run r => run k t r
  | .answer result =>
    match t.frames with
    | [] => (k, .done result)
    | frame :: frames =>
      let (k, t) := resume k { t with frames } result frame
      (k, .next t)

end Task

end ConfigCompiler
