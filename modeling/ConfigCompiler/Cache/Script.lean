import ConfigCompiler.Cache.Checked
import ConfigCompiler.Cache.Deadline
import ConfigCompiler.Cache.Error

/-!
# Scripts over a cache

A script is a list of cache operations in which producers are scripts themselves, so that what happens
while a payload is being produced can be laid down: further operations of the producing caller, and other
callers who come to wait for the same key. `Script.run` performs a script and tells after each step what
was answered and what the cache looks like.

Sums are checked. A panic ends the script that it happens in, and so the production of which that script is a
part, but goes no further than the call that runs the producer.
-/

namespace ConfigCompiler

namespace Script

/-- A payload with the weight that it claims. -/
structure Item where
  value : Int
  weight : UInt64
  deriving DecidableEq, Repr

instance : HasWeight Item := ⟨Item.weight⟩

/-- How a producer ends. -/
inductive Ending where
  | ok (item : Item)
  | error (text : String)
  | unwind

/-- A caller who asks for the key that is being produced; its own producer only ends. -/
structure Waiter where
  deadline? : Option Deadline
  ending : Ending

inductive Op where
  | get (key : String)
  | contains (key : String)
  | insert (key : String) (item : Item)
  /-- The producer performs `ops`, meets the waiters, performs `after` and ends. -/
  | compute (key : String) (deadline? : Option Deadline) (ops : List Op) (waiters : List Waiter)
      (after : List Op) (ending : Ending)
  | invalidate (stem : String)
  | clear
  | info

abbrev Store := Cache String String Item

/-- How a call for a payload that may have to be produced ends. -/
inductive Outcome where
  | ok (value : Int)
  | failed (error : CacheError String)
  | unwound
  /-- The caller waits for ever for a production of its own. -/
  | never
  deriving DecidableEq, Repr

/-- An outcome, and whether the caller's own producer was run for it. -/
structure Call where
  outcome : Outcome
  ran : Bool
  deriving DecidableEq, Repr

mutual

inductive Reply where
  | done
  | value (value? : Option Int)
  | flag (b : Bool)
  | count (n : Nat)
  | info (size : Nat) (capacity : Capacity) (hitRate : Binary64)
  | computed (call : Call) (nested : List Step) (waiters : List Call)

/-- What was answered, and the cache after it: its counters, and its keys in ascending order. -/
inductive Step where
  | step (reply : Reply) (stats : Cache.Stats) (keys : List String)

end

/-- What has come of a script. -/
structure Report where
  cache : Store
  /-- The steps that were taken. -/
  steps : List Step
  /-- Whether the next step has panicked. -/
  panicked : Bool

/-! ## Calls -/

def outcomeOf : Except String Item → Outcome
  | .ok item => .ok item.value
  | .error text => .failed (.producer text)

/-- The production that the caller leads ends with a result. -/
def finish (c : Store) (key : String) (flight : Nat) (result : Except String Item) : Store × Call :=
  match Cache.Checked.finish c key flight result with
  | .ok c => (c, ⟨outcomeOf result, true⟩)
  | .error c => (c, ⟨.unwound, true⟩)

/-- The end of a production that the caller leads. -/
def land (c : Store) (key : String) (flight : Nat) : Ending → Store × Call
  | .ok item => finish c key flight (.ok item)
  | .error text => finish c key flight (.error text)
  | .unwind => (c.unwind key flight, ⟨.unwound, true⟩)

/-- A waiter's call: answered already, or still waiting for a flight. -/
inductive Waiting where
  | answered (call : Call)
  | on (flight : Nat) (ending : Ending)

/-- A waiter comes. -/
def arrive (c : Store) (key : String) (w : Waiter) : Store × Waiting :=
  match c.enter key with
  | (c, .found item) => (c, .answered ⟨.ok item.value, false⟩)
  | (c, .join flight) =>
    if w.deadline? = some .expired then (c, .answered ⟨.failed .waitTimedOut, false⟩)
    else (c, .on flight w.ending)
  | (c, .lead flight) =>
    let (c, call) := land c key flight w.ending
    (c, .answered call)

def arriveAll (c : Store) (key : String) : List Waiter → Store × List Waiting
  | [] => (c, [])
  | w :: ws =>
    let (c, waiting) := arrive c key w
    let (c, others) := arriveAll c key ws
    (c, waiting :: others)

/--
A waiter leaves when its flight has ended: with the flight's result, or, if the flight was abandoned, by
starting over.
-/
def leave (c : Store) (key : String) : Waiting → Store × Call
  | .answered call => (c, call)
  | .on flight ending =>
    match c.landing flight with
    | .landed result => (c.coalesce, ⟨outcomeOf result, false⟩)
    | .running => (c, ⟨.never, false⟩)
    | .abandoned =>
      match c.enter key with
      | (c, .found item) => (c, ⟨.ok item.value, false⟩)
      | (c, .join _) => (c, ⟨.never, false⟩)
      | (c, .lead flight) => land c key flight ending

def leaveAll (c : Store) (key : String) : List Waiting → Store × List Call
  | [] => (c, [])
  | w :: ws =>
    let (c, call) := leave c key w
    let (c, calls) := leaveAll c key ws
    (c, call :: calls)

/-! ## Running -/

/-- The cache after a step, with what it shows. -/
def observed (c : Store) (reply : Reply) : Store × Step :=
  (c, .step reply c.stats ((c.entries.map Cache.Entry.key).mergeSort fun a b => decide (a ≤ b)))

/-- A step that drops entries and says how many. -/
def counted (dropped : Except Store (Store × Nat)) : Except Store (Store × Step) :=
  dropped.map fun (c, n) => observed c (.count n)

/-- The producer unwinds before its end, after the steps that it has taken, and those who wait leave. -/
def unwound (c : Store) (key : String) (flight : Nat) (steps : List Step) (waiting : List Waiting) :
    Store × Step :=
  let (c, calls) := leaveAll (c.unwind key flight) key waiting
  observed c (.computed ⟨.unwound, true⟩ steps calls)

mutual

/-- Performs an operation; an error is what a panic leaves of the cache. -/
def runOp (c : Store) : Op → Except Store (Store × Step)
  | .get key =>
    let (c, item?) := c.get key
    .ok (observed c (.value (item?.map Item.value)))
  | .contains key => .ok (observed c (.flag (c.contains key)))
  | .insert key item => (Cache.Checked.insert c key item).map (observed · .done)
  | .compute key deadline? ops waiters after ending =>
    match c.enter key with
    | (c, .found item) => .ok (observed c (.computed ⟨.ok item.value, false⟩ [] []))
    | (c, .join _) =>
      let outcome := if deadline? = some .expired then .failed .waitTimedOut else .never
      .ok (observed c (.computed ⟨outcome, false⟩ [] []))
    | (c, .lead flight) =>
      let before := run c ops
      if before.panicked then .ok (unwound before.cache key flight before.steps [])
      else
        let (c, waiting) := arriveAll before.cache key waiters
        let later := run c after
        let steps := before.steps ++ later.steps
        if later.panicked then .ok (unwound later.cache key flight steps waiting)
        else
          let (c, call) := land later.cache key flight ending
          let (c, calls) := leaveAll c key waiting
          .ok (observed c (.computed call steps calls))
  | .invalidate stem => counted (Cache.Checked.invalidate c fun key => stem.toList.isPrefixOf key.toList)
  | .clear => counted (Cache.Checked.clear c)
  | .info => .ok (observed c (.info c.size c.capacity c.stats.hitRate))

/-- Performs a script, step by step. -/
def run (c : Store) : List Op → Report
  | [] => ⟨c, [], false⟩
  | op :: ops =>
    match runOp c op with
    | .error c => ⟨c, [], true⟩
    | .ok (c, step) =>
      let rest := run c ops
      { rest with steps := step :: rest.steps }

end

end Script

end ConfigCompiler
