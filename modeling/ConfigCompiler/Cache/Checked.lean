import ConfigCompiler.Cache.Basic

/-!
# A cache whose sums are checked

The word that counts the weight of a cache wraps in `Cache.insert` and its like. Here an addition or a
subtraction that leaves the range of the word panics instead, and what was done up to then stays done: a
payload is stored before its weight is added, and a flight that lands has freed its slot by then, but those
who wait for it are not told. Each function gives the cache afterwards, or as an error the cache that a panic
leaves behind. As long as no addition leaves the range, the functions agree with those that wrap
(`Checked.insert_eq` and its like in the proofs).
-/

namespace ConfigCompiler.Cache.Checked

variable {κ ε α : Type}

/-! ## Sums -/

def add (c : Cache κ ε α) (weight : UInt64) : Except (Cache κ ε α) (Cache κ ε α) :=
  if UInt64.size ≤ c.weight.toNat + weight.toNat then .error c else .ok { c with weight := c.weight + weight }

def sub (c : Cache κ ε α) (weight : UInt64) : Except (Cache κ ε α) (Cache κ ε α) :=
  if c.weight < weight then .error c else .ok { c with weight := c.weight - weight }

/-! ## Admission -/

/-- Drops entries until the rest fits. An entry has left already when its weight is taken off. -/
def shrink : (oldestFirst : List (Entry κ α)) → Cache κ ε α → Except (Cache κ ε α) (Cache κ ε α)
  | [], c => .ok c
  | e :: es, c =>
    if c.capacity.exceeded (es.length + 1) c.weight then do
      let c ← sub { c with entries := es.reverse } e.weight
      shrink es { c with evictions := c.evictions + 1 }
    else .ok c

section
variable [DecidableEq κ] [HasWeight α]

def insert (c : Cache κ ε α) (key : κ) (value : α) : Except (Cache κ ε α) (Cache κ ε α) :=
  match admittedWeight c.capacity value with
  | none => .ok c
  | some weight => do
    let replaced := c.find? key
    let c ← sub { c with entries := ⟨key, value, weight⟩ :: without c.entries key }
      (replaced.elim 0 Entry.weight)
    let c ← add c weight
    shrink c.entries.reverse c

/-- The leader's flight lands. A panic comes after its slot is freed and before anyone is told. -/
def finish (c : Cache κ ε α) (key : κ) (flight : Nat) (result : Except ε α) :
    Except (Cache κ ε α) (Cache κ ε α) := do
  let c := c.release key flight
  let c ← match result with
    | .ok value => if c.isStale flight then .ok c else insert c key value
    | .error _ => .ok c
  return { c with flights := c.flights.modify flight (·.land result) }

end

/-! ## Invalidation -/

section
variable [DecidableEq κ]

/-- Drops entries one after another. -/
def drop : List (Entry κ α) → Cache κ ε α → Except (Cache κ ε α) (Cache κ ε α)
  | [], c => .ok c
  | e :: es, c => do
    let c ← sub { c with entries := without c.entries e.key } e.weight
    drop es c

/-- Drops what matches, counts it, and then detaches flights as `Cache.invalidate` does. -/
def invalidate (c : Cache κ ε α) (doomed : κ → Bool) : Except (Cache κ ε α) (Cache κ ε α × Nat) := do
  let dropped := c.entries.filter (doomed ·.key)
  let rest ← drop dropped c
  return ({ (c.invalidate doomed).1 with entries := rest.entries, weight := rest.weight }, dropped.length)

def clear (c : Cache κ ε α) : Except (Cache κ ε α) (Cache κ ε α × Nat) := invalidate c fun _ => true

end

end ConfigCompiler.Cache.Checked
