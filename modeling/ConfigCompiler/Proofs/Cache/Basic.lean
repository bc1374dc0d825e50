import ConfigCompiler.Cache.Basic

/-!
# What the operations of a cache do to slots and flights

Using and admitting entries leaves slots and flights alone; only `enter`, the two endings of a
flight and `invalidate` touch them. Here each of these says what becomes of a flight
(`getElem?_flights_*`) and which slots there are afterwards.
-/

namespace ConfigCompiler.Cache

variable {κ ε α : Type} [DecidableEq κ]

/-! ## Using and admitting entries -/

@[simp] theorem hit_slots (c : Cache κ ε α) (e : Entry κ α) : (c.hit e).slots = c.slots := rfl

@[simp] theorem hit_flights (c : Cache κ ε α) (e : Entry κ α) : (c.hit e).flights = c.flights := rfl

@[simp] theorem get_slots (c : Cache κ ε α) (key : κ) : (c.get key).1.slots = c.slots := by
  unfold get; split <;> rfl

@[simp] theorem get_flights (c : Cache κ ε α) (key : κ) : (c.get key).1.flights = c.flights := by
  unfold get; split <;> rfl

section
variable [HasWeight α]

@[simp] theorem insert_slots (c : Cache κ ε α) (key : κ) (v : α) :
    (c.insert key v).1.slots = c.slots := by
  unfold insert; split <;> rfl

@[simp] theorem insert_flights (c : Cache κ ε α) (key : κ) (v : α) :
    (c.insert key v).1.flights = c.flights := by
  unfold insert; split <;> rfl

end

/-! ## Entering -/

/-- A caller finds an entry, joins the flight of a slot, or takes off in a slot of its own. -/
theorem enter_cases (c : Cache κ ε α) (key : κ) :
    (∃ e, c.find? key = some e ∧ c.enter key = (c.hit e, .found e.value)) ∨
    (∃ f, c.find? key = none ∧ (key, f) ∈ c.slots ∧ c.enter key = (c, .join f)) ∨
    (c.find? key = none ∧ (∀ f, (key, f) ∉ c.slots) ∧
      c.enter key = ({ c with
        misses := c.misses + 1
        flights := c.flights.push .takeOff
        slots := (key, c.flights.size) :: c.slots }, .lead c.flights.size)) := by
  unfold enter
  cases hf : c.find? key with
  | some e => exact .inl ⟨e, rfl, rfl⟩
  | none =>
    cases hl : c.slots.lookup key with
    | some f =>
      obtain ⟨l₁, l₂, hs, -⟩ := List.lookup_eq_some_iff.1 hl
      exact .inr (.inl ⟨f, rfl, by simp [hs], rfl⟩)
    | none =>
      refine .inr (.inr ⟨rfl, fun f hm => ?_, rfl⟩)
      exact absurd (List.lookup_eq_none_iff.1 hl _ hm) (by simp)

/-! ## Ending a flight -/

omit [DecidableEq κ] in
/-- Ending flights leaves it open which of them are stale. -/
theorem isStale_modify {c c' : Cache κ ε α} {f g : Nat} (ended : Flight ε α → Flight ε α)
    (he : ∀ fl, (ended fl).stale = fl.stale) (hf : c'.flights = c.flights.modify g ended) :
    c'.isStale f = c.isStale f := by
  simp only [isStale, hf, Array.getElem?_modify]
  split <;> cases c.flights[f]? <;> simp [he]

/-- A flight without a slot has none to free. -/
theorem release_of_detached {c : Cache κ ε α} {key : κ} {f : Nat} (hs : (key, f) ∉ c.slots) :
    c.release key f = c := by
  unfold release
  rw [List.filter_eq_self.2]
  intro x hx
  have : x ≠ (key, f) := fun h => hs (h ▸ hx)
  simpa using this

section
variable [HasWeight α]

@[simp] theorem finish_slots (c : Cache κ ε α) (key : κ) (f : Nat) (r : Except ε α) :
    (c.finish key f r).1.slots = c.slots.filter (· ≠ (key, f)) := by
  unfold finish
  cases r with
  | error e => rfl
  | ok v =>
    dsimp only
    split <;> simp [release]

@[simp] theorem finish_flights (c : Cache κ ε α) (key : κ) (f : Nat) (r : Except ε α) :
    (c.finish key f r).1.flights = c.flights.modify f (·.land r) := by
  unfold finish
  cases r with
  | error e => rfl
  | ok v =>
    dsimp only
    split <;> simp [release]

/-- A stale flight that owns no slot lands without a trace in the rest of the cache. -/
theorem finish_of_detached {c : Cache κ ε α} {key : κ} {f : Nat} (r : Except ε α)
    (hs : (key, f) ∉ c.slots) (hst : c.isStale f = true) :
    (c.finish key f r).1 = { c with flights := c.flights.modify f (·.land r) } := by
  unfold finish
  rw [release_of_detached hs]
  cases r with
  | error e => rfl
  | ok v => simp [hst]

/-- The payload of a stale flight is not admitted. -/
theorem finish_of_stale {c : Cache κ ε α} {key : κ} {f : Nat} (v : α)
    (hst : c.isStale f = true) :
    c.finish key f (.ok v) =
      ({ c.release key f with flights := c.flights.modify f (·.land (.ok v)) }, [v]) := by
  have : (c.release key f).isStale f = true := hst
  simp only [finish, this, if_true]
  rfl

/-- Slots do not count for what is admitted. -/
theorem insert_release (c : Cache κ ε α) (key : κ) (f : Nat) (v : α) :
    ((c.release key f).insert key v).1.entries = (c.insert key v).1.entries ∧
      ((c.release key f).insert key v).1.weight = (c.insert key v).1.weight := by
  simp only [insert, find?, release]
  split <;> exact ⟨rfl, rfl⟩

/-- A payload of a flight that is not stale is admitted as `insert` would admit it. -/
theorem finish_of_fresh {c : Cache κ ε α} {key : κ} {f : Nat} (v : α)
    (hst : c.isStale f = false) :
    c.finish key f (.ok v) =
      ({ ((c.release key f).insert key v).1 with
          flights := ((c.release key f).insert key v).1.flights.modify f (·.land (.ok v)) },
        ((c.release key f).insert key v).2) := by
  have : (c.release key f).isStale f = false := hst
  simp [finish, this]

end

theorem unwind_of_detached {c : Cache κ ε α} {key : κ} {f : Nat} (hs : (key, f) ∉ c.slots) :
    c.unwind key f = { c with flights := c.flights.modify f Flight.abandon } := by
  simp [unwind, release_of_detached hs]

/-! ## Invalidation -/

omit [DecidableEq κ] in
theorem getElem?_foldl_markStale (detached : List (κ × Nat)) (flights : Array (Flight ε α))
    (f : Nat) :
    (detached.foldl (fun fs slot => fs.modify slot.2 Flight.markStale) flights)[f]? =
      flights[f]?.map fun fl => if f ∈ detached.map Prod.snd then fl.markStale else fl := by
  induction detached generalizing flights with
  | nil => simp
  | cons slot detached ih =>
    rw [List.foldl_cons, ih, Array.getElem?_modify]
    by_cases hf : slot.2 = f
    · subst hf
      cases flights[slot.2]? <;> simp [Flight.markStale]
    · simp only [if_neg hf, List.map_cons, List.mem_cons, Ne.symm hf, false_or]

omit [DecidableEq κ] in
theorem invalidate_entries (c : Cache κ ε α) (doomed : κ → Bool) :
    (c.invalidate doomed).1.entries = c.entries.filter (!doomed ·.key) := by
  simp only [invalidate, List.partition_eq_filter_filter]
  rfl

omit [DecidableEq κ] in
/-- An invalidation drops the payloads of the keys that match. -/
theorem invalidate_dropped (c : Cache κ ε α) (doomed : κ → Bool) :
    (c.invalidate doomed).2 = (c.entries.filter (doomed ·.key)).map Entry.value := by
  simp only [invalidate, List.partition_eq_filter_filter]

omit [DecidableEq κ] in
@[simp] theorem invalidate_slots (c : Cache κ ε α) (doomed : κ → Bool) :
    (c.invalidate doomed).1.slots = c.slots.filter (!doomed ·.1) := by
  simp [invalidate, List.partition_eq_filter_filter, Function.comp_def]

omit [DecidableEq κ] in
/-- The flights of doomed slots are marked, the others are as they were. -/
theorem getElem?_invalidate_flights (c : Cache κ ε α) (doomed : κ → Bool) (f : Nat) :
    (c.invalidate doomed).1.flights[f]? = c.flights[f]?.map fun fl =>
      if f ∈ (c.slots.filter (doomed ·.1)).map Prod.snd then fl.markStale else fl := by
  simp only [invalidate, List.partition_eq_filter_filter, getElem?_foldl_markStale]

end ConfigCompiler.Cache
