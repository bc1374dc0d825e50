import ConfigCompiler.Proofs.Cache.Growth
import ConfigCompiler.Proofs.Cache.Admission

/-!
# What the counters of a cache count

`tally` says what a run has come to without looking at the counters: how many times `get` found an entry, which
calls have been served and by what, and how many payloads came in for keys that had no entry. Two laws hold in
every run (`counters_conserved`). Each call is served once: a hit, a miss or a payload of another caller's
production, unless it times out (`Served`, `Served.step`, `counters_step`). And each payload that came in for a
new key is still there, or was evicted, or invalidated (`stock`, `stock_step`).
-/

namespace ConfigCompiler.Cache

variable {κ ε α : Type}

/-! ## Entries that are there or are gone -/

/-- The entries that there are, were evicted, and were invalidated. -/
def stock (c : Cache κ ε α) : Nat := c.size + c.evictions + c.invalidations

theorem stock_invalidate (c : Cache κ ε α) (doomed : κ → Bool) : (c.invalidate doomed).1.stock = c.stock := by
  have hsplit := (List.filter_append_perm (fun e : Entry κ α => doomed e.key) c.entries).length_eq
  rw [List.length_append] at hsplit
  simp only [stock, size, invalidate, List.partition_eq_filter_filter, Function.comp_def]
  omega

section
variable [DecidableEq κ] {c : Cache κ ε α}

theorem stock_hit (h : Weighed c) {e : Entry κ α} (he : e ∈ c.entries) : (c.hit e).stock = c.stock := by
  have hsize : (c.hit e).size = c.size := (cons_without_perm h.keys_nodup he).length_eq
  rw [stock, hsize]
  rfl

/-- Leaving out the entry of a key makes room for one, if there was any. -/
theorem length_without (h : Weighed c) (key : κ) :
    (without c.entries key).length + (if c.contains key then 1 else 0) = c.size := by
  cases hf : c.find? key with
  | none =>
    rw [without_of_find?_eq_none hf]
    simp [contains, hf, size]
  | some e =>
    obtain ⟨he, rfl⟩ := find?_eq_some hf
    have hlength := (cons_without_perm h.keys_nodup he).length_eq
    rw [List.length_cons] at hlength
    simpa [contains, hf, size] using hlength

variable [HasWeight α]

/-- An admission changes nothing but entries, their weight, and how many have been evicted. -/
theorem insert_changes (c : Cache κ ε α) (key : κ) (v : α) :
    ∃ entries weight evictions, (c.insert key v).1 = { c with entries, weight, evictions } := by
  unfold insert
  split
  · exact ⟨_, _, _, rfl⟩
  · exact ⟨_, _, _, rfl⟩

theorem finish_changes (c : Cache κ ε α) (key : κ) (f : Nat) (r : Except ε α) :
    ∃ entries weight evictions, (c.finish key f r).1 =
      { c with
        entries, weight, evictions
        slots := c.slots.filter (· ≠ (key, f))
        flights := c.flights.modify f (·.land r) } := by
  cases r with
  | error e => exact ⟨_, _, _, rfl⟩
  | ok v =>
    cases hst : c.isStale f with
    | true =>
      rw [finish_of_stale v hst]
      exact ⟨_, _, _, rfl⟩
    | false =>
      rw [finish_of_fresh v hst]
      obtain ⟨entries, weight, evictions, heq⟩ := insert_changes (c.release key f) key v
      rw [heq]
      exact ⟨_, _, _, rfl⟩

/-- The number of entries that an admission adds: none for a payload that is too heavy, or replaces another. -/
def newcomers (c : Cache κ ε α) (key : κ) (v : α) : Nat :=
  if c.capacity.TooHeavy v ∨ c.contains key = true then 0 else 1

/-- What is dropped by an admission that is not refused is evicted. -/
theorem size_insert (key : κ) {v : α} (hv : ¬ c.capacity.TooHeavy v) :
    (c.insert key v).1.size + (c.insert key v).1.evictions =
      (without c.entries key).length + 1 + c.evictions := by
  have hall := congrArg List.length (evict_append c.capacity
    (⟨key, v, c.capacity.weightOf v⟩ :: without c.entries key).reverse
    (c.weight - (c.find? key).elim 0 Entry.weight + c.capacity.weightOf v))
  rw [List.length_append, List.length_reverse, List.length_cons] at hall
  simp only [insert, admittedWeight_of_not_tooHeavy hv, size, List.length_reverse]
  generalize evict c.capacity _ _ = r at hall ⊢
  obtain ⟨kept, total, dropped⟩ := r
  dsimp only at hall ⊢
  omega

theorem stock_insert (h : Weighed c) (key : κ) (v : α) :
    (c.insert key v).1.stock = c.stock + c.newcomers key v := by
  rw [newcomers]
  by_cases hv : c.capacity.TooHeavy v
  · rw [insert_of_tooHeavy hv, if_pos (.inl hv), Nat.add_zero]
  · have hroom := length_without h key
    have hsize := size_insert key hv
    obtain ⟨entries, weight, evictions, heq⟩ := insert_changes c key v
    have hinvalidations : (c.insert key v).1.invalidations = c.invalidations := by rw [heq]
    simp only [stock, hinvalidations, hv, false_or]
    split at hroom
    · rename_i hc
      rw [if_pos hc]
      simp only [size] at hroom hsize ⊢
      omega
    · rename_i hc
      rw [if_neg hc]
      simp only [size] at hroom hsize ⊢
      omega

theorem stock_finish (h : Weighed c) (key : κ) (f : Nat) (v : α) :
    (c.finish key f (.ok v)).1.stock = c.stock + if c.isStale f then 0 else c.newcomers key v := by
  cases hst : c.isStale f with
  | true =>
    rw [finish_of_stale v hst]
    rfl
  | false =>
    rw [finish_of_fresh v hst]
    exact stock_insert (c := c.release key f) (h.congr rfl rfl) key v

end

/-- Whether a call leads, or is over without having timed out. -/
def Call.isServed : Call κ ε α → Bool
  | .asking _ _ => false
  | .waiting _ _ _ => false
  | .done (.error .waitTimedOut) => false
  | _ => true

theorem isServed_done (r : Except ε α) : (Call.done (κ := κ) (r.mapError CacheError.producer)).isServed = true := by
  cases r <;> rfl

namespace Shared

/-! ## Calls that are served -/

/-- By what a call is served. -/
inductive Service where
  /-- An entry. -/
  | entry
  /-- Its own production. -/
  | own
  /-- Another caller's production. -/
  | shared
  deriving DecidableEq

/--
The call that is served by an event which leads to `s'`: one that asks and finds an entry or leads, or one that
wakes to a result.
-/
def serves (e : Event κ ε α) (s' : Shared κ ε α) : Option (Nat × Service) :=
  match e with
  | .ask i =>
    match s'.calls[i]? with
    | some (.done _) => some (i, .entry)
    | some (.leading _ _) => some (i, .own)
    | _ => none
  | .wake i =>
    match s'.calls[i]? with
    | some (.done _) => some (i, .shared)
    | _ => none
  | _ => none

/-- Call `i` has been served. -/
def isServed (s : Shared κ ε α) (i : Nat) : Bool := s.calls[i]?.any Call.isServed

/-- What a step does to who has been served: nothing, or one call is served that was not. -/
inductive Serving (s : Shared κ ε α) (e : Event κ ε α) (s' : Shared κ ε α) : Prop
  | nobody : serves e s' = none → (∀ j, s'.isServed j = s.isServed j) → Serving s e s'
  | call (i : Nat) (how : Service) : serves e s' = some (i, how) → s.isServed i = false →
      (∀ j, s'.isServed j = (j == i || s.isServed j)) → Serving s e s'

theorem isServed_set {s : Shared κ ε α} {i : Nat} {c : Call κ ε α} (hi : s.calls[i]? = some c) (c' : Call κ ε α)
    (cache : Cache κ ε α) (j : Nat) :
    (⟨cache, s.calls.set i c'⟩ : Shared κ ε α).isServed j = if i = j then c'.isServed else s.isServed j := by
  simp only [isServed, getElem?_set_call hi]
  split <;> rfl

theorem isServed_of_getElem? {s : Shared κ ε α} {i : Nat} {c : Call κ ε α} (hi : s.calls[i]? = some c) :
    s.isServed i = c.isServed := by rw [isServed, hi, Option.any_some]

section
variable {s : Shared κ ε α} {e : Event κ ε α} {i : Nat} {c c' : Call κ ε α} {cache : Cache κ ε α}

theorem Serving.same (hi : s.calls[i]? = some c) (hc : c'.isServed = c.isServed)
    (he : serves e (⟨cache, s.calls.set i c'⟩ : Shared κ ε α) = none) : Serving s e ⟨cache, s.calls.set i c'⟩ := by
  refine .nobody he fun j => ?_
  rw [isServed_set hi]
  split
  · rename_i hij
    subst hij
    rw [hc, isServed_of_getElem? hi]
  · rfl

theorem Serving.served (how : Service) (hi : s.calls[i]? = some c) (hc : c.isServed = false)
    (hc' : c'.isServed = true) (he : serves e (⟨cache, s.calls.set i c'⟩ : Shared κ ε α) = some (i, how)) :
    Serving s e ⟨cache, s.calls.set i c'⟩ := by
  refine .call i how he ((isServed_of_getElem? hi).trans hc) fun j => ?_
  rw [isServed_set hi]
  split
  · rename_i hij
    simp [hc', hij]
  · rename_i hij
    simp [Ne.symm hij]

end

section
variable [DecidableEq κ] [HasWeight α] {s s' : Shared κ ε α} {ps : List (Production κ ε α)}
variable {log : List (Nat × Service)}

theorem serving_of_step {e : Event κ ε α} (hs : s.step e = some s') : Serving s e s' := by
  cases e with
  | get key => cases hs; exact .nobody rfl fun _ => rfl
  | insert key v => cases hs; exact .nobody rfl fun _ => rfl
  | invalidate doomed => cases hs; exact .nobody rfl fun _ => rfl
  | call key d =>
    cases hs
    refine .nobody rfl fun j => ?_
    rcases Nat.lt_trichotomy j s.calls.length with hlt | rfl | hlt
    · simp only [isServed, List.getElem?_append_left hlt]
    · simp [isServed, Call.isServed]
    · simp [isServed, List.getElem?_append_right (Nat.le_of_lt hlt), Nat.le_of_lt hlt,
        Nat.sub_ne_zero_of_lt hlt]
  | ask i =>
    obtain ⟨key, d, hi, rfl⟩ := step_ask hs
    have hset (c : Call κ ε α) : (s.calls.set i c)[i]? = some c := (getElem?_set_call hi c i).trans (if_pos rfl)
    rcases enter_cases s.cache key with ⟨x, -, he⟩ | ⟨f, -, -, he⟩ | ⟨-, -, he⟩ <;> rw [he]
    · exact .served .entry hi rfl rfl (by simp only [serves, entered, hset])
    · exact .same hi rfl (by simp only [serves, entered, hset])
    · exact .served .own hi rfl rfl (by simp only [serves, entered, hset])
  | finish i r =>
    obtain ⟨key, f, hi, rfl⟩ := step_finish hs
    exact .same hi (isServed_done r) rfl
  | unwind i =>
    obtain ⟨key, f, hi, rfl⟩ := step_unwind hs
    exact .same hi rfl rfl
  | wake i =>
    obtain ⟨key, f, d, hi, ⟨r, -, rfl⟩ | ⟨-, rfl⟩⟩ := step_wake hs
    · refine .served .shared hi rfl (isServed_done r) ?_
      simp only [serves, getElem?_set_call hi, if_true]
    · refine .same hi rfl ?_
      simp only [serves, getElem?_set_call hi, if_true]
  | timeOut i =>
    obtain ⟨key, f, d, hi, -, rfl⟩ := step_timeOut hs
    exact .same hi rfl rfl

/-! ## What a run has come to -/

/-- Which calls have been served, and by what, told from the calls and the productions. -/
structure Served (s : Shared κ ε α) (ps : List (Production κ ε α)) (log : List (Nat × Service)) : Prop where
  nodup : (log.map Prod.fst).Nodup
  mem_iff : ∀ {i}, i ∈ log.map Prod.fst ↔ s.isServed i = true
  own : ∀ {i}, (i, .own) ∈ log ↔ ∃ p ∈ ps, p.caller = i
  entry : ∀ {i}, (i, .entry) ∈ log → ∃ v, s.calls[i]? = some (.done (.ok v))
  shared : ∀ {i}, (i, .shared) ∈ log → ∃ p ∈ ps, ∃ r, p.caller ≠ i ∧ p.landing = .landed r ∧
    s.calls[i]? = some (.done (r.mapError .producer))

omit [DecidableEq κ] [HasWeight α] in
theorem Served.start (capacity : Capacity) : Served (start capacity : Shared κ ε α) [] [] := by
  constructor <;> simp [isServed, Shared.start]

omit [DecidableEq κ] [HasWeight α] in
/-- The production that begins is that of a call which is served by its own production. -/
theorem caller_of_begun {e : Event κ ε α} {i : Nat} :
    (∃ p ∈ begun e s', p.caller = i) ↔ serves e s' = some (i, .own) := by
  cases e with
  | ask j =>
    simp only [begun, serves]
    cases s'.calls[j]? with
    | none => simp
    | some c => cases c <;> simp
  | wake j =>
    simp only [begun, serves]
    cases s'.calls[j]? with
    | none => simp
    | some c => cases c <;> simp
  | _ => simp [begun, serves]

omit [DecidableEq κ] [HasWeight α] in
theorem caller_after (e : Event κ ε α) (p : Production κ ε α) : (p.after e).caller = p.caller := by
  cases e <;> simp only [Production.after] <;> split <;> rfl

/-- No later event changes how a production has ended. -/
theorem Told.landing_after (h : Told s ps) {p : Production κ ε α} (hp : p ∈ ps) {r : Except ε α}
    (hr : p.landing = .landed r) {e : Event κ ε α} (hs : s.step e = some s') : (p.after e).landing = .landed r := by
  have hover : s.calls[p.caller]? = some (.done (r.mapError .producer)) := by
    have hcall := h.called hp
    rwa [Production.call, hr] at hcall
  cases e <;> simp only [Production.after, hr]
  case finish i r' =>
    obtain ⟨key, f, hi, -⟩ := step_finish hs
    split
    · rename_i hpi
      rw [hpi, hi] at hover
      cases hover
    · exact hr
  case unwind i =>
    obtain ⟨key, f, hi, -⟩ := step_unwind hs
    split
    · rename_i hpi
      rw [hpi, hi] at hover
      cases hover
    · exact hr
  case invalidate doomed =>
    split
    · rfl
    · exact hr

/-- Who is served by an entry when it asks returns its payload. -/
theorem done_of_entry {e : Event κ ε α} (hs : s.step e = some s') {i : Nat} (hi : serves e s' = some (i, .entry)) :
    ∃ v, s'.calls[i]? = some (.done (.ok v)) := by
  cases e <;> simp only [serves, reduceCtorEq] at hi
  case ask j =>
    obtain ⟨key, d, hj, rfl⟩ := step_ask hs
    have hset (c : Call κ ε α) : (s.calls.set j c)[j]? = some c := (getElem?_set_call hj c j).trans (if_pos rfl)
    rcases enter_cases s.cache key with ⟨x, -, he⟩ | ⟨f, -, -, he⟩ | ⟨-, -, he⟩ <;>
      simp only [he, entered, hset, reduceCtorEq, Option.some.injEq, Prod.mk.injEq] at hi
    · obtain ⟨rfl, -⟩ := hi
      rw [he]
      exact ⟨x.value, hset _⟩
    · cases hi.2
  case wake j =>
    split at hi <;> cases hi

/-- Who is served by another caller's production has waited for it and returns what it has ended with. -/
theorem Told.landed_of_shared (h : Told s ps) {e : Event κ ε α} (hs : s.step e = some s') {i : Nat}
    (hi : serves e s' = some (i, .shared)) : ∃ p ∈ record e s' ps, ∃ r, p.caller ≠ i ∧ p.landing = .landed r ∧
      s'.calls[i]? = some (.done (r.mapError .producer)) := by
  cases e <;> simp only [serves, reduceCtorEq] at hi
  case ask j =>
    split at hi <;> cases hi
  case wake j =>
    obtain ⟨key, f, d, hj, ⟨r, hl, rfl⟩ | ⟨-, rfl⟩⟩ := step_wake hs <;>
      simp only [getElem?_set_call hj, if_true, reduceCtorEq, Option.some.injEq, Prod.mk.injEq, and_true] at hi
    subst hi
    obtain ⟨p, hp, rfl, rfl⟩ := h.waited hj
    refine ⟨p, ?_, r, fun hcaller => ?_, (h.landing_eq hp).symm.trans hl, ?_⟩
    · rw [record_eq_self rfl fun _ => rfl]
      exact hp
    · have hcall := h.called hp
      rw [hcaller, hj] at hcall
      exact p.call_ne_waiting _ _ _ (Option.some.inj hcall).symm
    · rw [getElem?_set_call hj, if_pos rfl]

theorem Served.step (h : Served s ps log) (hT : Told s ps) {e : Event κ ε α}
    (hs : s.step e = some s') : Served s' (record e s' ps) ((serves e s').toList ++ log) where
  nodup := by
    rcases serving_of_step hs with ⟨he, -⟩ | ⟨i, how, he, hnew, -⟩ <;> rw [he]
    · exact h.nodup
    · refine List.nodup_cons.2 ⟨fun hi => ?_, h.nodup⟩
      exact absurd (h.mem_iff.1 hi) (by simp [hnew])
  mem_iff {j} := by
    rcases serving_of_step hs with ⟨he, hsame⟩ | ⟨i, how, he, -, hsame⟩ <;> rw [he, hsame]
    · exact h.mem_iff
    · rw [Option.toList_some, List.singleton_append, List.map_cons, List.mem_cons, h.mem_iff]
      simp
  own {i} := by
    simp only [record, List.mem_append, Option.mem_toList, or_and_right, exists_or, caller_of_begun, h.own,
      List.mem_map, exists_exists_and_eq_and, caller_after]
  entry {i} hi := by
    rcases List.mem_append.1 hi with hi | hi
    · exact done_of_entry hs (Option.mem_toList.1 hi)
    · obtain ⟨v, hc⟩ := h.entry hi
      exact ⟨v, step_done hs hc⟩
  shared {i} hi := by
    rcases List.mem_append.1 hi with hi | hi
    · exact hT.landed_of_shared hs (Option.mem_toList.1 hi)
    · obtain ⟨p, hp, r, hne, hr, hc⟩ := h.shared hi
      refine ⟨p.after e, List.mem_append_right _ (List.mem_map_of_mem hp), r, ?_, hT.landing_after hp hr hs,
        step_done hs hc⟩
      rw [caller_after]
      exact hne

/-! ## What a run has come to -/

/-- How many entries a `get` finds. -/
def finds (s : Shared κ ε α) : Event κ ε α → Nat
  | .get key => if s.cache.contains key then 1 else 0
  | _ => 0

/-- How many entries an event adds. -/
def adds (s : Shared κ ε α) (ps : List (Production κ ε α)) (e : Event κ ε α) : Nat :=
  match operation s ps e with
  | some (.put key v) => s.cache.newcomers key v
  | _ => 0

/-- The number of calls in a log that were served in one way. -/
def times (how : Service) (log : List (Nat × Service)) : Nat := log.countP (·.2 = how)

theorem counters_step {e : Event κ ε α} (hs : s.step e = some s') :
    s'.cache.hits = s.cache.hits + finds s e + times .entry (serves e s').toList ∧
      s'.cache.misses = s.cache.misses + (begun e s').length ∧
      s'.cache.coalesced = s.cache.coalesced + times .shared (serves e s').toList := by
  cases e with
  | get key =>
    cases hs
    rcases get_cases s.cache key with ⟨x, hx, hg⟩ | ⟨hx, hg⟩ <;> rw [hg]
    · simp [finds, contains, hx, hit, serves, begun, times]
    · simp [finds, contains, hx, serves, begun, times]
  | insert key v =>
    cases hs
    obtain ⟨entries, weight, evictions, heq⟩ := insert_changes s.cache key v
    rw [heq]
    exact ⟨rfl, rfl, rfl⟩
  | invalidate doomed => cases hs; exact ⟨rfl, rfl, rfl⟩
  | call key d => cases hs; exact ⟨rfl, rfl, rfl⟩
  | ask i =>
    obtain ⟨key, d, hi, rfl⟩ := step_ask hs
    have hset (c : Call κ ε α) : (s.calls.set i c)[i]? = some c := (getElem?_set_call hi c i).trans (if_pos rfl)
    rcases enter_cases s.cache key with ⟨x, -, he⟩ | ⟨f, -, -, he⟩ | ⟨-, -, he⟩ <;> rw [he]
    · simp [finds, hit, serves, begun, entered, hset, times]
    · simp [finds, serves, begun, entered, hset, times]
    · simp [finds, serves, begun, entered, hset, times]
  | finish i r =>
    obtain ⟨key, f, -, rfl⟩ := step_finish hs
    obtain ⟨entries, weight, evictions, heq⟩ := finish_changes s.cache key f r
    rw [heq]
    exact ⟨rfl, rfl, rfl⟩
  | unwind i =>
    obtain ⟨key, f, -, rfl⟩ := step_unwind hs
    exact ⟨rfl, rfl, rfl⟩
  | wake i =>
    obtain ⟨key, f, d, hi, ⟨r, -, rfl⟩ | ⟨-, rfl⟩⟩ := step_wake hs
    · simp [finds, serves, begun, coalesce, getElem?_set_call hi, times]
    · simp [finds, serves, begun, getElem?_set_call hi, times]
  | timeOut i =>
    obtain ⟨key, f, d, -, -, rfl⟩ := step_timeOut hs
    exact ⟨rfl, rfl, rfl⟩

omit [DecidableEq κ] [HasWeight α] in
theorem times_own (e : Event κ ε α) (s' : Shared κ ε α) :
    times .own (serves e s').toList = (begun e s').length := by
  cases e with
  | ask i =>
    simp only [serves, begun]
    cases s'.calls[i]? with
    | none => rfl
    | some c => cases c <;> simp [times]
  | wake i =>
    simp only [serves, begun]
    cases s'.calls[i]? with
    | none => rfl
    | some c => cases c <;> simp [times]
  | _ => rfl

theorem stock_step (hw : Weighed s.cache) (hT : Told s ps) (hI : Inv s) {e : Event κ ε α}
    (hs : s.step e = some s') : s'.cache.stock = s.cache.stock + adds s ps e := by
  cases e with
  | get key =>
    cases hs
    rcases get_cases s.cache key with ⟨x, hx, hg⟩ | ⟨-, hg⟩ <;> rw [hg]
    · exact stock_hit hw (find?_eq_some hx).1
    · rfl
  | insert key v => cases hs; exact stock_insert hw key v
  | invalidate doomed => cases hs; exact stock_invalidate s.cache doomed
  | call key d => cases hs; rfl
  | ask i =>
    obtain ⟨key, d, hi, rfl⟩ := step_ask hs
    have hadds : adds s ps (.ask i) = 0 := by simp only [adds, operation, hi]
    rw [hadds]
    rcases enter_cases s.cache key with ⟨x, hx, he⟩ | ⟨f, -, -, he⟩ | ⟨-, -, he⟩ <;> rw [he]
    · exact stock_hit hw (find?_eq_some hx).1
    · rfl
    · rfl
  | finish i r =>
    obtain ⟨key, f, hi, rfl⟩ := step_finish hs
    cases r with
    | error err => rfl
    | ok v =>
      obtain ⟨p, hp, rfl, rfl, rfl, hr⟩ := hT.leading hi
      have hadds : adds s ps (.finish p.caller (.ok v)) =
          if s.cache.isStale p.flight then 0 else s.cache.newcomers p.key v := by
        simp only [adds, operation, hT.find?_caller hp, hT.isStale_eq hI hp hr]
        cases p.invalidated <;> rfl
      rw [hadds]
      exact stock_finish hw p.key p.flight v
  | unwind i =>
    obtain ⟨key, f, -, rfl⟩ := step_unwind hs
    rfl
  | wake i =>
    obtain ⟨key, f, d, -, ⟨r, -, rfl⟩ | ⟨-, rfl⟩⟩ := step_wake hs <;> rfl
  | timeOut i =>
    obtain ⟨key, f, d, -, -, rfl⟩ := step_timeOut hs
    rfl

structure Tally where
  /-- How many times a `get` has found an entry. -/
  gets : Nat
  /-- The calls that have been served, and by what. -/
  log : List (Nat × Service)
  /-- How many payloads have been admitted for keys that had no entry then. -/
  newcomers : Nat

/-- What a run from `s` on has come to, with what there was before it. -/
def tally : Shared κ ε α → List (Production κ ε α) → Tally → List (Event κ ε α) → Tally
  | _, _, t, [] => t
  | s, ps, t, e :: es =>
    match s.step e with
    | none => t
    | some s' =>
      tally s' (record e s' ps)
        ⟨t.gets + finds s e, (serves e s').toList ++ t.log, t.newcomers + adds s ps e⟩ es

/-- The counters of a cache tell what its run has come to. -/
structure Conserved (s : Shared κ ε α) (ps : List (Production κ ε α)) (t : Tally) : Prop where
  /-- The calls that have been served, each once: all that lead, or are over without having timed out. -/
  served : Served s ps t.log
  hits : s.cache.hits = t.gets + times .entry t.log
  misses : s.cache.misses = ps.length
  own : times .own t.log = ps.length
  coalesced : s.cache.coalesced = times .shared t.log
  /-- Each payload that came in for a new key is there, or was evicted or invalidated. -/
  newcomers : t.newcomers = s.cache.size + s.cache.evictions + s.cache.invalidations

omit [DecidableEq κ] [HasWeight α] in
theorem times_append (how : Service) (log log' : List (Nat × Service)) :
    times how (log ++ log') = times how log + times how log' := List.countP_append

theorem Conserved.step {t : Tally} (h : Conserved s ps t) (hw : Weighed s.cache) (hT : Told s ps) (hI : Inv s)
    {e : Event κ ε α} (hs : s.step e = some s') : Conserved s' (record e s' ps)
      ⟨t.gets + finds s e, (serves e s').toList ++ t.log, t.newcomers + adds s ps e⟩ := by
  obtain ⟨hhits, hmisses, hcoalesced⟩ := counters_step hs
  have hlength : (record e s' ps).length = ps.length + (begun e s').length := by
    rw [record, List.length_append, List.length_map, Nat.add_comm]
  refine ⟨h.served.step hT hs, ?_, ?_, ?_, ?_, ?_⟩
  · rw [hhits, h.hits, times_append]
    dsimp only
    omega
  · rw [hmisses, h.misses, hlength]
  · rw [times_append, times_own, h.own, hlength, Nat.add_comm]
  · rw [hcoalesced, h.coalesced, times_append, Nat.add_comm]
  · exact (congrArg (· + adds s ps e) h.newcomers).trans (stock_step hw hT hI hs).symm

theorem Conserved.run {t : Tally} (h : Conserved s ps t) (hw : Weighed s.cache) (hT : Told s ps) (hI : Inv s)
    {es : List (Event κ ε α)} (hs : s.run es = some s') :
    Conserved s' (productions s ps es) (tally s ps t es) := by
  induction es generalizing s ps t with
  | nil => cases hs; exact h
  | cons e es ih =>
    obtain ⟨s₁, h₁, h₂⟩ := Option.bind_eq_some_iff.1 (run_cons s e es ▸ hs)
    simp only [productions, tally, h₁]
    exact ih (h.step hw hT hI h₁) (weighed_step hw h₁).1 (hT.step hI h₁) (hI.step h₁) h₂

/--
In every run, the misses are the productions, the coalesced calls are those that returned what another caller's
production had ended with, and the hits are the gets and calls that found an entry; each call that leads, or is
over without having timed out, is counted once in one of the three. The payloads admitted for keys without an
entry are those that are cached, were evicted, or were invalidated.
-/
theorem counters_conserved {capacity : Capacity} {es : List (Event κ ε α)}
    (hs : (start capacity).run es = some s) :
    Conserved s (productions (start capacity) [] es) (tally (start capacity) [] ⟨0, [], 0⟩ es) := by
  have hempty : Conserved (start capacity : Shared κ ε α) [] ⟨0, [], 0⟩ :=
    ⟨.start capacity, rfl, rfl, rfl, rfl, rfl⟩
  exact hempty.run (.empty capacity) (.start capacity) (.start capacity) hs

/-- One call leads, one shares its payload, one times out, and one finds the entry before it is evicted. -/
theorem counters_conserved_all : ∃ s : Shared Nat String Script.Item,
    (start (.entries 1)).run [.call 0 none, .ask 0, .call 0 none, .ask 1, .call 0 (some .distant), .ask 2,
      .timeOut 2, .finish 0 (.ok ⟨7, 1⟩), .wake 1, .get 0, .call 0 none, .ask 3, .insert 1 ⟨8, 1⟩,
      .invalidate (· == 1)] = some s ∧
    Conserved s [⟨0, 0, 0, false, .landed (.ok ⟨7, 1⟩)⟩] ⟨1, [(3, .entry), (1, .shared), (0, .own)], 2⟩ ∧
    s.cache.hits = 2 ∧ s.cache.coalesced = 1 ∧ s.cache.evictions = 1 ∧ s.cache.invalidations = 1 := by
  have hs : (start (.entries 1) : Shared Nat String Script.Item).run [.call 0 none, .ask 0, .call 0 none, .ask 1,
      .call 0 (some .distant), .ask 2, .timeOut 2, .finish 0 (.ok ⟨7, 1⟩), .wake 1, .get 0, .call 0 none,
      .ask 3, .insert 1 ⟨8, 1⟩, .invalidate (· == 1)] = some _ := rfl
  exact ⟨_, rfl, counters_conserved hs, rfl, rfl, rfl, rfl⟩

end

end Shared

end ConfigCompiler.Cache
