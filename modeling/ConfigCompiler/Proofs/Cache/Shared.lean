import ConfigCompiler.Cache.Deadline
import ConfigCompiler.Cache.Error
import ConfigCompiler.Proofs.Cache.Basic

/-!
# A cache and those who call it

`Shared.step` lets any number of callers use one cache in any order: a caller asks, waits or leads,
and the producer of a leader may itself call meanwhile, so that calls nest. Each event is one atomic
step of the functions that the cache runs.

`Shared.Inv` ties flights to calls: a slot belongs to the flight of a leader (`slot_led`), a leader's
flight is running, and it is stale just when it owns no slot (`led_flight`). Every step keeps it
(`Inv.step`), so it holds in every run (`Inv.run`); and a flight that has ended stays as it ended
(`step_ended`).
-/

namespace ConfigCompiler.Cache

/-- How far a call for a payload that may have to be produced has come. -/
inductive Call (κ ε α : Type) where
  /-- It is about to look for an entry or a slot. -/
  | asking (key : κ) (deadline? : Option Deadline)
  | waiting (key : κ) (flight : Nat) (deadline? : Option Deadline)
  /-- Its own producer is running. -/
  | leading (key : κ) (flight : Nat)
  | done (result : Except (CacheError ε) α)
  /-- Its own producer unwound. -/
  | unwound

/-- The flight that a call leads or waits for. -/
def Call.flight? {κ ε α : Type} : Call κ ε α → Option Nat
  | .waiting _ f _ => some f
  | .leading _ f => some f
  | _ => none

inductive Event (κ ε α : Type) where
  | get (key : κ)
  | insert (key : κ) (value : α)
  | invalidate (doomed : κ → Bool)
  /-- A caller comes; it has not asked yet. -/
  | call (key : κ) (deadline? : Option Deadline)
  /-- Call `i` finds an entry, joins a flight, or becomes a leader. -/
  | ask (i : Nat)
  /-- The producer of call `i` ends with a result. -/
  | finish (i : Nat) (result : Except ε α)
  /-- The producer of call `i` unwinds. -/
  | unwind (i : Nat)
  /-- Call `i` sees that the flight it waits for has ended. -/
  | wake (i : Nat)
  /-- Call `i` gives up waiting. -/
  | timeOut (i : Nat)

/-- The call that an event is a step of. -/
def Event.caller? {κ ε α : Type} : Event κ ε α → Option Nat
  | .ask i => some i
  | .finish i _ => some i
  | .unwind i => some i
  | .wake i => some i
  | .timeOut i => some i
  | _ => none

structure Shared (κ ε α : Type) where
  cache : Cache κ ε α
  /-- All calls so far, the first one first. -/
  calls : List (Call κ ε α)

namespace Shared

variable {κ ε α : Type}

def start (capacity : Capacity) : Shared κ ε α := ⟨.empty capacity, []⟩

/-- What a call becomes that has asked. -/
def entered (key : κ) (deadline? : Option Deadline) : Entrance α → Call κ ε α
  | .found v => .done (.ok v)
  | .join f => .waiting key f deadline?
  | .lead f => .leading key f

section
variable [DecidableEq κ] [HasWeight α]

/-- One event; `none` if it cannot happen now. -/
def step (s : Shared κ ε α) : Event κ ε α → Option (Shared κ ε α)
  | .get key => some { s with cache := (s.cache.get key).1 }
  | .insert key v => some { s with cache := (s.cache.insert key v).1 }
  | .invalidate doomed => some { s with cache := (s.cache.invalidate doomed).1 }
  | .call key deadline? => some { s with calls := s.calls ++ [.asking key deadline?] }
  | .ask i =>
    match s.calls[i]? with
    | some (.asking key deadline?) =>
      some ⟨(s.cache.enter key).1, s.calls.set i (entered key deadline? (s.cache.enter key).2)⟩
    | _ => none
  | .finish i r =>
    match s.calls[i]? with
    | some (.leading key f) =>
      some ⟨(s.cache.finish key f r).1, s.calls.set i (.done (r.mapError .producer))⟩
    | _ => none
  | .unwind i =>
    match s.calls[i]? with
    | some (.leading key f) => some ⟨s.cache.unwind key f, s.calls.set i .unwound⟩
    | _ => none
  | .wake i =>
    match s.calls[i]? with
    | some (.waiting key f deadline?) =>
      match s.cache.landing f with
      | .running => none
      | .landed r => some ⟨s.cache.coalesce, s.calls.set i (.done (r.mapError .producer))⟩
      | .abandoned => some { s with calls := s.calls.set i (.asking key deadline?) }
    | _ => none
  | .timeOut i =>
    match s.calls[i]? with
    | some (.waiting _ f (some _)) =>
      match s.cache.landing f with
      | .running => some { s with calls := s.calls.set i (.done (.error .waitTimedOut)) }
      | _ => none
    | _ => none

def run (s : Shared κ ε α) (es : List (Event κ ε α)) : Option (Shared κ ε α) := es.foldlM step s

theorem run_cons (s : Shared κ ε α) (e : Event κ ε α) (es : List (Event κ ε α)) :
    s.run (e :: es) = (s.step e).bind (·.run es) := rfl

/-- A property that every step keeps holds after a run. -/
theorem run_induction (P : Shared κ ε α → Prop)
    (hstep : ∀ s e s', P s → s.step e = some s' → P s') {s s' : Shared κ ε α}
    {es : List (Event κ ε α)} (hs : P s) (h : s.run es = some s') : P s' := by
  induction es generalizing s with
  | nil => cases h; exact hs
  | cons e es ih =>
    obtain ⟨s₁, h₁, h₂⟩ := Option.bind_eq_some_iff.1 (run_cons s e es ▸ h)
    exact ih (hstep s e s₁ hs h₁) h₂

/-! ## Steps of calls -/

theorem step_ask {s s' : Shared κ ε α} {i : Nat} (h : s.step (.ask i) = some s') :
    ∃ key d, s.calls[i]? = some (.asking key d) ∧
      s' = ⟨(s.cache.enter key).1, s.calls.set i (entered key d (s.cache.enter key).2)⟩ := by
  simp only [step] at h
  split at h
  · rename_i key d hi
    exact ⟨key, d, hi, (Option.some.inj h).symm⟩
  · cases h

theorem step_finish {s s' : Shared κ ε α} {i : Nat} {r : Except ε α}
    (h : s.step (.finish i r) = some s') :
    ∃ key f, s.calls[i]? = some (.leading key f) ∧
      s' = ⟨(s.cache.finish key f r).1, s.calls.set i (.done (r.mapError .producer))⟩ := by
  simp only [step] at h
  split at h
  · rename_i key f hi
    exact ⟨key, f, hi, (Option.some.inj h).symm⟩
  · cases h

theorem finish_enabled {s : Shared κ ε α} {i f : Nat} {key : κ}
    (h : s.calls[i]? = some (.leading key f)) (r : Except ε α) :
    s.step (.finish i r) =
      some ⟨(s.cache.finish key f r).1, s.calls.set i (.done (r.mapError .producer))⟩ := by
  simp only [step, h]

theorem unwind_enabled {s : Shared κ ε α} {i f : Nat} {key : κ}
    (h : s.calls[i]? = some (.leading key f)) :
    s.step (.unwind i) = some ⟨s.cache.unwind key f, s.calls.set i .unwound⟩ := by
  simp only [step, h]

theorem wake_enabled {s : Shared κ ε α} {i f : Nat} {key : κ} {d : Option Deadline}
    {r : Except ε α} (h : s.calls[i]? = some (.waiting key f d))
    (hl : s.cache.landing f = .landed r) :
    s.step (.wake i) = some ⟨s.cache.coalesce, s.calls.set i (.done (r.mapError .producer))⟩ := by
  simp only [step, h, hl]

theorem step_unwind {s s' : Shared κ ε α} {i : Nat} (h : s.step (.unwind i) = some s') :
    ∃ key f, s.calls[i]? = some (.leading key f) ∧
      s' = ⟨s.cache.unwind key f, s.calls.set i .unwound⟩ := by
  simp only [step] at h
  split at h
  · rename_i key f hi
    exact ⟨key, f, hi, (Option.some.inj h).symm⟩
  · cases h

theorem step_wake {s s' : Shared κ ε α} {i : Nat} (h : s.step (.wake i) = some s') :
    ∃ key f d, s.calls[i]? = some (.waiting key f d) ∧
      ((∃ r, s.cache.landing f = .landed r ∧
        s' = ⟨s.cache.coalesce, s.calls.set i (.done (r.mapError .producer))⟩) ∨
      (s.cache.landing f = .abandoned ∧ s' = { s with calls := s.calls.set i (.asking key d) })) := by
  simp only [step] at h
  split at h
  · rename_i key f d hi
    refine ⟨key, f, d, hi, ?_⟩
    split at h
    · cases h
    · rename_i r hr
      exact .inl ⟨r, hr, (Option.some.inj h).symm⟩
    · rename_i hr
      exact .inr ⟨hr, (Option.some.inj h).symm⟩
  · cases h

theorem step_timeOut {s s' : Shared κ ε α} {i : Nat} (h : s.step (.timeOut i) = some s') :
    ∃ key f d, s.calls[i]? = some (.waiting key f (some d)) ∧ s.cache.landing f = .running ∧
      s' = { s with calls := s.calls.set i (.done (.error .waitTimedOut)) } := by
  simp only [step] at h
  split at h
  · rename_i key f d hi
    refine ⟨key, f, d, hi, ?_⟩
    split at h
    · rename_i hr
      exact ⟨hr, (Option.some.inj h).symm⟩
    · cases h
  · cases h

/-- Who waits for an abandoned flight can do nothing but wake, and then asks again. -/
theorem wake_of_abandoned {s : Shared κ ε α} {j f : Nat} {key : κ} {d : Option Deadline}
    (hj : s.calls[j]? = some (.waiting key f d)) (hl : s.cache.landing f = .abandoned) :
    s.step (.wake j) = some { s with calls := s.calls.set j (.asking key d) } ∧
      ∀ {e s'}, s.step e = some s' → e.caller? = some j → e = .wake j := by
  refine ⟨by simp only [step, hj, hl], fun {e s'} hs he => ?_⟩
  cases e <;> simp only [Event.caller?, Option.some.injEq, reduceCtorEq] at he <;> subst he
  case wake i => rfl
  case timeOut i =>
    obtain ⟨_, _, _, hj', hr, -⟩ := step_timeOut hs
    cases hj.symm.trans hj'
    cases hl.symm.trans hr
  all_goals simp [step, hj] at hs

/-- The steps of other calls leave a call as it is. -/
theorem step_other {s s' : Shared κ ε α} {e : Event κ ε α} (hs : s.step e = some s') {j : Nat}
    {c : Call κ ε α} (hj : s.calls[j]? = some c) (hne : e.caller? ≠ some j) :
    s'.calls[j]? = some c := by
  cases e with
  | get key => cases hs; exact hj
  | insert key v => cases hs; exact hj
  | invalidate doomed => cases hs; exact hj
  | call key d =>
    cases hs
    rw [List.getElem?_append_left (List.getElem?_eq_some_iff.1 hj).1, hj]
  | ask i =>
    obtain ⟨key, d, -, rfl⟩ := step_ask hs
    rw [List.getElem?_set_ne (by simpa [Event.caller?] using hne), hj]
  | finish i r =>
    obtain ⟨key, f, -, rfl⟩ := step_finish hs
    rw [List.getElem?_set_ne (by simpa [Event.caller?] using hne), hj]
  | unwind i =>
    obtain ⟨key, f, -, rfl⟩ := step_unwind hs
    rw [List.getElem?_set_ne (by simpa [Event.caller?] using hne), hj]
  | wake i =>
    obtain ⟨key, f, d, -, ⟨r, -, rfl⟩ | ⟨-, rfl⟩⟩ := step_wake hs <;>
      rw [List.getElem?_set_ne (by simpa [Event.caller?] using hne), hj]
  | timeOut i =>
    obtain ⟨key, f, d, -, -, rfl⟩ := step_timeOut hs
    rw [List.getElem?_set_ne (by simpa [Event.caller?] using hne), hj]

/-- A call that is over takes no more steps. -/
theorem step_done {s s' : Shared κ ε α} {e : Event κ ε α} (hs : s.step e = some s') {j : Nat}
    {r : Except (CacheError ε) α} (hj : s.calls[j]? = some (.done r)) :
    s'.calls[j]? = some (.done r) := by
  refine step_other hs hj fun he => ?_
  cases e <;> simp only [Event.caller?, Option.some.injEq, reduceCtorEq] at he <;> subst he <;>
    simp [step, hj] at hs

omit [DecidableEq κ] [HasWeight α] in
theorem getElem?_set_call {calls : List (Call κ ε α)} {i : Nat} {c : Call κ ε α}
    (hi : calls[i]? = some c) (c' : Call κ ε α) (j : Nat) :
    (calls.set i c')[j]? = if i = j then some c' else calls[j]? := by
  have := (List.getElem?_eq_some_iff.1 hi).1
  rw [List.getElem?_set]
  split <;> simp_all

omit [DecidableEq κ] [HasWeight α] in
theorem leading_of_set {calls : List (Call κ ε α)} {i j f : Nat} {c c' : Call κ ε α} {key : κ}
    (hi : calls[i]? = some c) (hc : ∀ key f, c' ≠ .leading key f)
    (hj : (calls.set i c')[j]? = some (.leading key f)) :
    calls[j]? = some (.leading key f) ∧ j ≠ i := by
  rw [getElem?_set_call hi] at hj
  split at hj
  · exact absurd (Option.some.inj hj) (hc key f)
  · exact ⟨hj, Ne.symm ‹_›⟩

/-- A leader was one before, or has just been given its slot. -/
theorem leading_of_step {s s' : Shared κ ε α} {e : Event κ ε α} (hs : s.step e = some s')
    {j f : Nat} {key : κ} (hj : s'.calls[j]? = some (.leading key f)) :
    s.calls[j]? = some (.leading key f) ∨ (e = .ask j ∧ (key, f) ∈ s'.cache.slots) := by
  cases e with
  | get k => cases hs; exact .inl hj
  | insert k v => cases hs; exact .inl hj
  | invalidate doomed => cases hs; exact .inl hj
  | call k d =>
    cases hs
    rw [List.getElem?_append] at hj
    split at hj
    · exact .inl hj
    · simp only [List.getElem?_singleton] at hj
      split at hj <;> cases hj
  | ask i =>
    obtain ⟨k, d, hi, rfl⟩ := step_ask hs
    rcases enter_cases s.cache k with ⟨e, -, he⟩ | ⟨g, -, -, he⟩ | ⟨-, -, he⟩ <;> rw [he] at hj ⊢
    · exact .inl (leading_of_set hi (by simp [entered]) hj).1
    · exact .inl (leading_of_set hi (by simp [entered]) hj).1
    · rw [getElem?_set_call hi] at hj
      split at hj
      · rename_i hij
        cases hj
        exact .inr ⟨by rw [hij], List.mem_cons_self⟩
      · exact .inl hj
  | finish i r =>
    obtain ⟨k, g, hi, rfl⟩ := step_finish hs
    exact .inl (leading_of_set hi (by simp) hj).1
  | unwind i =>
    obtain ⟨k, g, hi, rfl⟩ := step_unwind hs
    exact .inl (leading_of_set hi (by simp) hj).1
  | wake i =>
    obtain ⟨k, g, d, hi, ⟨r, -, rfl⟩ | ⟨-, rfl⟩⟩ := step_wake hs <;>
      exact .inl (leading_of_set hi (by simp) hj).1
  | timeOut i =>
    obtain ⟨k, g, d, hi, -, rfl⟩ := step_timeOut hs
    exact .inl (leading_of_set hi (by simp) hj).1

end

/-! ## The invariant -/

structure Inv (s : Shared κ ε α) : Prop where
  slots_nodup : (s.cache.slots.map Prod.fst).Nodup
  slot_led : ∀ {key f}, (key, f) ∈ s.cache.slots → ∃ i : Nat, s.calls[i]? = some (.leading key f)
  led_flight : ∀ {i : Nat} {key f}, s.calls[i]? = some (.leading key f) →
    ∃ fl, s.cache.flights[f]? = some fl ∧ fl.landing = .running ∧
      (fl.stale = true ↔ (key, f) ∉ s.cache.slots)
  leader_unique : ∀ {i j : Nat} {key key' f}, s.calls[i]? = some (.leading key f) →
    s.calls[j]? = some (.leading key' f) → i = j
  waited : ∀ {i : Nat} {key f d}, s.calls[i]? = some (.waiting key f d) → f < s.cache.flights.size ∧
    ∀ {j : Nat} {key'}, s.calls[j]? = some (.leading key' f) → key' = key

theorem Inv.start (capacity : Capacity) : Inv (start capacity : Shared κ ε α) := by
  constructor <;> simp [Shared.start, Cache.empty]

section
variable {s s' : Shared κ ε α}

theorem Inv.led_lt (h : Inv s) {i f : Nat} {key : κ} (hi : s.calls[i]? = some (.leading key f)) :
    f < s.cache.flights.size := by
  obtain ⟨fl, hf, -⟩ := h.led_flight hi
  exact (Array.getElem?_eq_some_iff.1 hf).1

/-- Only slots, flights and calls matter. -/
theorem Inv.congr (h : Inv s) {cache : Cache κ ε α} (hs : cache.slots = s.cache.slots)
    (hf : cache.flights = s.cache.flights) : Inv { s with cache } := by
  constructor
  · simpa [hs] using h.slots_nodup
  · simpa [hs] using @h.slot_led
  · simpa [hs, hf] using @h.led_flight
  · exact h.leader_unique
  · simpa [hf] using @h.waited

/-- A call that does not lead turns to something else than leading. -/
theorem Inv.set_call (h : Inv s) {i : Nat} {c c' : Call κ ε α} (hi : s.calls[i]? = some c)
    (hc : ∀ key f, c ≠ .leading key f) (hc' : ∀ key f, c' ≠ .leading key f)
    (hw : ∀ {key f d}, c' = .waiting key f d → f < s.cache.flights.size ∧
      ∀ {j : Nat} {key'}, s.calls[j]? = some (.leading key' f) → key' = key) :
    Inv { s with calls := s.calls.set i c' } := by
  have hset := getElem?_set_call hi c'
  have hlead : ∀ {j : Nat} {key f}, (s.calls.set i c')[j]? = some (.leading key f) →
      s.calls[j]? = some (.leading key f) := fun hj => (leading_of_set hi hc' hj).1
  constructor
  · exact h.slots_nodup
  · intro key f hm
    obtain ⟨j, hj⟩ := h.slot_led hm
    refine ⟨j, ?_⟩
    rw [hset, if_neg, hj]
    rintro rfl
    exact hc _ _ (Option.some.inj (hi.symm.trans hj))
  · exact fun hj => h.led_flight (hlead hj)
  · exact fun hj hk => h.leader_unique (hlead hj) (hlead hk)
  · intro j key f d hj
    rw [hset] at hj
    split at hj
    · obtain ⟨hlt, hw⟩ := hw (Option.some.inj hj)
      exact ⟨hlt, fun hk => hw (hlead hk)⟩
    · obtain ⟨hlt, hw⟩ := h.waited hj
      exact ⟨hlt, fun hk => hw (hlead hk)⟩

/-- A caller joins the flight of its key's slot. -/
theorem Inv.join (h : Inv s) {i f : Nat} {key : κ} {d : Option Deadline}
    (hi : s.calls[i]? = some (.asking key d)) (hm : (key, f) ∈ s.cache.slots) :
    Inv { s with calls := s.calls.set i (.waiting key f d) } := by
  obtain ⟨l, hl⟩ := h.slot_led hm
  refine h.set_call hi (by simp) (by simp) fun he => ?_
  cases he
  refine ⟨h.led_lt hl, fun hj => ?_⟩
  obtain rfl := h.leader_unique hl hj
  cases hl.symm.trans hj
  rfl

theorem Inv.call (h : Inv s) (key : κ) (d : Option Deadline) :
    Inv { s with calls := s.calls ++ [.asking key d] } := by
  have happ : ∀ {j : Nat} {c}, (s.calls ++ [Call.asking key d])[j]? = some c → c.flight? ≠ none →
      s.calls[j]? = some c := by
    intro j c hj hc
    rw [List.getElem?_append] at hj
    split at hj
    · exact hj
    · simp only [List.getElem?_singleton] at hj
      split at hj
      · cases hj; exact absurd rfl hc
      · cases hj
  constructor
  · exact h.slots_nodup
  · intro key f hm
    obtain ⟨j, hj⟩ := h.slot_led hm
    exact ⟨j, by rw [List.getElem?_append_left (List.getElem?_eq_some_iff.1 hj).1, hj]⟩
  · exact fun hj => h.led_flight (happ hj (by simp [Call.flight?]))
  · exact fun hj hk => h.leader_unique (happ hj (by simp [Call.flight?]))
      (happ hk (by simp [Call.flight?]))
  · intro j key f d hj
    obtain ⟨hlt, hw⟩ := h.waited (happ hj (by simp [Call.flight?]))
    exact ⟨hlt, fun hk => hw (happ hk (by simp [Call.flight?]))⟩

/-- A caller takes off in a slot of its own. -/
theorem Inv.lead (h : Inv s) {i : Nat} {key : κ} {d : Option Deadline} {cache : Cache κ ε α}
    (hi : s.calls[i]? = some (.asking key d)) (hn : ∀ f, (key, f) ∉ s.cache.slots)
    (hs : cache.slots = (key, s.cache.flights.size) :: s.cache.slots)
    (hf : cache.flights = s.cache.flights.push .takeOff) :
    Inv ⟨cache, s.calls.set i (.leading key s.cache.flights.size)⟩ := by
  have hset := getElem?_set_call hi (.leading key s.cache.flights.size)
  have hlead : ∀ {j : Nat} {key' f'},
      (s.calls.set i (.leading key s.cache.flights.size))[j]? = some (.leading key' f') →
      (j = i ∧ key' = key ∧ f' = s.cache.flights.size) ∨
        (s.calls[j]? = some (.leading key' f') ∧ f' < s.cache.flights.size) := by
    intro j key' f' hj
    rw [hset] at hj
    split at hj
    · cases hj; exact .inl ⟨Eq.symm ‹_›, rfl, rfl⟩
    · exact .inr ⟨hj, h.led_lt hj⟩
  constructor
  · rw [hs, List.map_cons, List.nodup_cons]
    exact ⟨fun hm => by
      obtain ⟨⟨k, f⟩, hk, rfl⟩ := List.mem_map.1 hm
      exact hn f hk, h.slots_nodup⟩
  · intro key' f' hm'
    rw [hs] at hm'
    rcases List.mem_cons.1 hm' with he | hm'
    · cases he
      exact ⟨i, by rw [hset, if_pos rfl]⟩
    · obtain ⟨j, hj⟩ := h.slot_led hm'
      refine ⟨j, ?_⟩
      rw [hset, if_neg, hj]
      rintro rfl
      cases hi.symm.trans hj
  · intro j key' f' hj
    rcases hlead hj with ⟨rfl, rfl, rfl⟩ | ⟨hj, hlt⟩
    · exact ⟨.takeOff, by simp [hf], rfl, by simp [hs, Flight.takeOff]⟩
    · obtain ⟨fl, hfl, hr, hst⟩ := h.led_flight hj
      refine ⟨fl, ?_, hr, ?_⟩
      · rw [hf, Array.getElem?_push, if_neg (Nat.ne_of_lt hlt), hfl]
      · simp [hst, hs, Nat.ne_of_lt hlt]
  · intro j j' key₁ key₂ f' hj hj'
    rcases hlead hj with ⟨rfl, -, hf₁⟩ | ⟨hj, hlt⟩ <;> rcases hlead hj' with ⟨rfl, -, hf₂⟩ | ⟨hj', hlt'⟩
    · rfl
    · omega
    · omega
    · exact h.leader_unique hj hj'
  · intro j key' f' d' hj
    rw [hset] at hj
    split at hj
    · cases hj
    · obtain ⟨hlt, hw⟩ := h.waited hj
      refine ⟨by simp only [hf, Array.size_push]; omega, fun hk => ?_⟩
      rcases hlead hk with ⟨-, -, rfl⟩ | ⟨hk, -⟩
      · omega
      · exact hw hk

/-- A leader's flight ends and frees its slot, if it still has one. -/
theorem Inv.land [DecidableEq κ] (h : Inv s) {i f : Nat} {key : κ} {c' : Call κ ε α} {cache : Cache κ ε α}
    {ended : Flight ε α → Flight ε α} (hi : s.calls[i]? = some (.leading key f))
    (hc' : c'.flight? = none) (hs : cache.slots = s.cache.slots.filter (· ≠ (key, f)))
    (hf : cache.flights = s.cache.flights.modify f ended) :
    Inv ⟨cache, s.calls.set i c'⟩ := by
  have hset := getElem?_set_call hi c'
  have hlead : ∀ {j : Nat} {key' f'}, (s.calls.set i c')[j]? = some (.leading key' f') →
      s.calls[j]? = some (.leading key' f') ∧ f' ≠ f := by
    intro j key' f' hj
    obtain ⟨hj, hne⟩ := leading_of_set hi (by rintro key f rfl; simp [Call.flight?] at hc') hj
    exact ⟨hj, by rintro rfl; exact hne (h.leader_unique hj hi)⟩
  constructor
  · rw [hs]
    exact h.slots_nodup.sublist (List.filter_sublist.map _)
  · intro key' f' hm'
    rw [hs, List.mem_filter] at hm'
    obtain ⟨j, hj⟩ := h.slot_led hm'.1
    refine ⟨j, ?_⟩
    rw [hset, if_neg, hj]
    rintro rfl
    cases hi.symm.trans hj
    simp at hm'
  · intro j key' f' hj
    obtain ⟨hj, hne⟩ := hlead hj
    obtain ⟨fl, hfl, hr, hst⟩ := h.led_flight hj
    refine ⟨fl, ?_, hr, ?_⟩
    · rw [hf, Array.getElem?_modify, if_neg (Ne.symm hne), hfl]
    · simp [hst, hs, hne]
  · exact fun hj hk => h.leader_unique (hlead hj).1 (hlead hk).1
  · intro j key' f' d' hj
    rw [hset] at hj
    split at hj
    · cases hj; simp [Call.flight?] at hc'
    · obtain ⟨hlt, hw⟩ := h.waited hj
      exact ⟨by simpa [hf] using hlt, fun hk => hw (hlead hk).1⟩

theorem Inv.invalidate (h : Inv s) (doomed : κ → Bool) :
    Inv { s with cache := (s.cache.invalidate doomed).1 } := by
  constructor
  · simp only [invalidate_slots]
    exact h.slots_nodup.sublist (List.filter_sublist.map _)
  · intro key f hm
    rw [invalidate_slots, List.mem_filter] at hm
    exact h.slot_led hm.1
  · intro i key f hi
    obtain ⟨fl, hfl, hr, hst⟩ := h.led_flight hi
    -- a slot of this flight has the leader's key
    have hkey : ∀ key', (key', f) ∈ s.cache.slots → key' = key := fun key' hm => by
      obtain ⟨j, hj⟩ := h.slot_led hm
      obtain rfl := h.leader_unique hi hj
      cases hi.symm.trans hj
      rfl
    have hmem : f ∈ (s.cache.slots.filter (doomed ·.1)).map Prod.snd ↔
        (key, f) ∈ s.cache.slots ∧ doomed key = true := by
      simp only [List.mem_map, List.mem_filter, Prod.exists, exists_eq_right]
      refine ⟨fun ⟨key', hm, hd⟩ => ?_, fun hm => ⟨key, hm⟩⟩
      obtain rfl := hkey key' hm
      exact ⟨hm, hd⟩
    refine ⟨_, by rw [getElem?_invalidate_flights, hfl]; rfl, ?_, ?_⟩
    · split <;> exact hr
    · simp only [invalidate_slots, List.mem_filter]
      split <;> rename_i hm <;> rw [hmem] at hm
      · simp [hm.2, Flight.markStale]
      · rw [hst]
        by_cases hd : doomed key = true <;> simp_all
  · exact h.leader_unique
  · intro i key f d hi
    obtain ⟨hlt, hw⟩ := h.waited hi
    refine ⟨?_, hw⟩
    have : (s.cache.invalidate doomed).1.flights[f]?.isSome := by
      rw [getElem?_invalidate_flights]; simpa using hlt
    simpa using this

end

section
variable [DecidableEq κ] [HasWeight α] {s s' : Shared κ ε α}

theorem Inv.step (h : Inv s) {e : Event κ ε α} (hs : s.step e = some s') : Inv s' := by
  cases e with
  | get key => cases hs; exact h.congr (by simp) (by simp)
  | insert key v => cases hs; exact h.congr (by simp) (by simp)
  | invalidate doomed => cases hs; exact h.invalidate doomed
  | call key d => cases hs; exact h.call key d
  | ask i =>
    obtain ⟨key, d, hi, rfl⟩ := step_ask hs
    rcases enter_cases s.cache key with ⟨e, -, he⟩ | ⟨f, -, hm, he⟩ | ⟨-, hn, he⟩ <;> rw [he]
    · exact (h.set_call hi (by simp) (by simp [entered]) (by simp [entered])).congr rfl rfl
    · exact h.join hi hm
    · exact h.lead hi hn rfl rfl
  | finish i r =>
    obtain ⟨key, f, hi, rfl⟩ := step_finish hs
    exact h.land hi rfl (finish_slots ..) (finish_flights ..)
  | unwind i =>
    obtain ⟨key, f, hi, rfl⟩ := step_unwind hs
    exact h.land hi rfl rfl rfl
  | wake i =>
    obtain ⟨key, f, d, hi, ⟨r, -, rfl⟩ | ⟨-, rfl⟩⟩ := step_wake hs
    · exact (h.set_call hi (by simp) (by simp) (by simp)).congr rfl rfl
    · exact h.set_call hi (by simp) (by simp) (by simp)
  | timeOut i =>
    obtain ⟨key, f, d, hi, -, rfl⟩ := step_timeOut hs
    exact h.set_call hi (by simp) (by simp) (by simp)

theorem Inv.run (h : Inv s) {es : List (Event κ ε α)} (hs : s.run es = some s') : Inv s' :=
  run_induction Inv (fun _ _ _ h hs => h.step hs) h hs

/-- A flight that has ended stays as it ended. -/
theorem step_ended (h : Inv s) {e : Event κ ε α} (hs : s.step e = some s') {f : Nat}
    {l : Landing ε α} (hl : l ≠ .running) (hf : s.cache.flights[f]?.map Flight.landing = some l) :
    s'.cache.flights[f]?.map Flight.landing = some l := by
  obtain ⟨fl, hfl, rfl⟩ := Option.map_eq_some_iff.1 hf
  have hlt := (Array.getElem?_eq_some_iff.1 hfl).1
  -- the flight that a leader ends is running
  have hne : ∀ {i : Nat} {key g}, s.calls[i]? = some (.leading key g) → g ≠ f := by
    rintro i key g hi rfl
    obtain ⟨fl', hfl', hr, -⟩ := h.led_flight hi
    cases hfl.symm.trans hfl'
    exact hl hr
  cases e with
  | get key => cases hs; simpa using hf
  | insert key v => cases hs; simpa using hf
  | invalidate doomed =>
    cases hs
    rw [getElem?_invalidate_flights, hfl]
    simp only [Option.map_some, Option.some.injEq]
    split <;> rfl
  | call key d => cases hs; exact hf
  | ask i =>
    obtain ⟨key, d, -, rfl⟩ := step_ask hs
    rcases enter_cases s.cache key with ⟨e, -, he⟩ | ⟨g, -, -, he⟩ | ⟨-, -, he⟩ <;> rw [he]
    · exact hf
    · exact hf
    · simp only [Array.getElem?_push, Nat.ne_of_lt hlt, if_false, hf]
  | finish i r =>
    obtain ⟨key, g, hi, rfl⟩ := step_finish hs
    rw [finish_flights, Array.getElem?_modify, if_neg (hne hi), hf]
  | unwind i =>
    obtain ⟨key, g, hi, rfl⟩ := step_unwind hs
    simp only [unwind, release, Array.getElem?_modify, if_neg (hne hi), hf]
  | wake i =>
    obtain ⟨key, g, d, -, ⟨r, -, rfl⟩ | ⟨-, rfl⟩⟩ := step_wake hs <;> exact hf
  | timeOut i =>
    obtain ⟨key, g, d, -, -, rfl⟩ := step_timeOut hs
    exact hf

/-- Whatever is done to a cache from its start on, the invariant holds. -/
theorem inv_of_run {capacity : Capacity} {es : List (Event κ ε α)}
    (hs : (start capacity).run es = some s) : Inv s :=
  (Inv.start capacity).run hs

end

end Shared

end ConfigCompiler.Cache
