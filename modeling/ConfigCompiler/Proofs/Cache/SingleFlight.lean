import Mathlib.Data.List.Nodup
import ConfigCompiler.Cache.Script
import ConfigCompiler.Proofs.Cache.Shared

/-!
# Single flight

`productions` tells which producers a run has started, how each has ended and whether its key has been
invalidated since, from the events and the calls alone. `Told s ps`: slots, flights and calls of `s` say
the same as the productions `ps`. A slot belongs to a production that is running and not invalidated
(`slot`), the flight of a production has come as far as the production (`landing`), its caller is where it
leads (`called`), and whoever waits, waits for a production of its key (`waited`). Every step keeps it
(`Told.step`), so `single_flight` holds in every run.
-/

namespace ConfigCompiler.Cache

/-- A run of a caller's own producer. -/
structure Production (κ ε α : Type) where
  caller : Nat
  key : κ
  flight : Nat
  /-- Whether its key has been invalidated since it began. -/
  invalidated : Bool
  landing : Landing ε α

variable {κ ε α : Type}

/-- Where the caller of a production is, who has nothing else to do. -/
def Production.call (p : Production κ ε α) : Call κ ε α :=
  match p.landing with
  | .running => .leading p.key p.flight
  | .landed r => .done (r.mapError .producer)
  | .abandoned => .unwound

/-- What becomes of a production by an event. -/
def Production.after (e : Event κ ε α) (p : Production κ ε α) : Production κ ε α :=
  match e with
  | .finish i r => if p.caller = i then { p with landing := .landed r } else p
  | .unwind i => if p.caller = i then { p with landing := .abandoned } else p
  | .invalidate doomed => if doomed p.key then { p with invalidated := true } else p
  | _ => p

theorem Production.call_of_running {p : Production κ ε α} (h : p.landing = .running) :
    p.call = .leading p.key p.flight := by simp [call, h]

/-- The caller of a production neither asks nor waits. -/
theorem Production.call_ne_asking (p : Production κ ε α) (key : κ) (d : Option Deadline) :
    p.call ≠ .asking key d := by unfold call; split <;> simp

theorem Production.call_ne_waiting (p : Production κ ε α) (key : κ) (f : Nat) (d : Option Deadline) :
    p.call ≠ .waiting key f d := by unfold call; split <;> simp

theorem Production.of_call {p : Production κ ε α} {key : κ} {f : Nat}
    (h : p.call = .leading key f) : p.key = key ∧ p.flight = f ∧ p.landing = .running := by
  unfold call at h
  split at h
  · rename_i hr
    cases h
    exact ⟨rfl, rfl, hr⟩
  · cases h
  · cases h

namespace Shared

/-- The production that an event starts: an asking caller has become a leader. -/
def begun (e : Event κ ε α) (s' : Shared κ ε α) : List (Production κ ε α) :=
  match e with
  | .ask i =>
    match s'.calls[i]? with
    | some (.leading key f) => [⟨i, key, f, false, .running⟩]
    | _ => []
  | _ => []

/-- The productions after an event that leads to `s'`, the last one first. -/
def record (e : Event κ ε α) (s' : Shared κ ε α) (ps : List (Production κ ε α)) :
    List (Production κ ε α) := begun e s' ++ ps.map (.after e)

/-! ## What the productions tell -/

structure Told (s : Shared κ ε α) (ps : List (Production κ ε α)) : Prop where
  callers_nodup : (ps.map Production.caller).Nodup
  called : ∀ {p}, p ∈ ps → s.calls[p.caller]? = some p.call
  led : ∀ {i : Nat} {key f}, s.calls[i]? = some (.leading key f) → ∃ p ∈ ps, p.caller = i
  waited : ∀ {i : Nat} {key f d}, s.calls[i]? = some (.waiting key f d) →
    ∃ p ∈ ps, p.key = key ∧ p.flight = f
  landing : ∀ {p}, p ∈ ps → s.cache.flights[p.flight]?.map Flight.landing = some p.landing
  slot : ∀ {p}, p ∈ ps → p.landing = .running →
    ((p.key, p.flight) ∈ s.cache.slots ↔ p.invalidated = false)

theorem Told.start (capacity : Capacity) : Told (start capacity : Shared κ ε α) [] := by
  constructor <;> simp [Shared.start]

section
variable {s s' : Shared κ ε α} {ps : List (Production κ ε α)}

theorem Told.eq_of_caller (h : Told s ps) {p p' : Production κ ε α} (hp : p ∈ ps) (hp' : p' ∈ ps)
    (hc : p.caller = p'.caller) : p = p' := List.inj_on_of_nodup_map h.callers_nodup hp hp' hc

/-- The production of a leader. -/
theorem Told.leading (h : Told s ps) {i f : Nat} {key : κ}
    (hi : s.calls[i]? = some (.leading key f)) :
    ∃ p ∈ ps, p.caller = i ∧ p.key = key ∧ p.flight = f ∧ p.landing = .running := by
  obtain ⟨p, hp, rfl⟩ := h.led hi
  exact ⟨p, hp, rfl, Production.of_call (Option.some.inj ((h.called hp).symm.trans hi))⟩

/-- No other production has the flight of a leader. -/
theorem Told.caller_of_flight (h : Told s ps) (hI : Inv s) {i f : Nat} {key : κ}
    (hi : s.calls[i]? = some (.leading key f)) {p : Production κ ε α} (hp : p ∈ ps)
    (hf : p.flight = f) : p.caller = i := by
  obtain ⟨fl, hfl, hrun, -⟩ := hI.led_flight hi
  have hp' := h.landing hp
  rw [hf, hfl, Option.map_some, hrun] at hp'
  have hcall := Production.call_of_running (Option.some.inj hp').symm
  rw [hf] at hcall
  exact hI.leader_unique (hcall ▸ h.called hp) hi

/-! ## Changes -/

/-- An asking or waiting call turns to something else than leading; slots and flights stay. -/
theorem Told.set_call (h : Told s ps) {cache : Cache κ ε α} {i : Nat} {c c' : Call κ ε α}
    (hi : s.calls[i]? = some c) (hc : ∀ p : Production κ ε α, p.call ≠ c)
    (hc' : ∀ key f, c' ≠ .leading key f)
    (hw : ∀ {key f d}, c' = .waiting key f d → ∃ p ∈ ps, p.key = key ∧ p.flight = f)
    (hs : cache.slots = s.cache.slots) (hf : cache.flights = s.cache.flights) :
    Told ⟨cache, s.calls.set i c'⟩ ps where
  callers_nodup := h.callers_nodup
  called {p} hp := by
    rw [getElem?_set_call hi, if_neg, h.called hp]
    rintro rfl
    exact hc p (Option.some.inj ((h.called hp).symm.trans hi))
  led hj := h.led (leading_of_set hi hc' hj).1
  waited hj := by
    rw [getElem?_set_call hi] at hj
    split at hj
    · exact hw (Option.some.inj hj)
    · exact h.waited hj
  landing hp := hf ▸ h.landing hp
  slot hp hr := hs ▸ h.slot hp hr

theorem Told.congr (h : Told s ps) {cache : Cache κ ε α} (hs : cache.slots = s.cache.slots)
    (hf : cache.flights = s.cache.flights) : Told { s with cache } ps :=
  { h with
    landing := fun hp => hf ▸ h.landing hp
    slot := fun hp hr => hs ▸ h.slot hp hr }

theorem Told.call (h : Told s ps) (key : κ) (d : Option Deadline) :
    Told { s with calls := s.calls ++ [.asking key d] } ps := by
  have happ {j : Nat} {c : Call κ ε α} (hj : (s.calls ++ [Call.asking key d])[j]? = some c)
      (hc : c ≠ .asking key d) : s.calls[j]? = some c := by
    rw [List.getElem?_append] at hj
    split at hj
    · exact hj
    · simp only [List.getElem?_singleton] at hj
      split at hj
      · exact absurd (Option.some.inj hj).symm hc
      · cases hj
  exact { h with
    called := fun {p} hp => by
      rw [List.getElem?_append_left (List.getElem?_eq_some_iff.1 (h.called hp)).1, h.called hp]
    led := fun hj => h.led (happ hj (by simp))
    waited := fun hj => h.waited (happ hj (by simp)) }

/-- An asking call takes off in a slot of its own: its production begins. -/
theorem Told.lead (h : Told s ps) {cache : Cache κ ε α} {i : Nat} {key : κ} {d : Option Deadline}
    (hi : s.calls[i]? = some (.asking key d))
    (hs : cache.slots = (key, s.cache.flights.size) :: s.cache.slots)
    (hf : cache.flights = s.cache.flights.push .takeOff) :
    Told ⟨cache, s.calls.set i (.leading key s.cache.flights.size)⟩
      (⟨i, key, s.cache.flights.size, false, .running⟩ :: ps) := by
  have hne {p : Production κ ε α} (hp : p ∈ ps) : i ≠ p.caller := by
    rintro rfl
    exact p.call_ne_asking key d (Option.some.inj ((h.called hp).symm.trans hi))
  have hlt {p : Production κ ε α} (hp : p ∈ ps) : p.flight < s.cache.flights.size := by
    obtain ⟨fl, hfl, -⟩ := Option.map_eq_some_iff.1 (h.landing hp)
    exact (Array.getElem?_eq_some_iff.1 hfl).1
  have hset := getElem?_set_call hi (.leading key s.cache.flights.size)
  refine
    { callers_nodup := ?_, called := fun {p} hp => ?_, led := fun {j key' f} hj => ?_
      waited := fun {j key' f d'} hj => ?_, landing := fun {p} hp => ?_, slot := fun {p} hp hr => ?_ }
  · refine List.nodup_cons.2 ⟨fun hm => ?_, h.callers_nodup⟩
    obtain ⟨p, hp, hpi⟩ := List.mem_map.1 hm
    exact hne hp hpi.symm
  · rcases List.mem_cons.1 hp with rfl | hp
    · exact (hset i).trans (if_pos rfl)
    · exact ((hset _).trans (if_neg (hne hp))).trans (h.called hp)
  · rw [hset] at hj
    split at hj
    · rename_i hij
      exact ⟨_, List.mem_cons_self, hij⟩
    · obtain ⟨p, hp, hpj⟩ := h.led hj
      exact ⟨p, List.mem_cons_of_mem _ hp, hpj⟩
  · rw [hset] at hj
    split at hj
    · cases hj
    · obtain ⟨p, hp, hpk⟩ := h.waited hj
      exact ⟨p, List.mem_cons_of_mem _ hp, hpk⟩
  · rcases List.mem_cons.1 hp with rfl | hp
    · simp [hf, Flight.takeOff]
    · rw [hf, Array.getElem?_push, if_neg (Nat.ne_of_lt (hlt hp)), h.landing hp]
  · rcases List.mem_cons.1 hp with rfl | hp
    · simp [hs]
    · simp [hs, h.slot hp hr, Nat.ne_of_lt (hlt hp)]

/-- Each production is revised, but not whose it is, and no call starts to lead or to wait. -/
theorem Told.revise (h : Told s ps) {g : Production κ ε α → Production κ ε α}
    (hg : ∀ p, (g p).caller = p.caller ∧ (g p).key = p.key ∧ (g p).flight = p.flight)
    (hcalls : ∀ {i : Nat} {c}, s'.calls[i]? = some c → c.flight? ≠ none → s.calls[i]? = some c)
    (hcalled : ∀ p ∈ ps, s'.calls[p.caller]? = some (g p).call)
    (hlanding : ∀ p ∈ ps, s'.cache.flights[p.flight]?.map Flight.landing = some (g p).landing)
    (hslot : ∀ p ∈ ps, (g p).landing = .running →
      ((p.key, p.flight) ∈ s'.cache.slots ↔ (g p).invalidated = false)) : Told s' (ps.map g) where
  callers_nodup := by
    have hcaller : Production.caller ∘ g = Production.caller := funext fun p => (hg p).1
    rw [List.map_map, hcaller]
    exact h.callers_nodup
  called hp' := by
    obtain ⟨p, hp, rfl⟩ := List.mem_map.1 hp'
    rw [(hg p).1, hcalled p hp]
  led hj := by
    obtain ⟨p, hp, hpj⟩ := h.led (hcalls hj (by simp [Call.flight?]))
    exact ⟨g p, List.mem_map.2 ⟨p, hp, rfl⟩, (hg p).1.trans hpj⟩
  waited hj := by
    obtain ⟨p, hp, hpk, hpf⟩ := h.waited (hcalls hj (by simp [Call.flight?]))
    exact ⟨g p, List.mem_map.2 ⟨p, hp, rfl⟩, (hg p).2.1.trans hpk, (hg p).2.2.trans hpf⟩
  landing hp' := by
    obtain ⟨p, hp, rfl⟩ := List.mem_map.1 hp'
    rw [(hg p).2.2, hlanding p hp]
  slot hp' hr := by
    obtain ⟨p, hp, rfl⟩ := List.mem_map.1 hp'
    rw [(hg p).2.1, (hg p).2.2, hslot p hp hr]

/-- The production of a leader ends, with its flight and its call. -/
theorem Told.land [DecidableEq κ] (h : Told s ps) (hI : Inv s) {cache : Cache κ ε α} {i f : Nat}
    {key : κ} {c' : Call κ ε α} {ended : Flight ε α → Flight ε α} {landing : Landing ε α}
    (hi : s.calls[i]? = some (.leading key f)) (hl : landing ≠ .running)
    (hc' : ∀ p : Production κ ε α, { p with landing }.call = c') (hc : c'.flight? = none)
    (he : ∀ fl, (ended fl).landing = landing)
    (hs : cache.slots = s.cache.slots.filter (· ≠ (key, f)))
    (hf : cache.flights = s.cache.flights.modify f ended) :
    Told ⟨cache, s.calls.set i c'⟩
      (ps.map fun p => if p.caller = i then { p with landing } else p) := by
  have hset := getElem?_set_call hi c'
  obtain ⟨p₀, hp₀, hcaller, hkey, hflight, -⟩ := h.leading hi
  -- the productions of others go on with other flights
  have hother {p : Production κ ε α} (hp : p ∈ ps) (hpi : p.caller ≠ i) : f ≠ p.flight :=
    fun hpf => hpi (h.caller_of_flight hI hi hp hpf.symm)
  refine h.revise (fun p => ?_) (fun {j c} hj hjf => ?_) (fun p hp => ?_) (fun p hp => ?_)
    (fun p hp hr => ?_)
  · split <;> exact ⟨rfl, rfl, rfl⟩
  · rw [hset] at hj
    split at hj
    · cases hj
      exact absurd hc hjf
    · exact hj
  · split
    · rename_i hpi
      rw [hset, if_pos hpi.symm, hc']
    · rename_i hpi
      rw [hset, if_neg (Ne.symm hpi), h.called hp]
  · split
    · rename_i hpi
      obtain rfl := h.eq_of_caller hp hp₀ (hpi.trans hcaller.symm)
      obtain ⟨fl, hfl, -⟩ := Option.map_eq_some_iff.1 (h.landing hp)
      rw [hf, Array.getElem?_modify, if_pos hflight.symm, hfl, Option.map_some, Option.map_some, he]
    · rename_i hpi
      rw [hf, Array.getElem?_modify, if_neg (hother hp hpi), h.landing hp]
  · split at hr
    · exact absurd hr hl
    · rename_i hpi
      rw [if_neg hpi, hs, List.mem_filter, ← h.slot hp hr]
      simp [Ne.symm (hother hp hpi)]

theorem Told.invalidate (h : Told s ps) (doomed : κ → Bool) :
    Told { s with cache := (s.cache.invalidate doomed).1 }
      (ps.map fun p => if doomed p.key then { p with invalidated := true } else p) := by
  refine h.revise (fun p => ?_) (fun hj _ => hj) (fun p hp => ?_) (fun p hp => ?_)
    (fun p hp hr => ?_)
  · split <;> exact ⟨rfl, rfl, rfl⟩
  · have hcall := h.called hp
    split <;> exact hcall
  · obtain ⟨fl, hfl, hl⟩ := Option.map_eq_some_iff.1 (h.landing hp)
    have hmark : (s.cache.invalidate doomed).1.flights[p.flight]?.map Flight.landing =
        some p.landing := by
      rw [getElem?_invalidate_flights, hfl]
      simp only [Option.map_some, Option.some.injEq, ← hl]
      split <;> rfl
    split <;> exact hmark
  · rw [invalidate_slots, List.mem_filter]
    split at hr
    · rename_i hd
      simp [hd]
    · rename_i hd
      simp [h.slot hp hr, hd]

end

/-! ## Steps and runs -/

section
variable [DecidableEq κ] [HasWeight α] {s s' : Shared κ ε α} {ps : List (Production κ ε α)}

omit [DecidableEq κ] [HasWeight α] in
/-- Most events leave the productions as they are. -/
theorem record_eq_self {e : Event κ ε α} (hb : begun e s' = []) (he : ∀ p, Production.after e p = p) :
    record e s' ps = ps := by
  rw [record, hb, List.nil_append]
  exact (List.map_congr_left fun p _ => he p).trans (List.map_id ps)

omit [DecidableEq κ] [HasWeight α] in
theorem begun_ask {i : Nat} {c : Call κ ε α} (hi : s'.calls[i]? = some c)
    (hc : ∀ key f, c ≠ .leading key f) : begun (.ask i) s' = [] := by
  rw [begun, hi]
  split
  · rename_i key f he
    exact absurd (Option.some.inj he) (hc key f)
  · rfl

omit [DecidableEq κ] [HasWeight α] in
theorem begun_lead {i f : Nat} {key : κ} (hi : s'.calls[i]? = some (.leading key f)) :
    begun (.ask i) s' = [⟨i, key, f, false, .running⟩] := by simp only [begun, hi]

theorem Told.step (h : Told s ps) (hI : Inv s) {e : Event κ ε α} (hs : s.step e = some s') :
    Told s' (record e s' ps) := by
  cases e with
  | get key =>
    cases hs
    rw [record_eq_self rfl fun _ => rfl]
    exact h.congr (get_slots ..) (get_flights ..)
  | insert key v =>
    cases hs
    rw [record_eq_self rfl fun _ => rfl]
    exact h.congr (insert_slots ..) (insert_flights ..)
  | invalidate doomed => cases hs; exact h.invalidate doomed
  | call key d =>
    cases hs
    rw [record_eq_self rfl fun _ => rfl]
    exact h.call key d
  | ask i =>
    obtain ⟨key, d, hi, rfl⟩ := step_ask hs
    have hi' (c : Call κ ε α) : (s.calls.set i c)[i]? = some c := by simp [getElem?_set_call hi]
    have hask (p : Production κ ε α) : p.call ≠ .asking key d := p.call_ne_asking key d
    rcases enter_cases s.cache key with ⟨e, -, he⟩ | ⟨f, -, hm, he⟩ | ⟨-, -, he⟩ <;> rw [he]
    · rw [record_eq_self (begun_ask (hi' _) (by simp [entered])) fun _ => rfl]
      exact h.set_call hi hask (by simp [entered]) (by simp [entered]) rfl rfl
    · rw [record_eq_self (begun_ask (hi' _) (by simp [entered])) fun _ => rfl]
      refine h.set_call hi hask (by simp [entered]) (fun hw => ?_) rfl rfl
      cases hw
      obtain ⟨l, hl⟩ := hI.slot_led hm
      obtain ⟨p, hp, -, hpk, hpf, -⟩ := h.leading hl
      exact ⟨p, hp, hpk, hpf⟩
    · rw [record, begun_lead (hi' (.leading key s.cache.flights.size))]
      exact (List.map_id ps).symm ▸ h.lead hi rfl rfl
  | finish i r =>
    obtain ⟨key, f, hi, rfl⟩ := step_finish hs
    exact h.land hI hi (by simp) (fun _ => rfl) rfl (fun _ => rfl) (finish_slots ..)
      (finish_flights ..)
  | unwind i =>
    obtain ⟨key, f, hi, rfl⟩ := step_unwind hs
    exact h.land hI hi (by simp) (fun _ => rfl) rfl (fun _ => rfl) rfl rfl
  | wake i =>
    obtain ⟨key, f, d, hi, ⟨r, -, rfl⟩ | ⟨-, rfl⟩⟩ := step_wake hs <;>
      rw [record_eq_self rfl fun _ => rfl] <;>
      exact h.set_call hi (fun p => p.call_ne_waiting key f d) (by simp) (by simp) rfl rfl
  | timeOut i =>
    obtain ⟨key, f, d, hi, -, rfl⟩ := step_timeOut hs
    rw [record_eq_self rfl fun _ => rfl]
    exact h.set_call hi (fun p => p.call_ne_waiting key f (some d)) (by simp) (by simp) rfl rfl

/-- The productions of a run from `s` on, with those before it. -/
def productions : Shared κ ε α → List (Production κ ε α) → List (Event κ ε α) →
    List (Production κ ε α)
  | _, ps, [] => ps
  | s, ps, e :: es =>
    match s.step e with
    | none => ps
    | some s' => productions s' (record e s' ps) es

theorem Told.run (h : Told s ps) (hI : Inv s) {es : List (Event κ ε α)} (hs : s.run es = some s') :
    Told s' (productions s ps es) := by
  induction es generalizing s ps with
  | nil => cases hs; exact h
  | cons e es ih =>
    obtain ⟨s₁, h₁, h₂⟩ := Option.bind_eq_some_iff.1 (run_cons s e es ▸ hs)
    simp only [productions, h₁]
    exact ih (h.step hI h₁) (hI.step h₁) h₂

/-! ## How calls end -/

/-- How call `j` comes to its answer by an event. -/
inductive Answered (s : Shared κ ε α) (ps : List (Production κ ε α)) (j : Nat) :
    Event κ ε α → Except (CacheError ε) α → Prop
  /-- It finds an entry. -/
  | found {key : κ} {d : Option Deadline} {x : Entry κ α} : s.calls[j]? = some (.asking key d) →
      s.cache.find? key = some x → Answered s ps j (.ask j) (.ok x.value)
  /-- Its own production ends with the result. -/
  | led {p : Production κ ε α} {r : Except ε α} : p ∈ ps → p.caller = j → p.landing = .running →
      Answered s ps j (.finish j r) (r.mapError .producer)
  /-- The production that it waits for has ended with the result. -/
  | shared {p : Production κ ε α} {d : Option Deadline} {r : Except ε α} : p ∈ ps →
      s.calls[j]? = some (.waiting p.key p.flight d) → p.landing = .landed r →
      Answered s ps j (.wake j) (r.mapError .producer)
  /-- The production that it waits for is still running. -/
  | timedOut {p : Production κ ε α} {d : Deadline} : p ∈ ps →
      s.calls[j]? = some (.waiting p.key p.flight (some d)) → p.landing = .running →
      Answered s ps j (.timeOut j) (.error .waitTimedOut)

omit [DecidableEq κ] [HasWeight α] in
/-- A waiter sees how far the production is that it waits for. -/
theorem Told.landing_eq (h : Told s ps) {p : Production κ ε α} (hp : p ∈ ps) :
    s.cache.landing p.flight = p.landing := by
  rw [Cache.landing, h.landing hp, Option.getD_some]

theorem Told.answered (h : Told s ps) {e : Event κ ε α} (hs : s.step e = some s') {j : Nat}
    {c : Call κ ε α} {a : Except (CacheError ε) α} (hj : s.calls[j]? = some c)
    (hc : c ≠ .done a) (ha : s'.calls[j]? = some (.done a)) : Answered s ps j e a := by
  have he : e.caller? = some j := Classical.byContradiction fun he =>
    hc (Option.some.inj ((step_other hs hj he).symm.trans ha))
  cases e <;> simp only [Event.caller?, Option.some.injEq, reduceCtorEq] at he <;> subst he
  case ask i =>
    obtain ⟨key, d, hi, rfl⟩ := step_ask hs
    rw [getElem?_set_call hi, if_pos rfl] at ha
    rcases enter_cases s.cache key with ⟨x, hx, he⟩ | ⟨f, -, -, he⟩ | ⟨-, -, he⟩ <;> rw [he] at ha
    · cases ha
      exact .found hi hx
    · cases ha
    · cases ha
  case finish i r =>
    obtain ⟨key, f, hi, rfl⟩ := step_finish hs
    rw [getElem?_set_call hi, if_pos rfl] at ha
    cases ha
    obtain ⟨p, hp, hpi, -, -, hr⟩ := h.leading hi
    exact .led hp hpi hr
  case unwind i =>
    obtain ⟨key, f, hi, rfl⟩ := step_unwind hs
    rw [getElem?_set_call hi, if_pos rfl] at ha
    cases ha
  case wake i =>
    obtain ⟨key, f, d, hi, ⟨r, hl, rfl⟩ | ⟨-, rfl⟩⟩ := step_wake hs <;>
      rw [getElem?_set_call hi, if_pos rfl] at ha <;> cases ha
    obtain ⟨p, hp, rfl, rfl⟩ := h.waited hi
    exact .shared hp hi ((h.landing_eq hp).symm.trans hl)
  case timeOut i =>
    obtain ⟨key, f, d, hi, hl, rfl⟩ := step_timeOut hs
    rw [getElem?_set_call hi, if_pos rfl] at ha
    cases ha
    obtain ⟨p, hp, rfl, rfl⟩ := h.waited hi
    exact .timedOut hp hi ((h.landing_eq hp).symm.trans hl)

/-- A waiter of an unwound production can only start over. -/
theorem Told.startOver (h : Told s ps) {p : Production κ ε α} (hp : p ∈ ps)
    (ha : p.landing = .abandoned) {j : Nat} {d : Option Deadline}
    (hj : s.calls[j]? = some (.waiting p.key p.flight d)) :
    s.step (.wake j) = some { s with calls := s.calls.set j (.asking p.key d) } ∧
      ∀ {e s'}, s.step e = some s' → e.caller? = some j → e = .wake j :=
  wake_of_abandoned hj ((h.landing_eq hp).trans ha)

/-! ## Every run -/

/-- What holds of a cache and the productions of its run. -/
structure SingleFlight (s : Shared κ ε α) (ps : List (Production κ ε α)) : Prop where
  /-- No key has two slots. -/
  slots_nodup : (s.cache.slots.map Prod.fst).Nodup
  /-- The slots are those of the productions that are running and not invalidated. -/
  mem_slots_iff : ∀ {key f}, (key, f) ∈ s.cache.slots ↔
    ∃ p ∈ ps, p.key = key ∧ p.flight = f ∧ p.landing = .running ∧ p.invalidated = false
  /-- No caller's producer is run twice. -/
  callers_nodup : (ps.map Production.caller).Nodup
  /-- The caller of a production leads while it runs, and then returns or unwinds as it does. -/
  called : ∀ {p}, p ∈ ps → s.calls[p.caller]? = some p.call
  /-- Who begins a production has found neither an entry nor a slot. -/
  leads : ∀ {i s' key f}, s.step (.ask i) = some s' → s'.calls[i]? = some (.leading key f) →
    s.cache.find? key = none ∧ ∀ g, (key, g) ∉ s.cache.slots
  answered : ∀ {e s' c a} {j : Nat}, s.step e = some s' → s.calls[j]? = some c → c ≠ .done a →
    s'.calls[j]? = some (.done a) → Answered s ps j e a
  /-- Who waits for an unwound production starts over, and does nothing else. -/
  startsOver : ∀ {p d} {j : Nat}, p ∈ ps → p.landing = .abandoned →
    s.calls[j]? = some (.waiting p.key p.flight d) →
    s.step (.wake j) = some { s with calls := s.calls.set j (.asking p.key d) } ∧
      ∀ {e s'}, s.step e = some s' → e.caller? = some j → e = .wake j

theorem single_flight {capacity : Capacity} {es : List (Event κ ε α)}
    (hs : (start capacity).run es = some s) : SingleFlight s (productions (start capacity) [] es) := by
  have hI := inv_of_run hs
  have h := (Told.start capacity).run (Inv.start capacity) hs
  refine ⟨hI.slots_nodup, fun {key f} => ?_, h.callers_nodup, h.called, fun {i s' key f} hask hi => ?_,
    fun hs hj hc ha => h.answered hs hj hc ha, fun hp ha hj => h.startOver hp ha hj⟩
  · constructor
    · intro hm
      obtain ⟨i, hi⟩ := hI.slot_led hm
      obtain ⟨p, hp, -, rfl, rfl, hr⟩ := h.leading hi
      exact ⟨p, hp, rfl, rfl, hr, (h.slot hp hr).1 hm⟩
    · rintro ⟨p, hp, rfl, rfl, hr, hinv⟩
      exact (h.slot hp hr).2 hinv
  · obtain ⟨key', d, hi', rfl⟩ := step_ask hask
    rw [getElem?_set_call hi', if_pos rfl] at hi
    rcases enter_cases s.cache key' with ⟨x, -, he⟩ | ⟨g, -, -, he⟩ | ⟨hnone, hno, he⟩ <;> rw [he] at hi
    · cases hi
    · cases hi
    · cases hi
      exact ⟨hnone, hno⟩

/-- The first production unwinds; its waiter starts over and leads the second, which fails a third caller. -/
theorem single_flight_retry :
    ∃ s s' : Shared Nat String Script.Item,
      (start (.entries 2)).run [.call 0 none, .ask 0, .call 0 none, .ask 1, .unwind 0, .wake 1,
        .ask 1, .call 0 none, .ask 2, .finish 1 (.error "e")] = some s ∧
      SingleFlight s [⟨1, 0, 1, false, .landed (.error "e")⟩, ⟨0, 0, 0, false, .abandoned⟩] ∧
      s.step (.wake 2) = some s' ∧ s'.calls[2]? = some (.done (.error (.producer "e"))) ∧
      Answered s [⟨1, 0, 1, false, .landed (.error "e")⟩, ⟨0, 0, 0, false, .abandoned⟩] 2 (.wake 2)
        (.error (.producer "e")) := by
  have hs : (start (.entries 2) : Shared Nat String Script.Item).run [.call 0 none, .ask 0,
      .call 0 none, .ask 1, .unwind 0, .wake 1, .ask 1, .call 0 none, .ask 2,
      .finish 1 (.error "e")] = some _ := rfl
  have h := single_flight hs
  exact ⟨_, _, rfl, h, rfl, rfl, h.answered rfl rfl (c := .waiting 0 1 none) (by simp) rfl⟩

end

end Shared

end ConfigCompiler.Cache
