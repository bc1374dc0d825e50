import ConfigCompiler.Proofs.Cache.Leaders

/-!
# Productions that fail leave no trace

A production that ends with an error, or whose producer unwinds, changes nothing of a cache but its own flight
and its own slot (`vacate`, `Inv.untraced`). Who waits for it receives its error, or, where it unwound, starts
over: the call goes after its key until it leads or is over (`Pursues`), wakes to ask again
(`Inv.retries`), and then finds what there is by then (`Asked`). `failure_leaves_no_trace` puts these together.
-/

namespace ConfigCompiler.Cache

variable {κ ε α : Type} [DecidableEq κ]

/-! ## The end of a flight that admits nothing -/

/-- Flight `f` of a key has ended and owns no slot; the rest is as it was. -/
def vacate (c : Cache κ ε α) (key : κ) (f : Nat) (ended : Flight ε α → Flight ε α) : Cache κ ε α :=
  { c with
    slots := c.slots.filter (· ≠ (key, f))
    flights := c.flights.modify f ended }

theorem finish_error [HasWeight α] (c : Cache κ ε α) (key : κ) (f : Nat) (e : ε) :
    c.finish key f (.error e) = (c.vacate key f (·.land (.error e)), []) := rfl

theorem unwind_eq_vacate (c : Cache κ ε α) (key : κ) (f : Nat) :
    c.unwind key f = c.vacate key f Flight.abandon := rfl

theorem landing_vacate {c : Cache κ ε α} {f : Nat} (hf : f < c.flights.size) (key : κ)
    {ended : Flight ε α → Flight ε α} {l : Landing ε α} (he : ∀ fl, (ended fl).landing = l) :
    (c.vacate key f ended).flights[f]?.map Flight.landing = some l := by
  rw [vacate, Array.getElem?_modify, if_pos rfl, Array.getElem?_eq_getElem hf, Option.map_some,
    Option.map_some, he]

/-- What the end of flight `f` of a key leaves of a cache. -/
structure Untraced (key : κ) (f : Nat) (ended : Flight ε α → Flight ε α) (c c' : Cache κ ε α) : Prop where
  /-- Entries, weight, counters and all other flights are the same. -/
  cache : c' = c.vacate key f ended
  /-- The slots of other flights stay. -/
  others : ∀ {slot : κ × Nat}, slot.2 ≠ f → (slot ∈ c'.slots ↔ slot ∈ c.slots)
  /-- A slot that was still the flight's own is free. -/
  freed : (key, f) ∈ c.slots → ∀ g, (key, g) ∉ c'.slots
  /-- If it was not, no slot changes. -/
  kept : (key, f) ∉ c.slots → c'.slots = c.slots

namespace Shared

variable {s s' t : Shared κ ε α}

theorem Inv.untraced (h : Inv s) (key : κ) (f : Nat) (ended : Flight ε α → Flight ε α) :
    Untraced key f ended s.cache (s.cache.vacate key f ended) where
  cache := rfl
  others {slot} hslot := by
    have hne : slot ≠ (key, f) := fun heq => hslot (congrArg Prod.snd heq)
    simp [vacate, hne]
  freed hown g hg := by
    obtain ⟨hg, hne⟩ := List.mem_filter.1 hg
    have heq : (key, g) = (key, f) := List.inj_on_of_nodup_map h.slots_nodup hg hown rfl
    simp [heq] at hne
  kept hno := by
    change (s.cache.release key f).slots = s.cache.slots
    rw [release_of_detached hno]

/-! ## Starting over -/

/-- A call goes after a key. -/
inductive Pursues (key : κ) (d : Option Deadline) : Call κ ε α → Prop
  | asking : Pursues key d (.asking key d)
  | waiting (f : Nat) : Pursues key d (.waiting key f d)
  | leading (f : Nat) : Pursues key d (.leading key f)
  | done (r : Except (CacheError ε) α) : Pursues key d (.done r)
  | unwound : Pursues key d .unwound

/-- What call `j` comes to that asks for a key. -/
inductive Asked (s : Shared κ ε α) (j : Nat) (key : κ) (d : Option Deadline) : Shared κ ε α → Prop
  | found {e : Entry κ α} : s.cache.find? key = some e →
      Asked s j key d ⟨s.cache.hit e, s.calls.set j (.done (.ok e.value))⟩
  | waits {g : Nat} : s.cache.find? key = none → (key, g) ∈ s.cache.slots →
      Asked s j key d { s with calls := s.calls.set j (.waiting key g d) }
  | leads : s.cache.find? key = none → (∀ g, (key, g) ∉ s.cache.slots) →
      Asked s j key d
        ⟨s.cache.takeOff key, s.calls.set j (.leading key s.cache.flights.size)⟩

section
variable [HasWeight α] {j : Nat} {key : κ} {d : Option Deadline}

theorem asked_of_asking (hj : s.calls[j]? = some (.asking key d)) :
    ∃ s', s.step (.ask j) = some s' ∧ Asked s j key d s' := by
  refine ⟨⟨(s.cache.enter key).1, s.calls.set j (entered key d (s.cache.enter key).2)⟩, ?_, ?_⟩
  · simp only [step, hj]
  rcases enter_cases s.cache key with ⟨e, hfind, he⟩ | ⟨g, hfind, hslot, he⟩ | ⟨hfind, hfree, he⟩ <;> rw [he]
  · exact .found hfind
  · exact .waits hfind hslot
  · exact .leads hfind hfree

omit [HasWeight α] in
theorem Asked.pursues (hj : s.calls[j]? = some (.asking key d)) (h : Asked s j key d s') :
    ∃ c, s'.calls[j]? = some c ∧ Pursues key d c := by
  have hset (c : Call κ ε α) : (s.calls.set j c)[j]? = some c := (getElem?_set_call hj c j).trans (if_pos rfl)
  cases h with
  | found => exact ⟨_, hset _, .done _⟩
  | @waits g => exact ⟨_, hset _, .waiting g⟩
  | leads => exact ⟨_, hset _, .leading _⟩

theorem pursues_step {c : Call κ ε α} (hc : Pursues key d c) (hj : s.calls[j]? = some c) {e : Event κ ε α}
    (hs : s.step e = some s') : ∃ c', s'.calls[j]? = some c' ∧ Pursues key d c' := by
  by_cases he : e.caller? = some j
  · have hset (c' : Call κ ε α) : (s.calls.set j c')[j]? = some c' :=
      (getElem?_set_call hj c' j).trans (if_pos rfl)
    cases e <;> simp only [Event.caller?, Option.some.injEq, reduceCtorEq] at he <;> subst he
    case ask i =>
      obtain ⟨key', d', hi, -⟩ := step_ask hs
      cases hj.symm.trans hi
      cases hc
      obtain ⟨s₁, h₁, hasked⟩ := asked_of_asking hj
      cases h₁.symm.trans hs
      exact hasked.pursues hj
    case finish i r =>
      obtain ⟨key', f, -, rfl⟩ := step_finish hs
      exact ⟨_, hset _, .done _⟩
    case unwind i =>
      obtain ⟨key', f, -, rfl⟩ := step_unwind hs
      exact ⟨_, hset _, .unwound⟩
    case wake i =>
      obtain ⟨key', f, d', hi, ⟨r, -, rfl⟩ | ⟨-, rfl⟩⟩ := step_wake hs
      · exact ⟨_, hset _, .done _⟩
      · cases hj.symm.trans hi
        cases hc
        exact ⟨_, hset _, .asking⟩
    case timeOut i =>
      obtain ⟨key', f, d', -, -, rfl⟩ := step_timeOut hs
      exact ⟨_, hset _, .done _⟩
  · exact ⟨c, step_other hs hj he, hc⟩

/-- Call `j`, which waited for flight `f`, starts over in the course of a run from `s` to `t`. -/
structure Retries (s : Shared κ ε α) (es : List (Event κ ε α)) (t : Shared κ ε α) (f j : Nat) (key : κ)
    (d : Option Deadline) : Prop where
  /-- It has woken to ask again, or can do nothing else yet. -/
  wakes : (∃ before after u, es = before ++ .wake j :: after ∧ s.run before = some u ∧
      u.calls[j]? = some (.waiting key f d) ∧
      u.step (.wake j) = some { u with calls := u.calls.set j (.asking key d) }) ∨
    t.calls[j]? = some (.waiting key f d) ∧
      t.step (.wake j) = some { t with calls := t.calls.set j (.asking key d) } ∧
      ∀ {e t'}, t.step e = some t' → e.caller? = some j → e = .wake j
  /-- It goes after the same key with the same deadline, however often it has to start over. -/
  pursues : ∃ c, t.calls[j]? = some c ∧ Pursues key d c
  asks : t.calls[j]? = some (.asking key d) → ∃ t', t.step (.ask j) = some t' ∧ Asked t j key d t'

theorem Inv.retries (h : Inv s) {es : List (Event κ ε α)} (hs : s.run es = some t) {f : Nat}
    (hf : s.cache.flights[f]?.map Flight.landing = some .abandoned)
    (hj : s.calls[j]? = some (.waiting key f d)) : Retries s es t f j key d := by
  have habandoned {before : List (Event κ ε α)} {u : Shared κ ε α} (hu : s.run before = some u) :
      u.cache.landing f = .abandoned := by
    have hend := run_induction
      (fun s => Inv s ∧ s.cache.flights[f]?.map Flight.landing = some .abandoned)
      (fun _ _ _ h hs => ⟨h.1.step hs, step_ended h.1 hs (by simp) h.2⟩) ⟨h, hf⟩ hu
    rw [Cache.landing, hend.2, Option.getD_some]
  refine ⟨?_, ?_, asked_of_asking⟩
  · rcases run_own_step hs hj with hsame | ⟨before, e, after, u, u', hes, hown, hu, hju, hstep, -⟩
    · exact .inr ⟨hsame, wake_of_abandoned hsame (habandoned hs)⟩
    · obtain ⟨hwake, honly⟩ := wake_of_abandoned hju (habandoned hu)
      obtain rfl := honly hstep hown
      exact .inl ⟨before, after, u, hes, hu, hju, hwake⟩
  · refine run_induction (fun s => ∃ c, s.calls[j]? = some c ∧ Pursues key d c) ?_ ⟨_, hj, .waiting f⟩ hs
    rintro u e u' ⟨c, hju, hc⟩ hstep
    exact pursues_step hc hju hstep

end

/-! ## Failures -/

section
variable [HasWeight α]

/--
A production that ends with an error, or whose producer unwinds, leaves the cache as it was apart from its own
flight and slot. On an error, whoever waits for it returns this error. On unwinding they start over, and two of
them lead the key at once only if it has been invalidated after one of them began to lead and before the other
did.
-/
theorem failure_leaves_no_trace {capacity : Capacity} {es : List (Event κ ε α)} {i f : Nat} {key : κ}
    (hs : (start capacity).run es = some s) (hi : s.calls[i]? = some (.leading key f)) :
    (∀ err, ∃ s', s.step (.finish i (.error err)) = some s' ∧
      Untraced key f (·.land (.error err)) s.cache s'.cache ∧
      s'.calls = s.calls.set i (.done (.error (.producer err))) ∧
      ∀ {j key' d}, s.calls[j]? = some (.waiting key' f d) →
        ∀ {es' t}, s'.run es' = some t → Receives f j (.error err) t) ∧
    ∃ s', s.step (.unwind i) = some s' ∧ Untraced key f Flight.abandon s.cache s'.cache ∧
      s'.calls = s.calls.set i .unwound ∧
      ∀ {es' t}, s'.run es' = some t →
        (∀ {j key' d}, s.calls[j]? = some (.waiting key' f d) →
          key' = key ∧ Retries s' es' t f j key d) ∧
        ∀ {j j' d d' g g'}, j ≠ j' → s.calls[j]? = some (.waiting key f d) →
          s.calls[j']? = some (.waiting key f d') → t.calls[j]? = some (.leading key g) →
          t.calls[j']? = some (.leading key g') →
          InvalidatedBetween s' es' key j j' ∨ InvalidatedBetween s' es' key j' j := by
  have hI := inv_of_run hs
  have hlt := hI.led_lt hi
  have hne {j : Nat} {key' : κ} {d : Option Deadline} (hj : s.calls[j]? = some (.waiting key' f d)) :
      i ≠ j := by
    rintro rfl
    cases hi.symm.trans hj
  constructor
  · intro err
    have hstep := finish_enabled hi (.error err)
    rw [finish_error] at hstep
    refine ⟨_, hstep, hI.untraced key f _, rfl, fun {j key' d} hj {es' t} ht => ?_⟩
    have hf : (s.cache.vacate key f (·.land (.error err))).flights[f]?.map Flight.landing =
        some (.landed (.error err)) := landing_vacate hlt key fun _ => rfl
    have hj' := step_other hstep hj (by simpa [Event.caller?] using hne hj)
    exact receives_run (hI.step hstep) ht hf (receives_of_landed hf hj')
  · have hstep := unwind_enabled hi
    rw [unwind_eq_vacate] at hstep
    have hI' := hI.step hstep
    refine ⟨_, hstep, hI.untraced key f _, rfl, fun {es' t} ht => ⟨fun {j key' d} hj => ?_, ?_⟩⟩
    · obtain rfl := (hI.waited hj).2 hi
      have hj' := step_other hstep hj (by simpa [Event.caller?] using hne hj)
      exact ⟨rfl, hI'.retries ht (landing_vacate hlt key fun _ => rfl) hj'⟩
    · intro j j' d d' g g' hjj' hj hj' hled hled'
      have hIt := hI'.run ht
      -- both are given their flights after the unwinding
      have hlate {j g : Nat} {d : Option Deadline} (hj : s.calls[j]? = some (.waiting key f d))
          (hled : t.calls[j]? = some (.leading key g)) :
          (s.cache.vacate key f Flight.abandon).flights.size ≤ g := by
        refine Nat.le_of_not_lt fun hearly => ?_
        have hwaits := step_other hstep hj (by simpa [Event.caller?] using hne hj)
        cases (leading_before ht hled hearly).symm.trans hwaits
      rcases Nat.lt_trichotomy g g' with hlt | rfl | hlt
      · exact .inl (hI'.leading_apart ht hled hled' (hlate hj hled) hlt)
      · exact absurd (hIt.leader_unique hled hled') hjj'
      · exact .inr (hI'.leading_apart ht hled' hled (hlate hj' hled') hlt)

/--
Two callers wait while a production of key 0 is running and key 1 has an entry. If it fails, they return its
error; if it unwinds, one leads, and after an invalidation so does the other.
-/
theorem failure_leaves_no_trace_waiters :
    ∃ s s₁ s₂ t : Shared Nat String Script.Item,
      (start (.entries 2)).run [.insert 1 ⟨7, 1⟩, .call 0 none, .ask 0, .call 0 none, .ask 1,
        .call 0 none, .ask 2] = some s ∧ s.calls[0]? = some (.leading 0 0) ∧
      s.step (.finish 0 (.error "e")) = some s₁ ∧ s₁.cache.entries = [⟨1, ⟨7, 1⟩, 1⟩] ∧
      s₁.cache.slots = [] ∧ Receives 0 1 (.error "e") s₁ ∧ Receives 0 2 (.error "e") s₁ ∧
      s.step (.unwind 0) = some s₂ ∧ Untraced 0 0 Flight.abandon s.cache s₂.cache ∧
      s₂.run [.wake 1, .ask 1, .invalidate (· == 0), .wake 2, .ask 2] = some t ∧
      t.calls = [.unwound, .leading 0 1, .leading 0 2] ∧
      (InvalidatedBetween s₂ [.wake 1, .ask 1, .invalidate (· == 0), .wake 2, .ask 2] 0 1 2 ∨
        InvalidatedBetween s₂ [.wake 1, .ask 1, .invalidate (· == 0), .wake 2, .ask 2] 0 2 1) := by
  obtain ⟨s, hs⟩ : ∃ s : Shared Nat String Script.Item, (start (.entries 2)).run [.insert 1 ⟨7, 1⟩,
      .call 0 none, .ask 0, .call 0 none, .ask 1, .call 0 none, .ask 2] = some s := ⟨_, rfl⟩
  obtain rfl := Option.some.inj hs
  obtain ⟨hfailed, s₂, h₂, huntraced, -, hafter⟩ := failure_leaves_no_trace hs (i := 0) (f := 0) rfl
  obtain ⟨s₁, h₁, huntraced₁, -, hreceives⟩ := hfailed "e"
  cases h₂
  refine ⟨_, s₁, _, _, rfl, rfl, h₁, ?_, ?_, ?_, ?_, rfl, huntraced, rfl, rfl, ?_⟩
  · rw [huntraced₁.cache]
    rfl
  · rw [huntraced₁.cache]
    rfl
  · exact @hreceives 1 0 none rfl [] s₁ rfl
  · exact @hreceives 2 0 none rfl [] s₁ rfl
  · exact (hafter rfl).2 (by decide : 1 ≠ 2) rfl rfl rfl rfl

end

end Shared

end ConfigCompiler.Cache
