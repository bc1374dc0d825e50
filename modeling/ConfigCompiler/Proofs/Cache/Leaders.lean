import ConfigCompiler.Proofs.Cache.Growth
import ConfigCompiler.Proofs.Cache.Invalidation

/-!
# Who leads a key, one after another

What happens to one call during a run: it stays as it is until its first own step (`run_own_step`), it leads
from the step on with which it was given its flight (`run_lead`), and it asks no more once it has led
(`settled_run`). So of two calls that lead one key at once, the later one was given its flight while the
earlier one was leading, and the earlier one had lost its slot by then: the key has been invalidated in between
(`InvalidatedBetween`, `Inv.leading_apart`).
-/

namespace ConfigCompiler.Cache

variable {κ ε α : Type}

/-- A call that has led or is over. -/
def Call.settled : Call κ ε α → Bool
  | .asking _ _ => false
  | .waiting _ _ _ => false
  | _ => true

namespace Shared

section
variable [DecidableEq κ] [HasWeight α] {s s' t : Shared κ ε α}

theorem run_append (s : Shared κ ε α) (es es' : List (Event κ ε α)) :
    s.run (es ++ es') = (s.run es).bind (·.run es') := List.foldlM_append

/-! ## The steps of one call -/

/-- A call stays as it is until it makes a step itself. -/
theorem run_own_step {es : List (Event κ ε α)} (hs : s.run es = some t) {j : Nat} {c : Call κ ε α}
    (hj : s.calls[j]? = some c) :
    t.calls[j]? = some c ∨ ∃ before e after u u', es = before ++ e :: after ∧ e.caller? = some j ∧
      s.run before = some u ∧ u.calls[j]? = some c ∧ u.step e = some u' ∧ u'.run after = some t := by
  induction es generalizing s with
  | nil =>
    cases hs
    exact .inl hj
  | cons e es ih =>
    obtain ⟨s₁, h₁, h₂⟩ := Option.bind_eq_some_iff.1 (run_cons s e es ▸ hs)
    by_cases he : e.caller? = some j
    · exact .inr ⟨[], e, es, s, s₁, rfl, he, rfl, hj, h₁, h₂⟩
    · rcases ih h₂ (step_other h₁ hj he) with hsame | ⟨before, e', after, u, u', rfl, hown, hu, hrest⟩
      · exact .inl hsame
      · refine .inr ⟨e :: before, e', after, u, u', rfl, hown, ?_, hrest⟩
        rw [run_cons, h₁]
        exact hu

theorem settled_step {e : Event κ ε α} (hs : s.step e = some s') {j : Nat} {c : Call κ ε α}
    (hj : s.calls[j]? = some c) (hc : c.settled = true) :
    ∃ c', s'.calls[j]? = some c' ∧ c'.settled = true := by
  by_cases he : e.caller? = some j
  · cases e <;> simp only [Event.caller?, Option.some.injEq, reduceCtorEq] at he <;> subst he
    case finish i r =>
      obtain ⟨key, f, hi, rfl⟩ := step_finish hs
      exact ⟨_, (getElem?_set_call hi _ i).trans (if_pos rfl), rfl⟩
    case unwind i =>
      obtain ⟨key, f, hi, rfl⟩ := step_unwind hs
      exact ⟨_, (getElem?_set_call hi _ i).trans (if_pos rfl), rfl⟩
    -- who asks or waits has not led
    case ask i =>
      obtain ⟨key, d, hi, -⟩ := step_ask hs
      cases hj.symm.trans hi
      cases hc
    case wake i =>
      obtain ⟨key, f, d, hi, -⟩ := step_wake hs
      cases hj.symm.trans hi
      cases hc
    case timeOut i =>
      obtain ⟨key, f, d, hi, -⟩ := step_timeOut hs
      cases hj.symm.trans hi
      cases hc
  · exact ⟨c, step_other hs hj he, hc⟩

theorem settled_run {es : List (Event κ ε α)} (hs : s.run es = some t) {j : Nat} {c : Call κ ε α}
    (hj : s.calls[j]? = some c) (hc : c.settled = true) :
    ∃ c', t.calls[j]? = some c' ∧ c'.settled = true := by
  refine run_induction (fun s => ∃ c, s.calls[j]? = some c ∧ c.settled = true) ?_ ⟨c, hj, hc⟩ hs
  rintro u e u' ⟨c, hju, hc⟩ hstep
  exact settled_step hstep hju hc

/-! ## Leaders -/

/-- Flights are never removed. -/
theorem size_flights_step {e : Event κ ε α} (hs : s.step e = some s') :
    s.cache.flights.size ≤ s'.cache.flights.size := by
  cases e with
  | get key => cases hs; simp
  | insert key v => cases hs; simp
  | invalidate doomed =>
    cases hs
    refine Nat.le_of_not_lt fun hlt => ?_
    have h := getElem?_invalidate_flights s.cache doomed (s.cache.invalidate doomed).1.flights.size
    simp [Array.getElem?_eq_getElem hlt] at h
  | call key d => cases hs; exact Nat.le_refl _
  | ask i =>
    obtain ⟨key, d, -, rfl⟩ := step_ask hs
    rcases enter_cases s.cache key with ⟨x, -, he⟩ | ⟨g, -, -, he⟩ | ⟨-, -, he⟩
    · simp [he]
    · simp [he]
    · simp [he]
  | finish i r =>
    obtain ⟨key, f, -, rfl⟩ := step_finish hs
    simp
  | unwind i =>
    obtain ⟨key, f, -, rfl⟩ := step_unwind hs
    simp [unwind, release]
  | wake i =>
    obtain ⟨key, f, d, -, ⟨r, -, rfl⟩ | ⟨-, rfl⟩⟩ := step_wake hs <;> exact Nat.le_refl _
  | timeOut i =>
    obtain ⟨key, f, d, -, -, rfl⟩ := step_timeOut hs
    exact Nat.le_refl _

theorem size_flights_run {es : List (Event κ ε α)} (hs : s.run es = some t) :
    s.cache.flights.size ≤ t.cache.flights.size :=
  run_induction (fun u => s.cache.flights.size ≤ u.cache.flights.size)
    (fun _ _ _ h hs => Nat.le_trans h (size_flights_step hs)) (Nat.le_refl _) hs

/-- Call `j` is given flight `g`, in a slot that was free. -/
structure Leads (s s' : Shared κ ε α) (j g : Nat) (key : κ) : Prop where
  step : s.step (.ask j) = some s'
  asked : ∃ d, s.calls[j]? = some (.asking key d)
  free : ∀ f, (key, f) ∉ s.cache.slots
  flight : g = s.cache.flights.size
  cache : s'.cache = s.cache.takeOff key
  leading : s'.calls[j]? = some (.leading key g)

theorem leads_of_step {e : Event κ ε α} (hs : s.step e = some s') {j g : Nat} {key : κ}
    (hj : s'.calls[j]? = some (.leading key g)) :
    s.calls[j]? = some (.leading key g) ∨ (e = .ask j ∧ Leads s s' j g key) := by
  refine (leading_of_step hs hj).imp_right ?_
  rintro ⟨rfl, -⟩
  refine ⟨rfl, ?_⟩
  obtain ⟨k, d, hi, rfl⟩ := step_ask hs
  have hcall := hj
  rw [getElem?_set_call hi, if_pos rfl] at hcall
  rcases enter_cases s.cache k with ⟨x, -, he⟩ | ⟨f, -, -, he⟩ | ⟨-, hfree, he⟩ <;> rw [he] at hcall
  · cases hcall
  · cases hcall
  · cases hcall
    exact ⟨hs, ⟨d, hi⟩, hfree, rfl, congrArg Prod.fst he, hj⟩

/-- A leader led from the start of a run on, or was given its flight on the way. -/
theorem run_lead {es : List (Event κ ε α)} (hs : s.run es = some t) {j g : Nat} {key : κ}
    (hj : t.calls[j]? = some (.leading key g)) :
    s.calls[j]? = some (.leading key g) ∨ ∃ before after u u', es = before ++ .ask j :: after ∧
      s.run before = some u ∧ Leads u u' j g key ∧ u'.run after = some t := by
  induction es generalizing s with
  | nil =>
    cases hs
    exact .inl hj
  | cons e es ih =>
    obtain ⟨s₁, h₁, h₂⟩ := Option.bind_eq_some_iff.1 (run_cons s e es ▸ hs)
    rcases ih h₂ with hled | ⟨before, after, u, u', rfl, hu, hrest⟩
    · rcases leads_of_step h₁ hled with hled | ⟨rfl, hleads⟩
      · exact .inl hled
      · exact .inr ⟨[], es, s, s₁, rfl, rfl, hleads, h₂⟩
    · refine .inr ⟨e :: before, after, u, u', rfl, ?_, hrest⟩
      rw [run_cons, h₁]
      exact hu

/-- Who leads a flight that there was before, led it before. -/
theorem leading_before {es : List (Event κ ε α)} (hs : s.run es = some t) {j g : Nat} {key : κ}
    (hj : t.calls[j]? = some (.leading key g)) (hg : g < s.cache.flights.size) :
    s.calls[j]? = some (.leading key g) := by
  rcases run_lead hs hj with hled | ⟨before, after, u, u', -, hu, hleads, -⟩
  · exact hled
  · have hsize := size_flights_run hu
    have hflight := hleads.flight
    omega

/-! ## Two leaders of one key -/

/-- During a run the key is invalidated when call `j` leads it and call `j'` does not yet. -/
def InvalidatedBetween (s : Shared κ ε α) (es : List (Event κ ε α)) (key : κ) (j j' : Nat) : Prop :=
  ∃ before doomed after u, es = before ++ .invalidate doomed :: after ∧ doomed key = true ∧
    s.run before = some u ∧ (∃ g, u.calls[j]? = some (.leading key g)) ∧
    ∀ g, u.calls[j']? ≠ some (.leading key g)

/-- The only production of a key since its flight took off is the one that was given it. -/
theorem Leads.owning {j g : Nat} {key : κ} (h : Inv s) (hl : Leads s t j g key) : Owning g key t := by
  intro j' g' hj' hg'
  have hlt := (h.step hl.step).led_lt hj'
  rw [hl.cache, takeOff, Array.size_push] at hlt
  have hflight := hl.flight
  obtain rfl : g' = g := by omega
  obtain rfl := (h.step hl.step).leader_unique hl.leading hj'
  cases hl.leading.symm.trans hj'
  rw [hl.cache, hl.flight]
  exact List.mem_cons_self

/-- Who leads a key while another one does was given its flight after the key had been invalidated. -/
theorem Inv.leading_apart (h : Inv s) {es : List (Event κ ε α)} (hs : s.run es = some t) {j j' g g' : Nat}
    {key : κ} (hj : t.calls[j]? = some (.leading key g)) (hj' : t.calls[j']? = some (.leading key g'))
    (hg : s.cache.flights.size ≤ g) (hlt : g < g') : InvalidatedBetween s es key j j' := by
  -- the earlier call is given its flight by a step from `u` to `u'`
  rcases run_lead hs hj with hled | ⟨before, after, u, u', rfl, hu, hleads, hafter⟩
  · have := h.led_lt hled
    omega
  have hIu' := (h.run hu).step hleads.step
  have hsize : u'.cache.flights.size = g + 1 := by
    rw [hleads.cache, hleads.flight, takeOff, Array.size_push]
  -- the later one by a step from `v`, when the key has no slot
  rcases run_lead hafter hj' with hled | ⟨before', after', v, v', rfl, hv, hleads', hafter'⟩
  · have := hIu'.led_lt hled
    omega
  have hvt : v.run (.ask j' :: after') = some t := by
    rw [run_cons, hleads'.step]
    exact hafter'
  have hjv : v.calls[j]? = some (.leading key g) := by
    refine leading_before hvt hj ?_
    have := hleads'.flight
    omega
  -- so the earlier one has lost its slot on the way to `v`
  have hdoomed : ∃ doomed, .invalidate doomed ∈ before' ∧ doomed key = true := by
    refine Classical.byContradiction fun hno => hleads'.free g ?_
    have howning : Owning g key u' := hleads.owning (h.run hu)
    refine howning.run hIu' hv (fun doomed hm => ?_) hjv (Nat.le_refl g)
    exact Bool.eq_false_iff.2 fun hd => hno ⟨doomed, hm, hd⟩
  obtain ⟨doomed, hm, hd⟩ := hdoomed
  obtain ⟨before'', after'', rfl⟩ := List.append_of_mem hm
  rw [run_append] at hv
  obtain ⟨w, hw, hwv⟩ := Option.bind_eq_some_iff.1 hv
  have hus : s.run (before ++ .ask j :: before'') = some w := by
    rw [run_append, hu, Option.bind_some, run_cons, hleads.step]
    exact hw
  refine ⟨before ++ .ask j :: before'', doomed, after'' ++ .ask j' :: after', w, by simp, hd, hus,
    ⟨g, ?_⟩, fun g₂ hled => ?_⟩
  · refine leading_before hwv hjv ?_
    have := size_flights_run hw
    omega
  · obtain ⟨c, hc, hsettled⟩ := settled_run hwv hled rfl
    obtain ⟨d, hasking⟩ := hleads'.asked
    cases hasking.symm.trans hc
    cases hsettled

end

end Shared

end ConfigCompiler.Cache
