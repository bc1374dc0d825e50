import ConfigCompiler.Cache.Script
import ConfigCompiler.Proofs.Cache.Shared

/-!
# Invalidation is never undone by an older production

An invalidation detaches the flights of doomed keys: they are stale and own no slot, and both stay so
(`Detached`, `Detached.step`). When such a flight ends, nothing changes but the flight itself, so whoever
waits for it still receives its result (`Receives`).

`Agree f s t` says that `t` is what `s` would be had flight `f` never been under way: the cache is the
same apart from the flight (`mask`), the leader of `f` is gone, and those who waited for `f` have not
asked yet. A step of `s` by the leader of `f` or one of its waiters leaves `t` as it is, and every other
step is a step of `t` too (`Agree.step`, `Agree.run`). `invalidate_not_undone` puts these together.
-/

namespace ConfigCompiler.Cache

variable {κ ε α : Type}

/-! ## A cache apart from one flight -/

/-- The cache without what it says about flight `f`, and about how many waited for other callers. -/
def mask (f : Nat) (c : Cache κ ε α) : Cache κ ε α :=
  { c with flights := c.flights.modify f fun _ => ⟨true, .abandoned⟩, coalesced := 0 }

theorem mask_land (f : Nat) (c : Cache κ ε α) (ended : Flight ε α → Flight ε α) :
    mask f { c with flights := c.flights.modify f ended } = mask f c := by
  simp only [mask, Cache.mk.injEq, true_and, and_true]
  apply Array.ext_getElem?
  intro i
  simp only [Array.getElem?_modify]
  split <;> simp [Function.comp_def]

/-- Another flight may end before or after the masking. -/
theorem mask_land_other {f g : Nat} (hg : g ≠ f) (c : Cache κ ε α)
    (ended : Flight ε α → Flight ε α) :
    mask f { c with flights := c.flights.modify g ended } =
      { mask f c with flights := (mask f c).flights.modify g ended } := by
  simp only [mask, Cache.mk.injEq, true_and, and_true]
  apply Array.ext_getElem?
  intro i
  simp only [Array.getElem?_modify]
  by_cases hf : f = i <;> by_cases hg' : g = i <;> simp_all

theorem mask_invalidate (f : Nat) (c : Cache κ ε α) (doomed : κ → Bool) :
    mask f (c.invalidate doomed).1 = ((mask f c).invalidate doomed).1 := by
  simp only [invalidate, mask, List.partition_eq_filter_filter, Cache.mk.injEq, true_and, and_true]
  apply Array.ext_getElem?
  intro i
  simp only [Array.getElem?_modify, getElem?_foldl_markStale]
  by_cases hi : f = i
  · subst hi
    cases c.flights[f]? <;> simp [Flight.markStale]
  · simp [hi]

theorem mask_landing {f g : Nat} (hg : g ≠ f) (c : Cache κ ε α) :
    (mask f c).landing g = c.landing g := by
  simp only [landing, mask, Array.getElem?_modify, if_neg (Ne.symm hg)]

section
variable [DecidableEq κ]

theorem mask_get (f : Nat) (c : Cache κ ε α) (key : κ) :
    mask f (c.get key).1 = ((mask f c).get key).1 := by
  simp only [get, find?, mask]
  split <;> rfl

theorem mask_enter {f : Nat} {c : Cache κ ε α} (hf : f < c.flights.size) (key : κ) :
    (mask f c).enter key = (mask f (c.enter key).1, (c.enter key).2) := by
  simp only [enter, find?, mask]
  split
  · rfl
  · split
    · rfl
    · simp only [Array.size_modify, Prod.mk.injEq, Cache.mk.injEq, true_and, and_true]
      apply Array.ext_getElem?
      intro i
      simp only [Array.getElem?_modify, Array.getElem?_push, Array.size_modify]
      by_cases hi : f = i <;> simp only [hi, if_true, if_false]
      split
      · omega
      · rfl

theorem mask_release (f g : Nat) (c : Cache κ ε α) (key : κ) :
    mask f (c.release key g) = (mask f c).release key g := rfl

theorem mask_unwind {f g : Nat} (hg : g ≠ f) (c : Cache κ ε α) (key : κ) :
    mask f (c.unwind key g) = (mask f c).unwind key g :=
  mask_land_other hg (c.release key g) Flight.abandon

variable [HasWeight α]

theorem mask_insert (f : Nat) (c : Cache κ ε α) (key : κ) (v : α) :
    mask f (c.insert key v).1 = ((mask f c).insert key v).1 := by
  simp only [insert, find?, mask]
  split <;> rfl

theorem mask_finish {f g : Nat} (hg : g ≠ f) (c : Cache κ ε α) (key : κ) (r : Except ε α) :
    mask f (c.finish key g r).1 = ((mask f c).finish key g r).1 := by
  have hst : (mask f c).isStale g = c.isStale g := by
    simp only [isStale, mask, Array.getElem?_modify, if_neg (Ne.symm hg)]
  cases r with
  | error e => exact mask_land_other hg (c.release key g) _
  | ok v =>
    by_cases hs : c.isStale g = true
    · rw [finish_of_stale v hs, finish_of_stale v (hst.trans hs)]
      exact mask_land_other hg (c.release key g) _
    · rw [Bool.not_eq_true] at hs
      rw [finish_of_fresh v hs, finish_of_fresh v (hst.trans hs)]
      simp only [mask_land_other hg, mask_insert, mask_release]

end

/-! ## A call apart from one flight -/

/-- A call, and what it is where flight `f` was never under way. -/
inductive Apart (f : Nat) : Call κ ε α → Call κ ε α → Prop
  | same {c : Call κ ε α} : c.flight? ≠ some f → Apart f c c
  | led {key : κ} : Apart f (.leading key f) .unwound
  | landed {r : Except (CacheError ε) α} : Apart f (.done r) .unwound
  | waited {key : κ} {d : Option Deadline} : Apart f (.waiting key f d) (.asking key d)
  | answered {r : Except (CacheError ε) α} {key : κ} {d : Option Deadline} :
      Apart f (.done r) (.asking key d)

/-- What a call is where flight `f` was never under way. -/
def Call.without (f : Nat) : Call κ ε α → Call κ ε α
  | .leading key g => if g = f then .unwound else .leading key g
  | .waiting key g d => if g = f then .asking key d else .waiting key g d
  | c => c

theorem apart_without (f : Nat) (c : Call κ ε α) : Apart f c (c.without f) := by
  cases c with
  | leading key g =>
    by_cases h : g = f
    · subst h; simpa [Call.without] using .led
    · simpa [Call.without, h] using .same (by simpa [Call.flight?] using h)
  | waiting key g d =>
    by_cases h : g = f
    · subst h; simpa [Call.without] using .waited
    · simpa [Call.without, h] using .same (by simpa [Call.flight?] using h)
  | asking key d => exact .same (by simp [Call.flight?])
  | done r => exact .same (by simp [Call.flight?])
  | unwound => exact .same (by simp [Call.flight?])

namespace Shared

/-! ## Detached flights -/

/-- Flight `f` owns no slot and its result will not be stored. -/
structure Detached (f : Nat) (s : Shared κ ε α) : Prop where
  lt : f < s.cache.flights.size
  no_slot : ∀ key, (key, f) ∉ s.cache.slots
  stale : s.cache.isStale f = true

theorem isStale_of_getElem? {c : Cache κ ε α} {f : Nat} {fl : Flight ε α}
    (h : c.flights[f]? = some fl) : c.isStale f = fl.stale := by
  simp [isStale, h]

/-- An invalidation detaches the flights of the keys that it dooms. -/
theorem Inv.detached {s : Shared κ ε α} (h : Inv s) {i f : Nat} {key : κ} {doomed : κ → Bool}
    (hi : s.calls[i]? = some (.leading key f)) (hd : doomed key = true) :
    Detached f { s with cache := (s.cache.invalidate doomed).1 } := by
  obtain ⟨fl, hfl, -, hst⟩ := (h.invalidate doomed).led_flight hi
  have hno : ∀ key', (key', f) ∉ (s.cache.invalidate doomed).1.slots := fun key' hm => by
    obtain ⟨j, hj⟩ := (h.invalidate doomed).slot_led hm
    obtain rfl := h.leader_unique hi hj
    cases hi.symm.trans hj
    simp [hd] at hm
  exact ⟨(Array.getElem?_eq_some_iff.1 hfl).1, hno, (isStale_of_getElem? hfl).trans (hst.2 (hno key))⟩

section
variable [DecidableEq κ] [HasWeight α] {s s' t : Shared κ ε α} {f : Nat}

theorem Detached.step (h : Detached f s) {e : Event κ ε α} (hs : s.step e = some s') :
    Detached f s' := by
  obtain ⟨hlt, hno, hst⟩ := h
  cases e with
  | get key => cases hs; exact ⟨by simpa using hlt, by simpa using hno, by simpa [isStale] using hst⟩
  | insert key v =>
    cases hs
    exact ⟨by simpa using hlt, by simpa using hno, by simpa [isStale] using hst⟩
  | invalidate doomed =>
    cases hs
    have hfl : (s.cache.invalidate doomed).1.flights[f]? = s.cache.flights[f]? := by
      rw [getElem?_invalidate_flights, Array.getElem?_eq_getElem hlt, Option.map_some, if_neg]
      simp only [List.mem_map, List.mem_filter, Prod.exists, exists_eq_right, not_exists, not_and]
      exact fun key hm => absurd hm (hno key)
    refine ⟨?_, fun key hm => hno key ?_, by simpa [isStale, hfl] using hst⟩
    · exact (Array.getElem?_eq_some_iff.1 (hfl.trans (Array.getElem?_eq_getElem hlt))).1
    · rw [invalidate_slots, List.mem_filter] at hm
      exact hm.1
  | call key d => cases hs; exact ⟨hlt, hno, hst⟩
  | ask i =>
    obtain ⟨key, d, -, rfl⟩ := step_ask hs
    rcases enter_cases s.cache key with ⟨e, -, he⟩ | ⟨g, -, -, he⟩ | ⟨-, -, he⟩ <;> rw [he]
    · exact ⟨hlt, hno, hst⟩
    · exact ⟨hlt, hno, hst⟩
    · refine ⟨by simp only [Array.size_push]; omega, fun key' => ?_, ?_⟩
      · simpa [Nat.ne_of_lt hlt] using hno key'
      · simpa only [isStale, Array.getElem?_push, Nat.ne_of_lt hlt, if_false] using hst
  | finish i r =>
    obtain ⟨key, g, -, rfl⟩ := step_finish hs
    refine ⟨by simpa using hlt, fun key' => ?_, ?_⟩
    · simpa using fun hm => absurd hm (hno key')
    · rwa [isStale_modify (·.land r) (fun _ => rfl) (finish_flights ..)]
  | unwind i =>
    obtain ⟨key, g, -, rfl⟩ := step_unwind hs
    refine ⟨by simpa [unwind, release] using hlt, fun key' => ?_, ?_⟩
    · simpa [unwind, release] using fun hm => absurd hm (hno key')
    · rwa [isStale_modify Flight.abandon (fun _ => rfl) rfl]
  | wake i =>
    obtain ⟨key, g, d, -, ⟨r, -, rfl⟩ | ⟨-, rfl⟩⟩ := step_wake hs <;> exact ⟨hlt, hno, hst⟩
  | timeOut i =>
    obtain ⟨key, g, d, -, -, rfl⟩ := step_timeOut hs
    exact ⟨hlt, hno, hst⟩

/-! ## Who waits still receives the result -/

/-- Call `j` has received the result of flight `f`, or receives it on waking. -/
def Receives (f j : Nat) (r : Except ε α) (s : Shared κ ε α) : Prop :=
  s.calls[j]? = some (.done (r.mapError .producer)) ∨
    (∃ key d, s.calls[j]? = some (.waiting key f d)) ∧
      ∃ s', s.step (.wake j) = some s' ∧ s'.calls[j]? = some (.done (r.mapError .producer))

theorem receives_of_landed {r : Except ε α} {j : Nat} {key : κ} {d : Option Deadline}
    (hf : s.cache.flights[f]?.map Flight.landing = some (.landed r))
    (hj : s.calls[j]? = some (.waiting key f d)) : Receives f j r s := by
  have hl : s.cache.landing f = .landed r := by simp only [landing, hf, Option.getD_some]
  exact .inr ⟨⟨key, d, hj⟩, _, wake_enabled hj hl, by simp [getElem?_set_call hj]⟩

/-- A waiter of a landed flight can do nothing else than receive its result. -/
theorem receives_step {r : Except ε α} (h : Inv s) {e : Event κ ε α} (hs : s.step e = some s')
    {j : Nat} (hf : s.cache.flights[f]?.map Flight.landing = some (.landed r))
    (hr : Receives f j r s) : Receives f j r s' := by
  obtain hj | ⟨⟨key, d, hj⟩, s₁, hw, hs₁⟩ := hr
  · exact .inl (step_done hs hj)
  · by_cases he : e.caller? = some j
    · cases e <;> simp only [Event.caller?, Option.some.injEq, reduceCtorEq] at he <;> subst he
      · simp [step, hj] at hs
      · simp [step, hj] at hs
      · simp [step, hj] at hs
      · cases hw.symm.trans hs
        exact .inl hs₁
      · obtain ⟨_, _, _, hj', hl, -⟩ := step_timeOut hs
        cases hj.symm.trans hj'
        simp [landing, hf] at hl
    · exact receives_of_landed (step_ended h hs (by simp) hf) (step_other hs hj he)

theorem receives_run {r : Except ε α} (h : Inv s) {es : List (Event κ ε α)}
    (hs : s.run es = some s') {j : Nat}
    (hf : s.cache.flights[f]?.map Flight.landing = some (.landed r))
    (hr : Receives f j r s) : Receives f j r s' :=
  (run_induction
    (fun s => Inv s ∧ s.cache.flights[f]?.map Flight.landing = some (.landed r) ∧ Receives f j r s)
    (fun _ _ _ ⟨h, hf, hr⟩ hs => ⟨h.step hs, step_ended h hs (by simp) hf, receives_step h hs hf hr⟩)
    ⟨h, hf, hr⟩ hs).2.2

end

/-! ## As if a production had never been -/

/-- The leader of `f` is gone, and those who wait for it have not asked yet. -/
def without (f : Nat) (s : Shared κ ε α) : Shared κ ε α :=
  { s with calls := s.calls.map (Call.without f) }

structure Agree (f : Nat) (s t : Shared κ ε α) : Prop where
  cache : mask f t.cache = mask f s.cache
  length : t.calls.length = s.calls.length
  calls : ∀ {j : Nat} {c}, s.calls[j]? = some c → ∃ c', t.calls[j]? = some c' ∧ Apart f c c'

/-- Whether an event is a step of the leader of `f` or of one of its waiters. -/
def concerns (f : Nat) (s : Shared κ ε α) (e : Event κ ε α) : Bool :=
  e.caller?.any fun i => (s.calls[i]?.bind Call.flight?) == some f

theorem agree_without (f : Nat) (s : Shared κ ε α) : Agree f s (s.without f) :=
  ⟨rfl, by simp [without], fun {j c} hj => ⟨c.without f, by simp [without, hj], apart_without f c⟩⟩

section
variable {s t : Shared κ ε α} {f : Nat}

theorem Agree.landing (h : Agree f s t) {g : Nat} (hg : g ≠ f) :
    t.cache.landing g = s.cache.landing g := by
  rw [← mask_landing hg, h.cache, mask_landing hg]

theorem Agree.size (h : Agree f s t) : t.cache.flights.size = s.cache.flights.size := by
  have := congrArg (fun c => c.flights.size) h.cache
  simpa [mask] using this

/-- A call that is still under way and has nothing to do with `f` is the same in both. -/
theorem Agree.call_eq (h : Agree f s t) {j : Nat} {c : Call κ ε α} (hj : s.calls[j]? = some c)
    (hf : c.flight? ≠ some f) (hd : ∀ r, c ≠ .done r) : t.calls[j]? = some c := by
  obtain ⟨c', hc', ha⟩ := h.calls hj
  cases ha with
  | same => exact hc'
  | led => exact absurd rfl hf
  | landed => exact absurd rfl (hd _)
  | waited => exact absurd rfl hf
  | answered => exact absurd rfl (hd _)

/-- Both make the same step of the same call. -/
theorem Agree.set (h : Agree f s t) {cs ct : Cache κ ε α} (hc : mask f ct = mask f cs) (i : Nat)
    {c : Call κ ε α} (hf : c.flight? ≠ some f) :
    Agree f ⟨cs, s.calls.set i c⟩ ⟨ct, t.calls.set i c⟩ := by
  refine ⟨hc, by simp [h.length], fun {j c₀} hj => ?_⟩
  simp only [List.getElem?_set, h.length] at hj ⊢
  split at hj
  · split at hj
    · cases hj; exact ⟨c, by simp_all, .same hf⟩
    · cases hj
  · rename_i hne
    simpa [hne] using h.calls hj

/-- Only the first one makes a step, of a call that differs anyway. -/
theorem Agree.set_left (h : Agree f s t) {cs : Cache κ ε α} (hc : mask f cs = mask f s.cache)
    {i : Nat} {c c₁ : Call κ ε α} (hi : s.calls[i]? = some c)
    (ha : ∀ c', Apart f c c' → Apart f c₁ c') : Agree f ⟨cs, s.calls.set i c₁⟩ t := by
  refine ⟨h.cache.trans hc.symm, by simp [h.length], fun {j c₀} hj => ?_⟩
  rw [getElem?_set_call hi] at hj
  split at hj
  · rename_i hij
    cases hj; subst hij
    obtain ⟨c', hc', hap⟩ := h.calls hi
    exact ⟨c', hc', ha c' hap⟩
  · exact h.calls hj

theorem Agree.append (h : Agree f s t) {c : Call κ ε α} (hf : c.flight? ≠ some f) :
    Agree f { s with calls := s.calls ++ [c] } { t with calls := t.calls ++ [c] } := by
  refine ⟨h.cache, by simp [h.length], fun {j c₀} hj => ?_⟩
  simp only [List.getElem?_append, h.length] at hj ⊢
  split at hj
  · rename_i hlt
    simpa [hlt] using h.calls hj
  · rename_i hlt
    simp only [List.getElem?_singleton] at hj ⊢
    split at hj
    · rename_i h0
      cases hj
      exact ⟨c, by simp [hlt, h0], .same hf⟩
    · cases hj

end

section
variable [DecidableEq κ] [HasWeight α] {s s' t : Shared κ ε α} {f : Nat}

/-- A step that concerns `f` shows only at `f` and at those who wait for it. -/
theorem Agree.step_concerned (hd : Detached f s) (h : Agree f s t) {e : Event κ ε α}
    (hs : s.step e = some s') (he : s.concerns f e = true) : Agree f s' t := by
  cases e with
  | get key => simp [concerns, Event.caller?] at he
  | insert key v => simp [concerns, Event.caller?] at he
  | invalidate doomed => simp [concerns, Event.caller?] at he
  | call key d => simp [concerns, Event.caller?] at he
  | ask i =>
    obtain ⟨key, d, hi, -⟩ := step_ask hs
    simp [concerns, Event.caller?, hi, Call.flight?] at he
  | finish i r =>
    obtain ⟨key, g, hi, rfl⟩ := step_finish hs
    obtain rfl : g = f := by simpa [concerns, Event.caller?, hi, Call.flight?] using he
    rw [finish_of_detached r (hd.no_slot key) hd.stale]
    refine h.set_left (mask_land g s.cache _) hi fun c' ha => ?_
    cases ha with
    | same hf => exact absurd rfl hf
    | led => exact .landed
  | unwind i =>
    obtain ⟨key, g, hi, rfl⟩ := step_unwind hs
    obtain rfl : g = f := by simpa [concerns, Event.caller?, hi, Call.flight?] using he
    rw [unwind_of_detached (hd.no_slot key)]
    refine h.set_left (mask_land g s.cache _) hi fun c' ha => ?_
    cases ha with
    | same hf => exact absurd rfl hf
    | led => exact .same (by simp [Call.flight?])
  | wake i =>
    obtain ⟨key, g, d, hi, ⟨r, -, rfl⟩ | ⟨-, rfl⟩⟩ := step_wake hs <;>
      obtain rfl : g = f := by simpa [concerns, Event.caller?, hi, Call.flight?] using he
    · refine h.set_left (show mask _ s.cache.coalesce = _ from rfl) hi fun c' ha => ?_
      cases ha with
      | same hf => exact absurd rfl hf
      | waited => exact .answered
    · refine h.set_left rfl hi fun c' ha => ?_
      cases ha with
      | same hf => exact absurd rfl hf
      | waited => exact .same (by simp [Call.flight?])
  | timeOut i =>
    obtain ⟨key, g, d, hi, -, rfl⟩ := step_timeOut hs
    obtain rfl : g = f := by simpa [concerns, Event.caller?, hi, Call.flight?] using he
    refine h.set_left rfl hi fun c' ha => ?_
    cases ha with
    | same hf => exact absurd rfl hf
    | waited => exact .answered

/-- Every other step is a step of both. -/
theorem Agree.step (hd : Detached f s) (h : Agree f s t) {e : Event κ ε α}
    (hs : s.step e = some s') (he : s.concerns f e = false) :
    ∃ t', t.step e = some t' ∧ Agree f s' t' := by
  cases e with
  | get key =>
    cases hs
    exact ⟨_, rfl, by simp only [mask_get, h.cache], h.length, h.calls⟩
  | insert key v =>
    cases hs
    exact ⟨_, rfl, by simp only [mask_insert, h.cache], h.length, h.calls⟩
  | invalidate doomed =>
    cases hs
    exact ⟨_, rfl, by simp only [mask_invalidate, h.cache], h.length, h.calls⟩
  | call key d =>
    cases hs
    exact ⟨_, rfl, h.append (by simp [Call.flight?])⟩
  | ask i =>
    obtain ⟨key, d, hi, rfl⟩ := step_ask hs
    have ht := h.call_eq hi (by simp [Call.flight?]) (by simp)
    have hent := (mask_enter (h.size ▸ hd.lt) key).symm.trans
      ((congrArg (·.enter key) h.cache).trans (mask_enter hd.lt key))
    obtain ⟨hm, hr⟩ := Prod.mk.inj hent
    refine ⟨⟨(t.cache.enter key).1, t.calls.set i (entered key d (s.cache.enter key).2)⟩, ?_, ?_⟩
    · simp only [Shared.step, ht, hr]
    · refine h.set hm i ?_
      rcases enter_cases s.cache key with ⟨e, -, he⟩ | ⟨g, -, hg, he⟩ | ⟨-, -, he⟩ <;> rw [he]
      · simp [entered, Call.flight?]
      · have : g ≠ f := fun hgf => hd.no_slot key (hgf ▸ hg)
        simpa [entered, Call.flight?] using this
      · have := Nat.ne_of_gt hd.lt
        simpa [entered, Call.flight?] using this
  | finish i r =>
    obtain ⟨key, g, hi, rfl⟩ := step_finish hs
    have hg : g ≠ f := by simpa [concerns, Event.caller?, hi, Call.flight?] using he
    have ht := h.call_eq hi (by simpa [Call.flight?] using hg) (by simp)
    exact ⟨_, finish_enabled ht r,
      h.set (by simp only [mask_finish hg, h.cache]) i (by simp [Call.flight?])⟩
  | unwind i =>
    obtain ⟨key, g, hi, rfl⟩ := step_unwind hs
    have hg : g ≠ f := by simpa [concerns, Event.caller?, hi, Call.flight?] using he
    have ht := h.call_eq hi (by simpa [Call.flight?] using hg) (by simp)
    exact ⟨_, unwind_enabled ht,
      h.set (by simp only [mask_unwind hg, h.cache]) i (by simp [Call.flight?])⟩
  | wake i =>
    obtain ⟨key, g, d, hi, ⟨r, hl, rfl⟩ | ⟨hl, rfl⟩⟩ := step_wake hs
    · have hg : g ≠ f := by simpa [concerns, Event.caller?, hi, Call.flight?] using he
      have ht := h.call_eq hi (by simpa [Call.flight?] using hg) (by simp)
      have hc : mask f t.cache.coalesce = mask f s.cache.coalesce := h.cache
      exact ⟨_, wake_enabled ht ((h.landing hg).trans hl), h.set hc i (by simp [Call.flight?])⟩
    · have hg : g ≠ f := by simpa [concerns, Event.caller?, hi, Call.flight?] using he
      have ht := h.call_eq hi (by simpa [Call.flight?] using hg) (by simp)
      exact ⟨_, by simp only [Shared.step, ht, h.landing hg, hl],
        h.set h.cache i (by simp [Call.flight?])⟩
  | timeOut i =>
    obtain ⟨key, g, d, hi, hl, rfl⟩ := step_timeOut hs
    have hg : g ≠ f := by simpa [concerns, Event.caller?, hi, Call.flight?] using he
    have ht := h.call_eq hi (by simpa [Call.flight?] using hg) (by simp)
    exact ⟨_, by simp only [Shared.step, ht, h.landing hg, hl],
      h.set h.cache i (by simp [Call.flight?])⟩

/-- The events of a run that do not concern `f`. -/
def others (f : Nat) : Shared κ ε α → List (Event κ ε α) → List (Event κ ε α)
  | _, [] => []
  | s, e :: es =>
    match s.step e with
    | none => []
    | some s' => if s.concerns f e then others f s' es else e :: others f s' es

/-- A run without the events of a detached flight goes as if the flight had never been. -/
theorem Agree.run (hd : Detached f s) (h : Agree f s t) {es : List (Event κ ε α)}
    (hs : s.run es = some s') : ∃ t', t.run (others f s es) = some t' ∧ Agree f s' t' := by
  induction es generalizing s t with
  | nil => cases hs; exact ⟨t, rfl, h⟩
  | cons e es ih =>
    obtain ⟨s₁, h₁, h₂⟩ := Option.bind_eq_some_iff.1 (run_cons s e es ▸ hs)
    simp only [others, h₁]
    by_cases he : s.concerns f e = true
    · rw [if_pos he]
      exact ih (hd.step h₁) (h.step_concerned hd h₁ he) h₂
    · rw [if_neg he]
      obtain ⟨t₁, ht₁, ha⟩ := h.step hd h₁ (by simpa using he)
      obtain ⟨t', ht', ha'⟩ := ih (hd.step h₁) ha h₂
      exact ⟨t', by rw [run_cons, ht₁]; exact ht', ha'⟩

/-! ## Later productions -/

/-- The productions of a key that began from flight `n` on still own their slots. -/
def Owning (n : Nat) (key : κ) (s : Shared κ ε α) : Prop :=
  ∀ {j g : Nat}, s.calls[j]? = some (.leading key g) → n ≤ g → (key, g) ∈ s.cache.slots

theorem Owning.step (h : Inv s) {n : Nat} {key : κ} (ho : Owning n key s) {e : Event κ ε α}
    (hs : s.step e = some s') (he : ∀ doomed, e = .invalidate doomed → doomed key = false) :
    Owning n key s' := by
  intro j g hj hg
  obtain hold | ⟨-, hm⟩ := leading_of_step hs hj
  · have hm := ho hold hg
    cases e with
    | get k => cases hs; simpa using hm
    | insert k v => cases hs; simpa using hm
    | invalidate doomed =>
      cases hs
      simpa [List.mem_filter, he doomed rfl] using hm
    | call k d => cases hs; exact hm
    | ask i =>
      obtain ⟨k, d, -, rfl⟩ := step_ask hs
      rcases enter_cases s.cache k with ⟨e, -, he⟩ | ⟨g, -, -, he⟩ | ⟨-, -, he⟩ <;> rw [he]
      · exact hm
      · exact hm
      · exact List.mem_cons_of_mem _ hm
    | finish i r =>
      obtain ⟨k, g', hi, rfl⟩ := step_finish hs
      have : g ≠ g' := by
        rintro rfl
        exact (leading_of_set hi (by simp) hj).2 (h.leader_unique hold hi)
      simpa [List.mem_filter, this] using hm
    | unwind i =>
      obtain ⟨k, g', hi, rfl⟩ := step_unwind hs
      have : g ≠ g' := by
        rintro rfl
        exact (leading_of_set hi (by simp) hj).2 (h.leader_unique hold hi)
      simpa [unwind, release, List.mem_filter, this] using hm
    | wake i =>
      obtain ⟨k, g', d, -, ⟨r, -, rfl⟩ | ⟨-, rfl⟩⟩ := step_wake hs <;> exact hm
    | timeOut i =>
      obtain ⟨k, g', d, -, -, rfl⟩ := step_timeOut hs
      exact hm
  · exact hm

theorem Owning.run (h : Inv s) {n : Nat} {key : κ} (ho : Owning n key s) {es : List (Event κ ε α)}
    (hs : s.run es = some s') (he : ∀ doomed, .invalidate doomed ∈ es → doomed key = false) :
    Owning n key s' := by
  induction es generalizing s with
  | nil => cases hs; exact ho
  | cons e es ih =>
    obtain ⟨s₁, h₁, h₂⟩ := Option.bind_eq_some_iff.1 (run_cons s e es ▸ hs)
    refine ih (h.step h₁) (ho.step h h₁ fun doomed hd => he doomed (hd ▸ List.mem_cons_self)) h₂ ?_
    exact fun doomed hd => he doomed (List.mem_cons_of_mem _ hd)

/-- A leader that owns its slot has its payload admitted as `insert` would admit it. -/
theorem Inv.finish_admits (h : Inv s) {j g : Nat} {key : κ} (v : α)
    (hj : s.calls[j]? = some (.leading key g)) (hm : (key, g) ∈ s.cache.slots) :
    ((s.cache.finish key g (.ok v)).1.entries, (s.cache.finish key g (.ok v)).1.weight) =
      ((s.cache.insert key v).1.entries, (s.cache.insert key v).1.weight) := by
  obtain ⟨fl, hfl, -, hst⟩ := h.led_flight hj
  have hfresh : s.cache.isStale g = false := by
    rw [isStale_of_getElem? hfl]
    exact Bool.eq_false_iff.2 fun hstale => hst.1 hstale hm
  rw [finish_of_fresh v hfresh]
  exact Prod.ext_iff.2 (insert_release s.cache key g v)

/--
A production that is under way when its key is invalidated ends without a trace: the cache is as it was
apart from the flight, and all who wait for it still receive its result. A later production that is not
itself invalidated keeps its slot and is admitted as usual; and all others go on as if the older production
had never been.
-/
theorem invalidate_not_undone {capacity : Capacity} {es₁ es₂ : List (Event κ ε α)}
    {s₁ s₂ s₃ : Shared κ ε α} {i f : Nat} {key : κ} {doomed : κ → Bool}
    (h₁ : (start capacity).run es₁ = some s₁) (hi : s₁.calls[i]? = some (.leading key f))
    (hd : doomed key = true) (h₂ : s₁.step (.invalidate doomed) = some s₂)
    (h₃ : s₂.run es₂ = some s₃) :
    (s₃.calls[i]? = some (.leading key f) →
      (∀ r, ∃ s₄, s₃.step (.finish i r) = some s₄ ∧
        s₄.cache = { s₃.cache with flights := s₃.cache.flights.modify f (·.land r) } ∧
        s₄.calls[i]? = some (.done (r.mapError .producer)) ∧
        ∀ {j key' d}, s₃.calls[j]? = some (.waiting key' f d) →
          ∀ {es s₅}, s₄.run es = some s₅ → Receives f j r s₅) ∧
      ∃ s₄, s₃.step (.unwind i) = some s₄ ∧
        s₄.cache = { s₃.cache with flights := s₃.cache.flights.modify f Flight.abandon } ∧
        s₄.calls[i]? = some .unwound) ∧
    (∀ {j g}, s₃.calls[j]? = some (.leading key g) → s₂.cache.flights.size ≤ g →
      (∀ doomed', .invalidate doomed' ∈ es₂ → doomed' key = false) →
      (key, g) ∈ s₃.cache.slots ∧ ∀ v, ∃ s₄, s₃.step (.finish j (.ok v)) = some s₄ ∧
        (s₄.cache.entries, s₄.cache.weight) =
          ((s₃.cache.insert key v).1.entries, (s₃.cache.insert key v).1.weight)) ∧
    ∃ t, (s₂.without f).run (others f s₂ es₂) = some t ∧ Agree f s₃ t := by
  have hI₁ := inv_of_run h₁
  have hI₂ := hI₁.step h₂
  have hI₃ := hI₂.run h₃
  have hd₂ : Detached f s₂ := by
    cases h₂
    exact hI₁.detached hi hd
  have hd₃ : Detached f s₃ := run_induction (Detached f) (fun _ _ _ h hs => h.step hs) hd₂ h₃
  refine ⟨fun hi₃ => ⟨fun r => ⟨_, finish_enabled hi₃ r, ?_, ?_, ?_⟩, _, unwind_enabled hi₃, ?_, ?_⟩,
    fun hj hg he => ?_, (agree_without f s₂).run hd₂ h₃⟩
  · exact finish_of_detached r (hd₃.no_slot key) hd₃.stale
  · simp [getElem?_set_call hi₃]
  · intro j key' d hj es s₅ h₅
    have h₄ := finish_enabled hi₃ r
    have hne : j ≠ i := by rintro rfl; cases hi₃.symm.trans hj
    have hf : (s₃.cache.finish key f r).1.flights[f]?.map Flight.landing = some (.landed r) := by
      rw [finish_flights, Array.getElem?_modify, if_pos rfl, Array.getElem?_eq_getElem hd₃.lt]
      rfl
    have hj₄ := step_other h₄ hj (by simpa [Event.caller?] using Ne.symm hne)
    exact receives_run (hI₃.step h₄) h₅ hf (receives_of_landed hf hj₄)
  · exact unwind_of_detached (hd₃.no_slot key)
  · simp [getElem?_set_call hi₃]
  · have hown : Owning s₂.cache.flights.size key s₂ := fun hj hg => absurd (hI₂.led_lt hj) (by omega)
    have hm := hown.run hI₂ h₃ he hj hg
    exact ⟨hm, fun v => ⟨_, finish_enabled hj _, hI₃.finish_admits v hj hm⟩⟩

/-- Two productions of one key overlap: a caller waits for the older one, and the newer one is admitted. -/
theorem invalidate_not_undone_overlap :
    ∃ s₁ s₂ s₃ : Shared Nat String Script.Item,
      (start (.entries 2)).run [.call 0 none, .ask 0, .call 0 none, .ask 1] = some s₁ ∧
      s₁.calls[0]? = some (.leading 0 0) ∧ s₁.step (.invalidate (· == 0)) = some s₂ ∧
      s₂.run [.call 0 none, .ask 2] = some s₃ ∧ s₃.calls[1]? = some (.waiting 0 0 none) ∧
      s₃.calls[2]? = some (.leading 0 1) ∧
      (∃ s₄, s₃.step (.finish 0 (.ok ⟨7, 1⟩)) = some s₄ ∧ s₄.cache.slots = [(0, 1)] ∧
        s₄.cache.entries = [] ∧ Receives 0 1 (.ok ⟨7, 1⟩) s₄) ∧
      ∃ s₄, s₃.step (.finish 2 (.ok ⟨8, 1⟩)) = some s₄ ∧ s₄.cache.entries = [⟨0, ⟨8, 1⟩, 1⟩] := by
  refine ⟨_, _, _, rfl, rfl, rfl, rfl, rfl, rfl, ?_⟩
  obtain ⟨hold, hnew, -⟩ := @invalidate_not_undone Nat String Script.Item _ _ (.entries 2)
    [.call 0 none, .ask 0, .call 0 none, .ask 1] [.call 0 none, .ask 2] _ _ _ 0 0 0 (· == 0)
    rfl rfl rfl rfl rfl
  obtain ⟨s₄, h₄, hc, -, hw⟩ := (hold rfl).1 (.ok ⟨7, 1⟩)
  obtain ⟨-, hadmit⟩ := @hnew 2 1 rfl (by decide) (by simp)
  obtain ⟨s₅, h₅, he⟩ := hadmit ⟨8, 1⟩
  refine ⟨⟨s₄, h₄, by rw [hc]; rfl, by rw [hc]; rfl, @hw 1 0 none rfl [] s₄ rfl⟩, s₅, h₅, ?_⟩
  exact congrArg Prod.fst he

end

end Shared

end ConfigCompiler.Cache
