import ConfigCompiler.Cache.Checked
import ConfigCompiler.Proofs.Cache.Admission

/-!
# Checked sums and sums that wrap

While the word that counts the weight of a cache is exact (`Exact`), no subtraction leaves its range: checked
invalidations and evictions are those that wrap (`Checked.invalidate_eq`, `Checked.shrink_eq`). An admission
is the one that wraps too (`Checked.insert_of_not_overfills`), unless its payload overfills the cache
(`Overfills`); then it panics at the addition (`Checked.insert_of_overfills`). `Shared.stepChecked` is
`Shared.step` with checked sums, and `stepChecked_cases` says of a step that it is the same, or that it
panics and what it leaves behind (`Shared.Overfilled`). A checked run ends with the first panic
(`Shared.runChecked`).
-/

namespace ConfigCompiler.Cache

variable {κ ε α : Type}

/-- The word that counts the weight is in its range without having wrapped. -/
structure Exact [HasWeight α] (c : Cache κ ε α) : Prop extends Accounted c where
  lt : total c.entries < 2 ^ 64

section
variable [HasWeight α] {c c' : Cache κ ε α}

theorem Exact.empty (capacity : Capacity) : Exact (empty capacity : Cache κ ε α) :=
  ⟨.empty capacity, Nat.two_pow_pos 64⟩

theorem Exact.congr (h : Exact c) (hc : c'.capacity = c.capacity) (he : c'.entries = c.entries)
    (hw : c'.weight = c.weight) : Exact c' := ⟨h.toAccounted.congr hc he hw, he ▸ h.lt⟩

theorem Exact.toNat_weight (h : Exact c) : c.weight.toNat = total c.entries := by
  rw [h.weight]
  exact UInt64.toNat_ofNat_of_lt' h.lt

omit [HasWeight α] in
theorem toNat_totalWord_of_lt {es : List (Entry κ α)} (h : total es < 2 ^ 64) :
    (totalWord es).toNat = total es := UInt64.toNat_ofNat_of_lt' h

end

theorem Exact.total_without_lt [DecidableEq κ] [HasWeight α] {c : Cache κ ε α} (h : Exact c) (key : κ) :
    total (without c.entries key) < 2 ^ 64 :=
  Nat.lt_of_le_of_lt (total_sublist List.filter_sublist) h.lt

/-- With a payload and before anything is dropped, the entries weigh more than a word can count. -/
def Overfills [DecidableEq κ] [HasWeight α] (c : Cache κ ε α) (key : κ) (v : α) : Prop :=
  ¬ c.capacity.TooHeavy v ∧ 2 ^ 64 ≤ total (without c.entries key) + (c.capacity.weightOf v).toNat

instance [DecidableEq κ] [HasWeight α] (c : Cache κ ε α) (key : κ) (v : α) :
    Decidable (c.Overfills key v) := inferInstanceAs (Decidable (_ ∧ _))

theorem lt_of_not_overfills [DecidableEq κ] [HasWeight α] {c : Cache κ ε α} {key : κ} {v : α}
    (hv : ¬ c.capacity.TooHeavy v) (h : ¬ c.Overfills key v) :
    total (without c.entries key) + (c.capacity.weightOf v).toNat < 2 ^ 64 :=
  Nat.lt_of_not_le fun hover => h ⟨hv, hover⟩

/-! ## Sums -/

namespace Checked

theorem sub_of_le {c : Cache κ ε α} {weight : UInt64} (h : weight ≤ c.weight) :
    sub c weight = .ok { c with weight := c.weight - weight } := if_neg (UInt64.not_lt.2 h)

theorem add_of_lt {c : Cache κ ε α} {weight : UInt64} (h : c.weight.toNat + weight.toNat < 2 ^ 64) :
    add c weight = .ok { c with weight := c.weight + weight } := if_neg (Nat.not_le.2 h)

theorem add_of_le {c : Cache κ ε α} {weight : UInt64} (h : 2 ^ 64 ≤ c.weight.toNat + weight.toNat) :
    add c weight = .error c := if_pos h

theorem le_totalWord_cons {e : Entry κ α} {es : List (Entry κ α)} (h : total (e :: es) < 2 ^ 64) :
    e.weight ≤ totalWord (e :: es) := by
  rw [UInt64.le_iff_toNat_le, toNat_totalWord_of_lt h, total_cons]
  exact Nat.le_add_right _ _

/-! ## Admission -/

/-- Where the word is exact, dropping entries does not panic and keeps what `evict` keeps. -/
theorem shrink_eq {es : List (Entry κ α)} {c : Cache κ ε α} (he : c.entries = es.reverse)
    (hw : c.weight = totalWord es) (hlt : total es < 2 ^ 64) :
    shrink es c = .ok { c with
      entries := (evict c.capacity es c.weight).1.reverse
      weight := (evict c.capacity es c.weight).2.1
      evictions := c.evictions + (evict c.capacity es c.weight).2.2.length } := by
  induction es generalizing c with
  | nil =>
    rw [shrink, evict, ← he]
    rfl
  | cons e es ih =>
    rw [shrink, evict]
    split
    · have hrest : total es < 2 ^ 64 := by
        rw [total_cons] at hlt
        omega
      rw [sub_of_le (hw ▸ le_totalWord_cons hlt)]
      refine (ih rfl ?_ hrest).trans ?_
      · show c.weight - e.weight = totalWord es
        rw [hw, totalWord_cons_sub]
      · simp only [List.length_cons, Nat.add_assoc, Nat.add_comm 1]
    · rw [← he]
      rfl

section
variable [DecidableEq κ] [HasWeight α] {c : Cache κ ε α} {key : κ} {v : α}

theorem insert_of_tooHeavy (hv : c.capacity.TooHeavy v) : insert c key v = .ok c := by
  rw [insert, admittedWeight_of_tooHeavy hv]

/-- An admission takes the weight of an earlier entry off first. -/
theorem insert_of_not_tooHeavy (h : Exact c) (hv : ¬ c.capacity.TooHeavy v) :
    insert c key v =
      (add { c with
        entries := ⟨key, v, c.capacity.weightOf v⟩ :: without c.entries key
        weight := totalWord (without c.entries key) } (c.capacity.weightOf v)).bind
      fun c => shrink c.entries.reverse c := by
  have hle : (c.find? key).elim 0 Entry.weight ≤ c.weight := by
    cases hf : c.find? key with
    | none => exact UInt64.zero_le
    | some e =>
      have hp := cons_without_perm h.keys_nodup (find?_eq_some hf).1
      rw [h.weight, ← totalWord_perm hp]
      exact le_totalWord_cons (total_perm hp ▸ h.lt)
  have hsub := sub_of_le (c := { c with
    entries := ⟨key, v, c.capacity.weightOf v⟩ :: without c.entries key }) hle
  simp only [insert, admittedWeight_of_not_tooHeavy hv, bind, Except.bind, hsub, h.weight_without]

/-- What an admission leaves behind that panics at the addition: all but the weight of the payload. -/
def overfilled (c : Cache κ ε α) (key : κ) (v : α) : Cache κ ε α :=
  { c with
    entries := ⟨key, v, c.capacity.weightOf v⟩ :: without c.entries key
    weight := totalWord (without c.entries key) }

theorem insert_of_overfills (h : Exact c) (ho : c.Overfills key v) :
    insert c key v = .error (overfilled c key v) := by
  have hlt := h.total_without_lt key
  rw [insert_of_not_tooHeavy h ho.1, add_of_le]
  · rfl
  · rw [toNat_totalWord_of_lt hlt]
    exact ho.2

theorem insert_of_not_overfills (h : Exact c) (hno : ¬ c.Overfills key v) :
    insert c key v = .ok (c.insert key v).1 := by
  by_cases hv : c.capacity.TooHeavy v
  · rw [insert_of_tooHeavy hv, Cache.insert_of_tooHeavy hv]
  · have hlt := h.total_without_lt key
    have hsum := lt_of_not_overfills hv hno
    rw [insert_of_not_tooHeavy h hv, add_of_lt (by rwa [toNat_totalWord_of_lt hlt])]
    have htotal : totalWord (without c.entries key) + c.capacity.weightOf v =
        totalWord (⟨key, v, c.capacity.weightOf v⟩ :: without c.entries key).reverse := by
      rw [totalWord_perm (List.reverse_perm _), totalWord_cons]
    refine (shrink_eq (List.reverse_reverse _).symm htotal ?_).trans ?_
    · rw [total_perm (List.reverse_perm _), total_cons, Nat.add_comm]
      exact hsum
    · simp only [Cache.insert, admittedWeight_of_not_tooHeavy hv, h.weight_without]

/-! ## Landing -/

/-- A flight that admits nothing, or nothing that overfills the cache, lands as it does where sums wrap. -/
theorem finish_of_not_overfills (h : Exact c) {f : Nat} {r : Except ε α}
    (hno : ∀ v, r = .ok v → c.isStale f = false → ¬ c.Overfills key v) :
    finish c key f r = .ok (c.finish key f r).1 := by
  cases r with
  | error e => rfl
  | ok v =>
    cases hst : c.isStale f with
    | true =>
      have hst' : (c.release key f).isStale f = true := hst
      rw [finish_of_stale v hst]
      simp only [finish, hst', if_true]
      rfl
    | false =>
      have hst' : (c.release key f).isStale f = false := hst
      have hrelease : Exact (c.release key f) := h.congr rfl rfl rfl
      rw [finish_of_fresh v hst]
      simp only [finish, hst', Bool.false_eq_true, if_false,
        insert_of_not_overfills hrelease (hno v rfl hst)]
      rfl

theorem finish_of_overfills (h : Exact c) {f : Nat} (hst : c.isStale f = false) (ho : c.Overfills key v) :
    finish c key f (.ok v) = .error (overfilled (c.release key f) key v) := by
  have hst' : (c.release key f).isStale f = false := hst
  have hrelease : Exact (c.release key f) := h.congr rfl rfl rfl
  simp only [finish, hst', Bool.false_eq_true, if_false, insert_of_overfills hrelease ho]
  rfl

end

/-! ## Invalidation -/

section
variable [DecidableEq κ]

/-- Entries whose weights are counted are dropped without a panic. -/
theorem drop_eq {es : List (Entry κ α)} {c : Cache κ ε α} (hw : total es ≤ c.weight.toNat) :
    drop es c = .ok { c with
      entries := c.entries.filter (·.key ∉ es.map Entry.key)
      weight := es.foldl (fun weight e => weight - e.weight) c.weight } := by
  induction es generalizing c with
  | nil =>
    rw [drop, List.filter_eq_self.2 fun e _ => by simp]
    rfl
  | cons e es ih =>
    rw [total_cons] at hw
    have hle : e.weight ≤ c.weight := UInt64.le_iff_toNat_le.2 (by omega)
    have hrest : total es ≤ (c.weight - e.weight).toNat := by
      rw [UInt64.toNat_sub_of_le _ _ hle]
      omega
    simp only [drop, sub_of_le (c := { c with entries := without c.entries e.key }) hle, bind, Except.bind]
    rw [ih hrest]
    simp only [without, List.filter_filter, List.map_cons, List.mem_cons, not_or, List.foldl_cons,
      Bool.decide_and, Bool.and_comm]

/-- Where the word is exact, an invalidation does not panic. -/
theorem invalidate_eq [HasWeight α] {c : Cache κ ε α} (h : Exact c) (doomed : κ → Bool) :
    invalidate c doomed = .ok ((c.invalidate doomed).1, (c.invalidate doomed).2.length) := by
  have hle : total (c.entries.filter (doomed ·.key)) ≤ c.weight.toNat :=
    h.toNat_weight ▸ total_sublist List.filter_sublist
  have hkept : c.entries.filter (·.key ∉ (c.entries.filter (doomed ·.key)).map Entry.key) =
      c.entries.filter (!doomed ·.key) := by
    refine List.filter_congr fun e he => ?_
    cases hd : doomed e.key with
    | true =>
      have hmem : e.key ∈ (c.entries.filter (doomed ·.key)).map Entry.key :=
        List.mem_map.2 ⟨e, List.mem_filter.2 ⟨he, hd⟩, rfl⟩
      simp [hmem]
    | false =>
      refine decide_eq_true fun hmem => ?_
      obtain ⟨x, hx, hk⟩ := List.mem_map.1 hmem
      have := (List.mem_filter.1 hx).2
      rw [hk, hd] at this
      cases this
  simp only [invalidate, drop_eq hle, hkept, bind, Except.bind, pure, Except.pure]
  simp only [Cache.invalidate, List.partition_eq_filter_filter, List.length_map]
  rfl

end

end Checked

/-! ## Steps -/

namespace Shared

section
variable [DecidableEq κ] [HasWeight α] {s s' : Shared κ ε α}

/-- The key and the payload that an event admits to the cache. -/
def admission? (s : Shared κ ε α) : Event κ ε α → Option (κ × α)
  | .insert key v => some (key, v)
  | .finish i (.ok v) =>
    match s.calls[i]? with
    | some (.leading key f) => if s.cache.isStale f then none else some (key, v)
    | _ => none
  | _ => none

/-- The same calls at another cache. -/
def withCache (s : Shared κ ε α) (cache : Cache κ ε α) : Shared κ ε α := { s with cache }

/-- One event where sums are checked: `none` if it cannot happen now, an error is what a panic leaves. -/
def stepChecked (s : Shared κ ε α) : Event κ ε α → Option (Except (Shared κ ε α) (Shared κ ε α))
  | .insert key v => some (((Checked.insert s.cache key v).map s.withCache).mapError s.withCache)
  | .invalidate doomed =>
    some (((Checked.invalidate s.cache doomed).map fun r => s.withCache r.1).mapError s.withCache)
  | .finish i r =>
    match s.calls[i]? with
    | some (.leading key f) =>
      let ended (call : Call κ ε α) (cache : Cache κ ε α) : Shared κ ε α := ⟨cache, s.calls.set i call⟩
      some (((Checked.finish s.cache key f r).map (ended (.done (r.mapError .producer)))).mapError
        (ended .unwound))
    | _ => none
  | e => (s.step e).map .ok

/-- A run where sums are checked, up to its end or to the first panic. -/
def runChecked (s : Shared κ ε α) : List (Event κ ε α) → Option (Except (Shared κ ε α) (Shared κ ε α))
  | [] => some (.ok s)
  | e :: es =>
    match s.stepChecked e with
    | none => none
    | some (.ok s') => runChecked s' es
    | some (.error s') => some (.error s')

/--
What an event that overfills the cache leaves behind: its payload is held, but its weight is not counted and
nothing is dropped for it. If it is the result of a flight, the slot of the flight is free and its leader has
unwound, but the flight goes on without a leader for those who wait for it.
-/
structure Overfilled (s : Shared κ ε α) (e : Event κ ε α) (key : κ) (v : α) (s' : Shared κ ε α) : Prop where
  admits : s.admission? e = some (key, v)
  overfills : s.cache.Overfills key v
  entries : s'.cache.entries = ⟨key, v, s.cache.capacity.weightOf v⟩ :: Cache.without s.cache.entries key
  weight : s'.cache.weight.toNat = total (Cache.without s.cache.entries key)
  evictions : s'.cache.evictions = s.cache.evictions
  flights : s'.cache.flights = s.cache.flights
  stranded : ∀ {i f : Nat}, e = .finish i (.ok v) → s.calls[i]? = some (.leading key f) →
    (key, f) ∉ s'.cache.slots ∧ s'.calls[i]? = some .unwound ∧ s'.cache.landing f = .running ∧
      ∀ (j : Nat) key', s'.calls[j]? ≠ some (.leading key' f)

theorem overfilled_insert (h : Exact s.cache) {key : κ} {v : α} (ho : s.cache.Overfills key v) :
    Overfilled s (.insert key v) key v (s.withCache (Checked.overfilled s.cache key v)) where
  admits := rfl
  overfills := ho
  entries := rfl
  weight := toNat_totalWord_of_lt (h.total_without_lt key)
  evictions := rfl
  flights := rfl
  stranded he := by cases he

theorem overfilled_finish (h : Exact s.cache) (hI : Inv s) {i f : Nat} {key : κ} {v : α}
    (hi : s.calls[i]? = some (.leading key f)) (hst : s.cache.isStale f = false)
    (ho : s.cache.Overfills key v) :
    Overfilled s (.finish i (.ok v)) key v
      ⟨Checked.overfilled (s.cache.release key f) key v, s.calls.set i .unwound⟩ where
  admits := by simp [admission?, hi, hst]
  overfills := ho
  entries := rfl
  weight := toNat_totalWord_of_lt (h.total_without_lt key)
  evictions := rfl
  flights := rfl
  stranded {j g} he hj := by
    cases he
    cases hi.symm.trans hj
    obtain ⟨fl, hfl, hrun, -⟩ := hI.led_flight hi
    refine ⟨?_, ?_, ?_, fun j key' hj => ?_⟩
    · show (key, f) ∉ s.cache.slots.filter (· ≠ (key, f))
      simp
    · rw [getElem?_set_call hi, if_pos rfl]
    · show (s.cache.flights[f]?.map Flight.landing).getD .abandoned = .running
      rw [hfl]
      exact hrun
    · obtain ⟨hj, hne⟩ := leading_of_set hi (by simp) hj
      exact hne (hI.leader_unique hj hi)

/-- A flight lands as it does where sums wrap, or its payload overfills the cache and it panics. -/
theorem finishChecked_cases (h : Exact s.cache) (hI : Inv s) {i : Nat} {r : Except ε α}
    {out : Except (Shared κ ε α) (Shared κ ε α)} (hs : s.stepChecked (.finish i r) = some out) :
    (∃ s', out = .ok s' ∧ s.step (.finish i r) = some s' ∧
      ∀ {key v}, s.admission? (.finish i r) = some (key, v) → ¬ s.cache.Overfills key v) ∨
    ∃ s' key v, out = .error s' ∧ Overfilled s (.finish i r) key v s' := by
  simp only [stepChecked] at hs
  split at hs
  · rename_i key f hi
    by_cases ho : ∃ v, r = .ok v ∧ s.cache.isStale f = false ∧ s.cache.Overfills key v
    · obtain ⟨v, rfl, hst, ho⟩ := ho
      rw [Checked.finish_of_overfills h hst ho] at hs
      cases hs
      exact .inr ⟨_, key, v, rfl, overfilled_finish h hI hi hst ho⟩
    · have hno : ∀ v, r = .ok v → s.cache.isStale f = false → ¬ s.cache.Overfills key v :=
        fun v hr hst hov => ho ⟨v, hr, hst, hov⟩
      rw [Checked.finish_of_not_overfills h hno] at hs
      cases hs
      refine .inl ⟨_, rfl, finish_enabled hi r, fun {key' v} hadm => ?_⟩
      cases r with
      | error e => cases hadm
      | ok w =>
        simp only [admission?, hi] at hadm
        split at hadm
        · cases hadm
        · cases hadm
          exact hno _ rfl (Bool.eq_false_iff.2 ‹_›)
  · cases hs

/-- A checked step is the one that wraps, or its payload overfills the cache and it panics. -/
theorem stepChecked_cases (h : Exact s.cache) (hI : Inv s) {e : Event κ ε α}
    {out : Except (Shared κ ε α) (Shared κ ε α)} (hs : s.stepChecked e = some out) :
    (∃ s', out = .ok s' ∧ s.step e = some s' ∧
      ∀ {key v}, s.admission? e = some (key, v) → ¬ s.cache.Overfills key v) ∨
    ∃ s' key v, out = .error s' ∧ Overfilled s e key v s' := by
  cases e with
  | insert key v =>
    by_cases ho : s.cache.Overfills key v
    · rw [stepChecked, Checked.insert_of_overfills h ho] at hs
      cases hs
      exact .inr ⟨_, key, v, rfl, overfilled_insert h ho⟩
    · rw [stepChecked, Checked.insert_of_not_overfills h ho] at hs
      cases hs
      refine .inl ⟨_, rfl, rfl, fun hadm => ?_⟩
      cases hadm
      exact ho
  | invalidate doomed =>
    rw [stepChecked, Checked.invalidate_eq h doomed] at hs
    cases hs
    exact .inl ⟨_, rfl, rfl, fun hadm => by cases hadm⟩
  | finish i r => exact finishChecked_cases h hI hs
  | get key => exact .inl ⟨_, (Option.some.inj hs).symm, rfl, fun hadm => by cases hadm⟩
  | call key d => exact .inl ⟨_, (Option.some.inj hs).symm, rfl, fun hadm => by cases hadm⟩
  | ask i =>
    obtain ⟨s', hs', rfl⟩ := Option.map_eq_some_iff.1 hs
    exact .inl ⟨s', rfl, hs', fun hadm => by cases hadm⟩
  | unwind i =>
    obtain ⟨s', hs', rfl⟩ := Option.map_eq_some_iff.1 hs
    exact .inl ⟨s', rfl, hs', fun hadm => by cases hadm⟩
  | wake i =>
    obtain ⟨s', hs', rfl⟩ := Option.map_eq_some_iff.1 hs
    exact .inl ⟨s', rfl, hs', fun hadm => by cases hadm⟩
  | timeOut i =>
    obtain ⟨s', hs', rfl⟩ := Option.map_eq_some_iff.1 hs
    exact .inl ⟨s', rfl, hs', fun hadm => by cases hadm⟩

/-- What can happen where sums wrap can happen where they are checked. -/
theorem stepChecked_of_step {e : Event κ ε α} (hs : s.step e = some s') :
    ∃ out, s.stepChecked e = some out := by
  cases e with
  | insert key v => exact ⟨_, rfl⟩
  | invalidate doomed => exact ⟨_, rfl⟩
  | finish i r =>
    obtain ⟨key, f, hi, -⟩ := step_finish hs
    simp only [stepChecked, hi, Option.some.injEq, exists_eq']
  | get key => exact ⟨_, rfl⟩
  | call key d => exact ⟨_, rfl⟩
  | ask i => exact ⟨.ok s', congrArg (Option.map Except.ok) hs⟩
  | unwind i => exact ⟨.ok s', congrArg (Option.map Except.ok) hs⟩
  | wake i => exact ⟨.ok s', congrArg (Option.map Except.ok) hs⟩
  | timeOut i => exact ⟨.ok s', congrArg (Option.map Except.ok) hs⟩

end

end Shared

end ConfigCompiler.Cache
