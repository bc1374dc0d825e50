import Mathlib.Algebra.Group.Int.Defs
import ConfigCompiler.Proofs.Cache.Checked

/-!
# The word that counts the weight of a cache

Admissions and invalidations adjust the word by single additions and subtractions (`Shared.adjustments`), and
`Shared.ledger` lists those that a run with checked sums attempts. Done on numbers without bounds, the
adjustments always leave the total weight of the entries that are held (`Shared.exact_step`), so no value is
ever negative. The largest value of an admission is reached before anything is dropped; an admission that
overfills the cache (`Overfills`) is therefore the only way past the range of the word, and there the run
panics (`Shared.exact_in_range_iff`). Up to then it is the run where sums wrap (`Shared.Verdict`).
-/

namespace ConfigCompiler

variable {κ ε α : Type}

/-- One addition to the word that counts the weight, or one subtraction. -/
inductive Adjustment where
  | add (weight : UInt64)
  | sub (weight : UInt64)
  deriving DecidableEq

namespace Adjustment

def onWord (word : UInt64) : Adjustment → UInt64
  | add weight => word + weight
  | sub weight => word - weight

/-- The same on numbers without bounds. -/
def exactly (n : Int) : Adjustment → Int
  | add weight => n + weight.toNat
  | sub weight => n - weight.toNat

/-- The exact value after each adjustment. -/
def values (n : Int) : List Adjustment → List Int
  | [] => []
  | a :: as => a.exactly n :: values (a.exactly n) as

theorem values_append (n : Int) (as bs : List Adjustment) :
    values n (as ++ bs) = values n as ++ values (as.foldl exactly n) bs := by
  induction as generalizing n with
  | nil => rfl
  | cons a as ih => simp [values, ih]

theorem foldl_exactly_mem (n : Int) (as : List Adjustment) : as.foldl exactly n ∈ n :: values n as := by
  induction as generalizing n with
  | nil => exact List.mem_cons_self
  | cons a as ih => exact List.mem_cons_of_mem n (ih (a.exactly n))

end Adjustment

namespace Cache

/-- The subtractions for entries that leave. -/
def departures (es : List (Entry κ α)) : List Adjustment := es.map fun e => .sub e.weight

/-- The adjustments of an admission: for the entry that is replaced, the new one, and those dropped. -/
def admissionAdjustments [DecidableEq κ] [HasWeight α] (c : Cache κ ε α) (key : κ) (v : α) :
    List Adjustment :=
  match admittedWeight c.capacity v with
  | none => []
  | some weight =>
    let replaced := c.find? key
    let total := c.weight - (replaced.elim 0 Entry.weight) + weight
    departures replaced.toList ++ .add weight ::
      departures (evict c.capacity (⟨key, v, weight⟩ :: without c.entries key).reverse total).2.2

/-- The adjustments of an invalidation. -/
def invalidationAdjustments (c : Cache κ ε α) (doomed : κ → Bool) : List Adjustment :=
  departures (c.entries.filter (doomed ·.key))

/-! ## Departures -/

theorem onWord_departures (word : UInt64) (es : List (Entry κ α)) :
    (departures es).foldl Adjustment.onWord word = es.foldl (fun word e => word - e.weight) word := by
  rw [departures, List.foldl_map]
  rfl

theorem exactly_departures (es stay : List (Entry κ α)) :
    (departures es).foldl Adjustment.exactly (total (es ++ stay)) = total stay := by
  induction es with
  | nil => rfl
  | cons e es ih =>
    rw [departures, List.map_cons, List.foldl_cons, ← departures]
    have hsub : Adjustment.exactly (total (e :: es ++ stay)) (.sub e.weight) = total (es ++ stay) := by
      rw [List.cons_append, total_cons, Adjustment.exactly]
      omega
    rw [hsub, ih]

/-- While entries leave, the value is between the weight of what stays and the one before. -/
theorem values_departures (es stay : List (Entry κ α)) :
    ∀ n ∈ Adjustment.values (total (es ++ stay)) (departures es),
      total stay ≤ n ∧ n ≤ total (es ++ stay) := by
  induction es with
  | nil => simp [departures, Adjustment.values]
  | cons e es ih =>
    have hcons := total_cons e (es ++ stay)
    have hsub : Adjustment.exactly (total (e :: es ++ stay)) (.sub e.weight) = total (es ++ stay) := by
      rw [List.cons_append, hcons, Adjustment.exactly]
      omega
    intro n hn
    rw [departures, List.map_cons, ← departures, Adjustment.values, hsub] at hn
    have hstay : total stay ≤ total (es ++ stay) := total_sublist (List.sublist_append_right es stay)
    rw [List.cons_append, hcons]
    rcases List.mem_cons.1 hn with rfl | hn
    · omega
    · have := ih n hn
      omega

theorem evict_onWord (capacity : Capacity) (es : List (Entry κ α)) (weight : UInt64) :
    (evict capacity es weight).2.1 =
      (departures (evict capacity es weight).2.2).foldl Adjustment.onWord weight := by
  rw [onWord_departures]
  induction es generalizing weight with
  | nil => rfl
  | cons e es ih =>
    rw [evict]
    split
    · exact ih (weight - e.weight)
    · rfl

/-! ## Admissions and invalidations -/

section
variable [DecidableEq κ] [HasWeight α] {c : Cache κ ε α}

theorem admissionAdjustments_of_tooHeavy {key : κ} {v : α} (hv : c.capacity.TooHeavy v) :
    c.admissionAdjustments key v = [] := by
  simp only [admissionAdjustments, admittedWeight_of_tooHeavy hv]

theorem weight_insert (c : Cache κ ε α) (key : κ) (v : α) :
    (c.insert key v).1.weight = (c.admissionAdjustments key v).foldl Adjustment.onWord c.weight := by
  unfold insert admissionAdjustments
  cases admittedWeight c.capacity v with
  | none => rfl
  | some weight =>
    simp only [List.foldl_append, List.foldl_cons]
    rw [evict_onWord]
    cases c.find? key with
    | none => simp [departures, Adjustment.onWord]
    | some e => simp [departures, Adjustment.onWord]

omit [HasWeight α] in
/-- The entry of a key, if there is one, and the others weigh as much as all. -/
theorem Weighed.total_split (h : Weighed c) (key : κ) :
    total c.entries = total ((c.find? key).toList ++ without c.entries key) := by
  cases hf : c.find? key with
  | none => rw [without_of_find?_eq_none hf, Option.toList_none, List.nil_append]
  | some e =>
    obtain ⟨hm, rfl⟩ := find?_eq_some hf
    exact (total_perm (cons_without_perm h.keys_nodup hm)).symm

/-- An admission takes off what it replaces, adds the payload, and takes off what it drops. -/
theorem Weighed.admission (h : Weighed c) (key : κ) {v : α} (hv : ¬ c.capacity.TooHeavy v) :
    ∃ replaced dropped : List (Entry κ α),
      c.admissionAdjustments key v =
        departures replaced ++ .add (c.capacity.weightOf v) :: departures dropped ∧
      total c.entries = total (replaced ++ without c.entries key) ∧
      Adjustment.exactly (total (without c.entries key)) (.add (c.capacity.weightOf v)) =
        total (dropped ++ (c.insert key v).1.entries) := by
  refine ⟨(c.find? key).toList,
    (evict c.capacity (⟨key, v, c.capacity.weightOf v⟩ :: without c.entries key).reverse
      (c.weight - (c.find? key).elim 0 Entry.weight + c.capacity.weightOf v)).2.2, ?_, h.total_split key, ?_⟩
  · simp only [admissionAdjustments, admittedWeight_of_not_tooHeavy hv]
  · rw [(insert_of_not_tooHeavy key hv).1, total_perm ((List.reverse_perm _).append_left _), evict_append,
      total_perm (List.reverse_perm _), total_cons]
    show (total (without c.entries key) : Int) + (c.capacity.weightOf v).toNat =
      ((c.capacity.weightOf v).toNat + total (without c.entries key) : Nat)
    omega

theorem exactly_admission (h : Weighed c) (key : κ) (v : α) :
    (c.admissionAdjustments key v).foldl Adjustment.exactly (total c.entries) =
      total (c.insert key v).1.entries := by
  by_cases hv : c.capacity.TooHeavy v
  · rw [admissionAdjustments_of_tooHeavy hv, insert_of_tooHeavy hv]
    rfl
  · obtain ⟨replaced, dropped, hc, hbefore, hafter⟩ := h.admission key hv
    rw [hc, List.foldl_append, List.foldl_cons, hbefore, exactly_departures, hafter, exactly_departures]

/-- The values of an admission are the largest right after the addition. -/
theorem values_admission (h : Weighed c) {key : κ} {v : α} {n : Int}
    (hn : n ∈ Adjustment.values (total c.entries) (c.admissionAdjustments key v)) :
    0 ≤ n ∧ (n ≤ total c.entries ∨
      n ≤ total (without c.entries key) + (c.capacity.weightOf v).toNat) := by
  by_cases hv : c.capacity.TooHeavy v
  · rw [admissionAdjustments_of_tooHeavy hv] at hn
    cases hn
  · obtain ⟨replaced, dropped, hc, hbefore, hafter⟩ := h.admission key hv
    rw [hc, Adjustment.values_append, hbefore, exactly_departures, Adjustment.values, hafter] at hn
    rw [Adjustment.exactly] at hafter
    rcases List.mem_append.1 hn with hn | hn
    · have := values_departures replaced (without c.entries key) n hn
      omega
    · rcases List.mem_cons.1 hn with rfl | hn
      · omega
      · have := values_departures dropped (c.insert key v).1.entries n hn
        omega

/-- What an admission attempts up to the addition of its payload's weight. -/
def attempts (c : Cache κ ε α) (key : κ) (v : α) : List Adjustment :=
  departures (c.find? key).toList ++ [.add (c.capacity.weightOf v)]

/-- The addition leads to the weight of the other entries and the payload, from values in the range. -/
theorem Exact.values_attempts (h : Exact c) (key : κ) (v : α) :
    ∃ ns, Adjustment.values (total c.entries) (c.attempts key v) =
        ns ++ [(total (without c.entries key) + (c.capacity.weightOf v).toNat : Int)] ∧
      ∀ n ∈ ns, 0 ≤ n ∧ n < 2 ^ 64 := by
  have hbefore := h.total_split key
  have hlt := h.lt
  refine ⟨Adjustment.values (total c.entries) (departures (c.find? key).toList), ?_, fun n hn => ?_⟩
  · rw [attempts, Adjustment.values_append, hbefore, exactly_departures]
    rfl
  · rw [hbefore] at hn hlt
    have := values_departures _ _ n hn
    omega

omit [DecidableEq κ] [HasWeight α] in
theorem weight_invalidate (c : Cache κ ε α) (doomed : κ → Bool) : (c.invalidate doomed).1.weight =
    (c.invalidationAdjustments doomed).foldl Adjustment.onWord c.weight := by
  rw [invalidationAdjustments, onWord_departures]
  simp only [invalidate, List.partition_eq_filter_filter]

omit [DecidableEq κ] [HasWeight α] in
theorem total_invalidate (c : Cache κ ε α) (doomed : κ → Bool) :
    total (c.entries.filter (doomed ·.key) ++ (c.invalidate doomed).1.entries) = total c.entries := by
  rw [invalidate_entries]
  exact total_perm (List.filter_append_perm (fun e : Entry κ α => doomed e.key) c.entries)

/-! ## Steps -/

namespace Shared

variable {s s' : Shared κ ε α}

/-- What an event does to the word that counts the weight, one operation after the other. -/
def adjustments (s : Shared κ ε α) : Event κ ε α → List Adjustment
  | .invalidate doomed => s.cache.invalidationAdjustments doomed
  | e => (s.admission? e).elim [] fun (key, v) => s.cache.admissionAdjustments key v

/-- An event invalidates, or admits a payload, or leaves the entries alone but for their order. -/
inductive Weighing (s : Shared κ ε α) (e : Event κ ε α) (c : Cache κ ε α) : Prop
  | dropped (doomed : κ → Bool) (hnone : s.admission? e = none)
      (ha : s.adjustments e = s.cache.invalidationAdjustments doomed)
      (hc : c = (s.cache.invalidate doomed).1)
  | admitted (key : κ) (v : α) (hsome : s.admission? e = some (key, v))
      (ha : s.adjustments e = s.cache.admissionAdjustments key v)
      (he : c.entries = (s.cache.insert key v).1.entries)
      (hw : c.weight = (s.cache.insert key v).1.weight)
  | kept (hnone : s.admission? e = none) (ha : s.adjustments e = [])
      (he : c.entries.Perm s.cache.entries) (hw : c.weight = s.cache.weight)

theorem step_weighing (h : Weighed s.cache) {e : Event κ ε α} (hs : s.step e = some s') :
    Weighing s e s'.cache := by
  have hhit {key : κ} {x : Entry κ α} (hx : s.cache.find? key = some x) :
      (s.cache.hit x).entries.Perm s.cache.entries :=
    cons_without_perm h.keys_nodup (find?_eq_some hx).1
  cases e with
  | get key =>
    cases hs
    refine .kept rfl rfl ?_ ?_ <;> rcases get_cases s.cache key with ⟨x, hx, hg⟩ | ⟨-, hg⟩ <;> rw [hg]
    · exact hhit hx
    · rfl
  | insert key v => cases hs; exact .admitted key v rfl rfl rfl rfl
  | invalidate doomed => cases hs; exact .dropped doomed rfl rfl rfl
  | call key d => cases hs; exact .kept rfl rfl (.refl _) rfl
  | ask i =>
    obtain ⟨key, d, -, rfl⟩ := step_ask hs
    refine .kept rfl rfl ?_ ?_ <;>
      rcases enter_cases s.cache key with ⟨x, hx, he⟩ | ⟨g, -, -, he⟩ | ⟨-, -, he⟩ <;> rw [he]
    · exact hhit hx
    · rfl
  | finish i r =>
    obtain ⟨key, f, hi, rfl⟩ := step_finish hs
    cases r with
    | error err => exact .kept rfl rfl (.refl _) rfl
    | ok v =>
      cases hst : s.cache.isStale f with
      | true =>
        have hnone : s.admission? (.finish i (.ok v)) = none := by
          simp only [admission?, hi, hst, if_true]
        refine .kept hnone (by simp only [adjustments, hnone, Option.elim_none]) ?_ ?_ <;>
          rw [finish_of_stale v hst]
        · exact .refl _
        · rfl
      | false =>
        have hsome : s.admission? (.finish i (.ok v)) = some (key, v) := by
          simp [admission?, hi, hst]
        obtain ⟨he, hw⟩ := insert_release s.cache key f v
        refine .admitted key v hsome (by simp only [adjustments, hsome, Option.elim_some]) ?_ ?_ <;>
          rw [finish_of_fresh v hst]
        · exact he
        · exact hw
  | unwind i =>
    obtain ⟨key, f, -, rfl⟩ := step_unwind hs
    exact .kept rfl rfl (.refl _) rfl
  | wake i =>
    obtain ⟨key, f, d, -, ⟨r, -, rfl⟩ | ⟨-, rfl⟩⟩ := step_wake hs
    · exact .kept rfl rfl (.refl _) rfl
    · exact .kept rfl rfl (.refl _) rfl
  | timeOut i =>
    obtain ⟨key, f, d, -, -, rfl⟩ := step_timeOut hs
    exact .kept rfl rfl (.refl _) rfl

/-- The word follows the adjustments of a step. -/
theorem weight_step (h : Weighed s.cache) {e : Event κ ε α} (hs : s.step e = some s') :
    s'.cache.weight = (s.adjustments e).foldl Adjustment.onWord s.cache.weight := by
  cases step_weighing h hs with
  | dropped doomed _ ha hc => rw [ha, hc, weight_invalidate]
  | admitted key v _ ha _ hw => rw [ha, hw, weight_insert]
  | kept _ ha _ hw => rw [ha, hw, List.foldl_nil]

/-- Done exactly, the adjustments of a step lead from the weight of the entries before to that after. -/
theorem exact_step (h : Weighed s.cache) {e : Event κ ε α} (hs : s.step e = some s') :
    (s.adjustments e).foldl Adjustment.exactly (total s.cache.entries) = total s'.cache.entries := by
  cases step_weighing h hs with
  | dropped doomed _ ha hc =>
    rw [ha, hc, ← total_invalidate s.cache doomed, invalidationAdjustments, exactly_departures]
  | admitted key v _ ha he _ => rw [ha, he, exactly_admission h]
  | kept _ ha he _ => rw [ha, total_perm he, List.foldl_nil]

theorem values_step_nonneg (h : Weighed s.cache) {e : Event κ ε α} (hs : s.step e = some s') :
    ∀ n ∈ Adjustment.values (total s.cache.entries) (s.adjustments e), 0 ≤ n := by
  intro n hn
  cases step_weighing h hs with
  | dropped doomed _ ha hc =>
    rw [ha, ← total_invalidate s.cache doomed, invalidationAdjustments] at hn
    have := values_departures _ _ n hn
    omega
  | admitted key v _ ha _ _ =>
    rw [ha] at hn
    exact (values_admission h hn).1
  | kept _ ha _ _ =>
    rw [ha] at hn
    cases hn

/-- A step that does not overfill the cache stays in the range. -/
theorem values_step_lt (h : Exact s.cache) {e : Event κ ε α} (hs : s.step e = some s')
    (hno : ∀ {key v}, s.admission? e = some (key, v) → ¬ s.cache.Overfills key v) :
    ∀ n ∈ Adjustment.values (total s.cache.entries) (s.adjustments e), n < 2 ^ 64 := by
  intro n hn
  have hlt := h.lt
  cases step_weighing h.toWeighed hs with
  | dropped doomed hnone ha hc =>
    have htotal := total_invalidate s.cache doomed
    rw [ha, ← htotal, invalidationAdjustments] at hn
    have := values_departures _ _ n hn
    omega
  | admitted key v hsome ha _ _ =>
    rw [ha] at hn
    by_cases hv : s.cache.capacity.TooHeavy v
    · rw [admissionAdjustments_of_tooHeavy hv] at hn
      cases hn
    · have hsum := lt_of_not_overfills hv (hno hsome)
      have := (values_admission h.toWeighed hn).2
      omega
  | kept hnone ha _ _ =>
    rw [ha] at hn
    cases hn

theorem accounted_of_not_overfills (h : Accounted s.cache) {e : Event κ ε α} (hs : s.step e = some s')
    (hno : ∀ {key v}, s.admission? e = some (key, v) → ¬ s.cache.Overfills key v) :
    Accounted s'.cache := by
  have hcap := (weighed_step h.toWeighed hs).2
  cases step_weighing h.toWeighed hs with
  | dropped doomed _ _ hc => exact hc ▸ h.invalidate doomed
  | admitted key v hsome _ he hw =>
    refine (h.insert fun hv budget _ => ?_).congr (hcap.trans (insert_capacity ..).symm) he hw
    have hlt := lt_of_not_overfills hv (hno hsome)
    rw [total_cons]
    show (s.cache.capacity.weightOf v).toNat + total (Cache.without s.cache.entries key) < 2 ^ 64
    omega
  | kept _ _ he hw => exact h.perm hcap he hw

/-- A step that does not overfill the cache leaves the word exact. -/
theorem exact_of_not_overfills (h : Exact s.cache) {e : Event κ ε α} (hs : s.step e = some s')
    (hno : ∀ {key v}, s.admission? e = some (key, v) → ¬ s.cache.Overfills key v) : Exact s'.cache := by
  refine ⟨accounted_of_not_overfills h.toAccounted hs hno, ?_⟩
  -- what the step leaves is one of its values
  have hlast := Adjustment.foldl_exactly_mem (total s.cache.entries) (s.adjustments e)
  rw [exact_step h.toWeighed hs] at hlast
  rcases List.mem_cons.1 hlast with heq | hmem
  · have := h.lt
    omega
  · have := values_step_lt h hs hno _ hmem
    omega

/-! ## Runs -/

/--
What a run with checked sums attempts to do to the word that counts the weight, one operation after the
other; at a panic the last of them fails.
-/
def ledger : Shared κ ε α → List (Event κ ε α) → List Adjustment
  | _, [] => []
  | s, e :: es =>
    match s.stepChecked e with
    | none => []
    | some (.ok s') => s.adjustments e ++ ledger s' es
    | some (.error _) => (s.admission? e).elim [] fun (key, v) => s.cache.attempts key v

/-- An admission of a payload under a key to a cache. -/
structure Admission (κ ε α : Type) where
  cache : Cache κ ε α
  key : κ
  value : α

def Admission.Overfills (a : Admission κ ε α) : Prop := a.cache.Overfills a.key a.value

/-- The admission that an event is, with the cache as it was. -/
def admissionOf? (s : Shared κ ε α) (e : Event κ ε α) : Option (Admission κ ε α) :=
  (s.admission? e).map fun (key, v) => ⟨s.cache, key, v⟩

/-- The admissions of a run with checked sums, up to its end or to the one that panics. -/
def admissions : Shared κ ε α → List (Event κ ε α) → List (Admission κ ε α)
  | _, [] => []
  | s, e :: es =>
    match s.stepChecked e with
    | none => []
    | some (.ok s') => (s.admissionOf? e).toList ++ admissions s' es
    | some (.error _) => (s.admissionOf? e).toList

/--
A run with checked sums returns as the run where they wrap, with all values in the range and the word exact,
or it panics at the first admission that overfills the cache, whose addition alone leaves the range.
-/
inductive Verdict (s : Shared κ ε α) (es : List (Event κ ε α)) :
    Except (Shared κ ε α) (Shared κ ε α) → Prop
  | returned {s' : Shared κ ε α} (hrun : s.run es = some s') (hexact : Exact s'.cache)
      (hword : s'.cache.weight = (ledger s es).foldl Adjustment.onWord s.cache.weight)
      (hvalues : ∀ n ∈ Adjustment.values (total s.cache.entries) (ledger s es), 0 ≤ n ∧ n < 2 ^ 64)
      (hno : ∀ a ∈ admissions s es, ¬ a.Overfills) : Verdict s es (.ok s')
  | panicked {s₁ s' : Shared κ ε α} {es₁ es₂ : List (Event κ ε α)} {e : Event κ ε α} {key : κ} {v : α}
      (hes : es = es₁ ++ e :: es₂) (hrun : s.runChecked es₁ = some (.ok s₁))
      (hover : Overfilled s₁ e key v s') (hadm : ⟨s₁.cache, key, v⟩ ∈ admissions s es)
      (hvalues : ∃ ns n, Adjustment.values (total s.cache.entries) (ledger s es) = ns ++ [n] ∧
        (∀ m ∈ ns, 0 ≤ m ∧ m < 2 ^ 64) ∧ 2 ^ 64 ≤ n) : Verdict s es (.error s')

/-- A first event that overfills the cache. -/
theorem Overfilled.verdict (h : Exact s.cache) {e : Event κ ε α} {key : κ} {v : α}
    (ho : Overfilled s e key v s') (hs : s.stepChecked e = some (.error s')) (es : List (Event κ ε α)) :
    Verdict s (e :: es) (.error s') := by
  refine .panicked (List.nil_append _).symm rfl ho ?_ ?_
  · simp [admissions, hs, admissionOf?, ho.admits]
  · obtain ⟨ns, hns, hrange⟩ := h.values_attempts key v
    have hledger : ledger s (e :: es) = s.cache.attempts key v := by
      simp only [ledger, hs, ho.admits, Option.elim_some]
    have hover := ho.overfills.2
    rw [hledger, hns]
    exact ⟨ns, _, rfl, hrange, by omega⟩

/-- A first event that returns, before a run. -/
theorem Verdict.cons {s₁ : Shared κ ε α} (h : Exact s.cache) {e : Event κ ε α}
    (hc : s.stepChecked e = some (.ok s₁)) (hs : s.step e = some s₁)
    (hno : ∀ {key v}, s.admission? e = some (key, v) → ¬ s.cache.Overfills key v)
    {es : List (Event κ ε α)} {out : Except (Shared κ ε α) (Shared κ ε α)} (hv : Verdict s₁ es out) :
    Verdict s (e :: es) out := by
  have hledger : ledger s (e :: es) = s.adjustments e ++ ledger s₁ es := by simp only [ledger, hc]
  have hadmissions : admissions s (e :: es) = (s.admissionOf? e).toList ++ admissions s₁ es := by
    simp only [admissions, hc]
  have hrange : ∀ n ∈ Adjustment.values (total s.cache.entries) (s.adjustments e), 0 ≤ n ∧ n < 2 ^ 64 :=
    fun n hn => ⟨values_step_nonneg h.toWeighed hs n hn, values_step_lt h hs hno n hn⟩
  have hsplit : Adjustment.values (total s.cache.entries) (ledger s (e :: es)) =
      Adjustment.values (total s.cache.entries) (s.adjustments e) ++
        Adjustment.values (total s₁.cache.entries) (ledger s₁ es) := by
    rw [hledger, Adjustment.values_append, exact_step h.toWeighed hs]
  cases hv with
  | returned hrun hexact hword hvalues hno' =>
    refine .returned ?_ hexact ?_ ?_ ?_
    · rw [run_cons, hs]
      exact hrun
    · rw [hledger, List.foldl_append, ← weight_step h.toWeighed hs, hword]
    · rw [hsplit, List.forall_mem_append]
      exact ⟨hrange, hvalues⟩
    · rw [hadmissions, List.forall_mem_append]
      refine ⟨fun a ha => ?_, hno'⟩
      obtain ⟨⟨key, v⟩, hsome, rfl⟩ := Option.map_eq_some_iff.1 (Option.mem_toList.1 ha)
      exact hno hsome
  | @panicked _ _ es₁ es₂ e' _ _ hes hrun hover hadm hvalues =>
    have hes' : e :: es = (e :: es₁) ++ e' :: es₂ := congrArg (e :: ·) hes
    refine .panicked hes' ?_ hover ?_ ?_
    · simp only [runChecked, hc]
      exact hrun
    · rw [hadmissions]
      exact List.mem_append_right _ hadm
    · obtain ⟨ns, n, hns, hin, hn⟩ := hvalues
      refine ⟨_, n, by rw [hsplit, hns, List.append_assoc], ?_, hn⟩
      exact List.forall_mem_append.2 ⟨hrange, hin⟩

/-- Every run with checked sums from an exact word has a verdict. -/
theorem verdict_run (h : Exact s.cache) (hI : Inv s) {es : List (Event κ ε α)}
    {out : Except (Shared κ ε α) (Shared κ ε α)} (hs : s.runChecked es = some out) : Verdict s es out := by
  induction es generalizing s with
  | nil =>
    cases hs
    exact .returned rfl h rfl (by simp [ledger, Adjustment.values]) (by simp [admissions])
  | cons e es ih =>
    rw [runChecked] at hs
    cases hc : s.stepChecked e with
    | none =>
      rw [hc] at hs
      cases hs
    | some r =>
      rw [hc] at hs
      rcases stepChecked_cases h hI hc with ⟨s₁, rfl, hstep, hno⟩ | ⟨s₁, key, v, rfl, ho⟩
      · exact .cons h hc hstep hno (ih (exact_of_not_overfills h hstep hno) (hI.step hstep) hs)
      · cases hs
        exact ho.verdict h hc es

/-- What can happen where sums wrap can happen where they are checked, up to a panic. -/
theorem runChecked_of_run (h : Exact s.cache) (hI : Inv s) {es : List (Event κ ε α)}
    (hs : s.run es = some s') : ∃ out, s.runChecked es = some out := by
  induction es generalizing s with
  | nil => exact ⟨_, rfl⟩
  | cons e es ih =>
    obtain ⟨s₁, h₁, h₂⟩ := Option.bind_eq_some_iff.1 (run_cons s e es ▸ hs)
    obtain ⟨r, hc⟩ := stepChecked_of_step h₁
    rw [runChecked, hc]
    rcases stepChecked_cases h hI hc with ⟨s₂, rfl, hstep, hno⟩ | ⟨s₂, key, v, rfl, -⟩
    · cases h₁.symm.trans hstep
      exact ih (exact_of_not_overfills h h₁ hno) (hI.step h₁) h₂
    · exact ⟨_, rfl⟩

end Shared

omit [DecidableEq κ] in
/-- A limit below half of the range leaves room for each payload that is not too heavy. -/
theorem room_of_half {capacity : Capacity} (hlimit : capacity.limit < 2 ^ 63) {v : α}
    (hv : ¬ capacity.TooHeavy v) : capacity.limit + (capacity.weightOf v).toNat < 2 ^ 64 := by
  cases capacity with
  | entries limit =>
    have hlimit : limit < 2 ^ 63 := hlimit
    show limit + 1 < 2 ^ 64
    omega
  | weight budget =>
    have hlimit : budget.toNat < 2 ^ 63 := hlimit
    have hle : (HasWeight.weight v).toNat ≤ budget.toNat := UInt64.not_lt.1 hv
    show budget.toNat + (HasWeight.weight v).toNat < 2 ^ 64
    omega

/-- What is held and a payload can be weighed together if the limit and the payload can. -/
theorem Accounted.not_overfills (h : Accounted c) (key : κ) {v : α}
    (hroom : ¬ c.capacity.TooHeavy v → c.capacity.limit + (c.capacity.weightOf v).toNat < 2 ^ 64) :
    ¬ c.Overfills key v := by
  intro hover
  obtain ⟨hv, hover⟩ := hover
  have hroom := hroom hv
  have hheld := total_le_limit h.recorded h.fits
  have hpart : total (without c.entries key) ≤ total c.entries := total_sublist List.filter_sublist
  omega

namespace Shared

variable {s s' : Shared κ ε α}

theorem not_overfills_of_room (h : Exact s.cache) (hI : Inv s) (es : List (Event κ ε α))
    (hroom : ∀ a ∈ admissions s es, ¬ s.cache.capacity.TooHeavy a.value →
      s.cache.capacity.limit + (s.cache.capacity.weightOf a.value).toNat < 2 ^ 64) :
    ∀ a ∈ admissions s es, ¬ a.Overfills := by
  induction es generalizing s with
  | nil => simp [admissions]
  | cons e es ih =>
    have hfirst : (∀ a ∈ (s.admissionOf? e).toList, ¬ s.cache.capacity.TooHeavy a.value →
        s.cache.capacity.limit + (s.cache.capacity.weightOf a.value).toNat < 2 ^ 64) →
        ∀ a ∈ (s.admissionOf? e).toList, ¬ a.Overfills := by
      intro hroom a ha
      have hroom := hroom a ha
      obtain ⟨⟨key, v⟩, -, rfl⟩ := Option.map_eq_some_iff.1 (Option.mem_toList.1 ha)
      exact h.toAccounted.not_overfills key hroom
    rw [admissions] at hroom ⊢
    cases hc : s.stepChecked e with
    | none => simp
    | some r =>
      simp only [hc] at hroom ⊢
      rcases stepChecked_cases h hI hc with ⟨s₁, rfl, hstep, hno⟩ | ⟨s₁, key, v, rfl, -⟩
      · simp only [List.forall_mem_append] at hroom ⊢
        refine ⟨hfirst hroom.1, ih (exact_of_not_overfills h hstep hno) (hI.step hstep) ?_⟩
        rw [(weighed_step h.toWeighed hstep).2]
        exact hroom.2
      · exact hfirst hroom

/--
The adjustments of a run with checked sums, done on numbers without bounds, are never negative. The run
returns just if they all stay in the range of the word, which is so just if no admission overfills the cache;
then it is the run where sums wrap, and the word follows the adjustments and counts the weight of the entries.
Otherwise it panics at an admission that overfills the cache, and leaves behind what `Overfilled` says. It
returns if the limit and each payload that is admitted can be counted together, and so for every limit below
half of the range.
-/
theorem exact_in_range_iff {capacity : Capacity} {es : List (Event κ ε α)}
    {out : Except (Shared κ ε α) (Shared κ ε α)} (hs : (start capacity).runChecked es = some out) :
    (∀ n ∈ Adjustment.values 0 (ledger (start capacity) es), 0 ≤ n) ∧
    ((∃ s, out = .ok s) ↔ ∀ n ∈ Adjustment.values 0 (ledger (start capacity) es), n < 2 ^ 64) ∧
    ((∃ s, out = .ok s) ↔ ∀ a ∈ admissions (start capacity) es, ¬ a.Overfills) ∧
    (∀ s, out = .ok s → (start capacity).run es = some s ∧
      s.cache.weight = (ledger (start capacity) es).foldl Adjustment.onWord 0 ∧
      s.cache.weight.toNat = total s.cache.entries) ∧
    (∀ s, out = .error s → ∃ es₁ e es₂ s₁ key v, es = es₁ ++ e :: es₂ ∧
      (start capacity).runChecked es₁ = some (.ok s₁) ∧ Overfilled s₁ e key v s) ∧
    ((∀ a ∈ admissions (start capacity) es, ¬ capacity.TooHeavy a.value →
        capacity.limit + (capacity.weightOf a.value).toNat < 2 ^ 64) → ∃ s, out = .ok s) ∧
    (capacity.limit < 2 ^ 63 → ∃ s, out = .ok s) := by
  have hE : Exact (start capacity : Shared κ ε α).cache := .empty capacity
  have hroom := not_overfills_of_room hE (Inv.start capacity) es
  have hreturns : (∃ s, out = .ok s) ↔ ∀ a ∈ admissions (start capacity) es, ¬ a.Overfills := by
    cases verdict_run hE (Inv.start capacity) hs with
    | returned _ _ _ _ hno => exact iff_of_true ⟨_, rfl⟩ hno
    | panicked _ _ hover hadm _ =>
      refine iff_of_false (fun ⟨_, h⟩ => by cases h) fun hno => ?_
      exact hno _ hadm hover.overfills
  have hhalf (hlimit : capacity.limit < 2 ^ 63) : ∃ s, out = .ok s :=
    hreturns.2 (hroom fun _ _ => room_of_half hlimit)
  cases verdict_run hE (Inv.start capacity) hs with
  | returned hrun hexact hword hvalues _ =>
    refine ⟨fun n hn => (hvalues n hn).1, iff_of_true ⟨_, rfl⟩ fun n hn => (hvalues n hn).2, hreturns, ?_,
      ?_, fun h => hreturns.2 (hroom h), hhalf⟩
    · rintro s ⟨⟩
      exact ⟨hrun, hword, hexact.toNat_weight⟩
    · intro s h
      cases h
  | panicked hes hrun hover _ hvalues =>
    obtain ⟨ns, n, hns, hin, hn⟩ := hvalues
    have hns : Adjustment.values 0 (ledger (start capacity) es) = ns ++ [n] := hns
    refine ⟨?_, iff_of_false (fun ⟨_, h⟩ => by cases h) fun hall => ?_, hreturns, ?_, ?_,
      fun h => hreturns.2 (hroom h), hhalf⟩
    · rw [hns, List.forall_mem_append]
      refine ⟨fun m hm => (hin m hm).1, fun m hm => ?_⟩
      cases List.mem_singleton.1 hm
      omega
    · have := hall n (hns ▸ List.mem_append_right _ List.mem_cons_self)
      omega
    · intro s h
      cases h
    · rintro s ⟨⟩
      exact ⟨_, _, _, _, _, _, hes, hrun, hover⟩

/-- A payload of half the range takes the place of another: the earlier one is taken off first. -/
theorem exact_in_range_replaced :
    ∃ s : Shared Nat String Script.Item,
      (start (.weight 18446744073709551615)).runChecked
        [.insert 0 ⟨1, 9223372036854775808⟩, .insert 0 ⟨2, 9223372036854775808⟩] = some (.ok s) ∧
      (∀ n ∈ Adjustment.values 0
          (ledger (start (.weight 18446744073709551615) : Shared Nat String Script.Item)
            [.insert 0 ⟨1, 9223372036854775808⟩, .insert 0 ⟨2, 9223372036854775808⟩]),
        0 ≤ n ∧ n < 2 ^ 64) ∧
      s.cache.weight.toNat = 2 ^ 63 := by
  have hs : (start (.weight 18446744073709551615) : Shared Nat String Script.Item).runChecked
      [.insert 0 ⟨1, 9223372036854775808⟩, .insert 0 ⟨2, 9223372036854775808⟩] = some (.ok _) := rfl
  obtain ⟨hnonneg, hiff, -⟩ := exact_in_range_iff hs
  exact ⟨_, rfl, fun n hn => ⟨hnonneg n hn, hiff.1 ⟨_, rfl⟩ n hn⟩, rfl⟩

/--
Two payloads of half the range are within the largest budget one at a time. Before the first is dropped, the
addition for the second leaves the range and panics; both are held then, and one of them is counted.
-/
theorem exact_leaves_range :
    ∃ s : Shared Nat String Script.Item,
      (start (.weight 18446744073709551615)).runChecked
        [.insert 0 ⟨1, 9223372036854775808⟩, .insert 1 ⟨2, 9223372036854775808⟩] = some (.error s) ∧
      (2 ^ 64 ∈ Adjustment.values 0
        (ledger (start (.weight 18446744073709551615) : Shared Nat String Script.Item)
          [.insert 0 ⟨1, 9223372036854775808⟩, .insert 1 ⟨2, 9223372036854775808⟩])) ∧
      s.cache.weight.toNat = 2 ^ 63 ∧ s.cache.entries.map Entry.key = [1, 0] ∧ s.cache.evictions = 0 :=
  ⟨_, rfl, by decide, rfl, rfl, rfl⟩

end Shared

end

end Cache

end ConfigCompiler
