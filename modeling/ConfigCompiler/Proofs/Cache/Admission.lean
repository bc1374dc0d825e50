import ConfigCompiler.Proofs.Cache.Recency

/-!
# What a cache holds for a key after an admission

Every run keeps the account of the weights (`weighed_run`), whether or not the word that counts them has
wrapped. Eviction therefore stops before the newest entry, whose own weight is within the budget
(`evict_keeps_newest`), and what an admission leaves for its key is known (`Weighed.get_insert`): the new
payload, nothing where no entry may be held, or, for a payload heavier than the budget, what there was.
`get_after_admission` says so of direct insertions and of productions, and when an earlier payload is seen in
place of the new one.
-/

namespace ConfigCompiler.Cache

variable {κ ε α : Type}

/-! ## Eviction -/

/-- A newest entry that may be held alone is kept, whatever is dropped before it. -/
theorem evict_keeps_newest {capacity : Capacity} {e : Entry κ α}
    (he : capacity.exceeded 1 e.weight = false) (es : List (Entry κ α)) :
    ∃ kept, (evict capacity (es ++ [e]) (totalWord (es ++ [e]))).1 = kept ++ [e] := by
  induction es with
  | nil =>
    have hw : totalWord [e] = e.weight := by rw [totalWord_cons]; exact UInt64.zero_add _
    refine ⟨[], ?_⟩
    rw [List.nil_append, evict, hw, List.length_nil, Nat.zero_add, he]
    rfl
  | cons x es ih =>
    rw [List.cons_append, evict, totalWord_cons_sub]
    split
    · exact ih
    · exact ⟨x :: es, rfl⟩

/-- Of a limited number of entries, the newest stay. -/
theorem evict_entries (limit : Nat) (es : List (Entry κ α)) (weight : UInt64) :
    (evict (.entries limit) es weight).1 = es.drop (es.length - limit) := by
  induction es generalizing weight with
  | nil =>
    rw [evict]
    exact List.drop_nil.symm
  | cons e es ih =>
    rw [evict, List.length_cons]
    by_cases h : limit < es.length + 1
    · rw [if_pos (by simp [Capacity.exceeded, h])]
      change (evict (.entries limit) es _).1 = _
      rw [ih, Nat.succ_sub (Nat.le_of_lt_succ h), List.drop_succ_cons]
    · rw [if_neg (by simp [Capacity.exceeded, h]), Nat.sub_eq_zero_of_le (Nat.le_of_not_lt h), List.drop_zero]

/-! ## Admission -/

section
variable [DecidableEq κ] {c : Cache κ ε α}

theorem get_snd (c : Cache κ ε α) (key : κ) : (c.get key).2 = (c.find? key).map Entry.value := by
  rcases get_cases c key with ⟨e, he, hg⟩ | ⟨he, hg⟩ <;> rw [hg, he] <;> rfl

theorem get_congr {c' : Cache κ ε α} (h : c'.entries = c.entries) (key : κ) :
    (c'.get key).2 = (c.get key).2 := by rw [get_snd, get_snd, find?, find?, h]

variable [HasWeight α]

omit [DecidableEq κ] in
/-- A payload may be held alone unless it is too heavy or no entry may be held. -/
theorem exceeded_one_weightOf {capacity : Capacity} {v : α} (hv : ¬ capacity.TooHeavy v)
    (hc : capacity ≠ .entries 0) : capacity.exceeded 1 (capacity.weightOf v) = false := by
  cases capacity with
  | entries limit =>
    have hlimit : limit ≠ 0 := fun h => hc (by rw [h])
    exact decide_eq_false (Nat.not_lt.2 (Nat.one_le_iff_ne_zero.2 hlimit))
  | weight budget => exact decide_eq_false hv

/-- Of a limited number of entries, the most recently used stay. -/
theorem entries_insert_entries {limit : Nat} (hc : c.capacity = .entries limit) (key : κ) (v : α) :
    (c.insert key v).1.entries = (⟨key, v, 1⟩ :: without c.entries key).take limit := by
  have hkept := evict_entries limit (⟨key, v, 1⟩ :: without c.entries key).reverse
    (c.weight - (c.find? key).elim 0 Entry.weight + 1)
  rw [List.drop_reverse, List.length_reverse] at hkept
  simp only [insert, admittedWeight, hc, hkept, List.reverse_reverse]
  rw [List.take_eq_take_iff]
  omega

/-- What an admission leaves for a key, where the cache held `old?` for it. -/
def admitted (capacity : Capacity) (old? : Option α) (v : α) : Option α :=
  if capacity.TooHeavy v then old? else if capacity = .entries 0 then none else some v

theorem Weighed.get_insert (h : Weighed c) (key : κ) (v : α) :
    ((c.insert key v).1.get key).2 = admitted c.capacity (c.get key).2 v := by
  rw [admitted]
  split
  · rename_i hv
    rw [insert_of_tooHeavy hv]
  · rename_i hv
    obtain ⟨he, -⟩ := h.insert_evict key hv rfl
    rw [List.reverse_cons] at he
    rw [get_snd, find?, he]
    split
    · rename_i hc
      rw [hc, evict_entries, Nat.sub_zero, List.drop_length]
      rfl
    · rename_i hc
      obtain ⟨kept, hk⟩ := evict_keeps_newest
        (e := ⟨key, v, c.capacity.weightOf v⟩) (exceeded_one_weightOf hv hc)
        (without c.entries key).reverse
      rw [hk, List.reverse_append]
      simp

/-- An earlier payload is seen in place of an admitted one just if the admitted one is too heavy. -/
theorem admitted_eq_other_iff {capacity : Capacity} {old? : Option α} {v w : α} (hw : w ≠ v) :
    admitted capacity old? v = some w ↔ capacity.TooHeavy v ∧ old? = some w := by
  rw [admitted]
  split
  · rename_i hv
    simp [hv]
  · rename_i hv
    split <;> simp [hv, Ne.symm hw]

/-! ## Runs -/

namespace Shared

variable {s s' : Shared κ ε α}

theorem weighed_step (h : Weighed s.cache) {e : Event κ ε α} (hs : s.step e = some s') :
    Weighed s'.cache ∧ s'.cache.capacity = s.cache.capacity := by
  cases e with
  | get key =>
    cases hs
    rcases get_cases s.cache key with ⟨x, hx, hg⟩ | ⟨-, hg⟩ <;> rw [hg]
    · exact ⟨h.hit hx, rfl⟩
    · exact ⟨h, rfl⟩
  | insert key v => cases hs; exact ⟨h.insert key v, insert_capacity ..⟩
  | invalidate doomed => cases hs; exact ⟨h.invalidate doomed, rfl⟩
  | call key d => cases hs; exact ⟨h, rfl⟩
  | ask i =>
    obtain ⟨key, d, -, rfl⟩ := step_ask hs
    rcases enter_cases s.cache key with ⟨x, hx, he⟩ | ⟨g, -, -, he⟩ | ⟨-, -, he⟩ <;> rw [he]
    · exact ⟨h.hit hx, rfl⟩
    · exact ⟨h, rfl⟩
    · exact ⟨h.congr rfl rfl, rfl⟩
  | finish i r =>
    obtain ⟨key, f, -, rfl⟩ := step_finish hs
    have hrelease : Weighed (s.cache.release key f) := h.congr rfl rfl
    cases r with
    | error err => exact ⟨hrelease.congr rfl rfl, rfl⟩
    | ok v =>
      cases hst : s.cache.isStale f with
      | true =>
        rw [finish_of_stale v hst]
        exact ⟨hrelease.congr rfl rfl, rfl⟩
      | false =>
        rw [finish_of_fresh v hst]
        exact ⟨(hrelease.insert key v).congr rfl rfl, insert_capacity ..⟩
  | unwind i =>
    obtain ⟨key, f, -, rfl⟩ := step_unwind hs
    exact ⟨h.congr rfl rfl, rfl⟩
  | wake i =>
    obtain ⟨key, f, d, -, ⟨r, -, rfl⟩ | ⟨-, rfl⟩⟩ := step_wake hs <;> exact ⟨h.congr rfl rfl, rfl⟩
  | timeOut i =>
    obtain ⟨key, f, d, -, -, rfl⟩ := step_timeOut hs
    exact ⟨h, rfl⟩

theorem weighed_run {capacity : Capacity} {es : List (Event κ ε α)}
    (hs : (start capacity).run es = some s) : Weighed s.cache ∧ s.cache.capacity = capacity := by
  refine run_induction (fun s => Weighed s.cache ∧ s.cache.capacity = capacity)
    (fun s e s' h hs => ?_) ⟨Weighed.empty capacity, rfl⟩ hs
  obtain ⟨hw, hc⟩ := weighed_step h.1 hs
  exact ⟨hw, hc.trans h.2⟩

/--
What a cache holds for a key right after a payload is inserted, and right after a production of the key that
was not invalidated ends with it: what `admitted` says. This is an earlier payload just if the one given is
heavier than the whole budget and an earlier one, another than it, was held.
-/
theorem get_after_admission {capacity : Capacity} {es : List (Event κ ε α)}
    (hs : (start capacity).run es = some s) :
    (∀ key v, ∃ s', s.step (.insert key v) = some s' ∧
      (s'.cache.get key).2 = admitted capacity (s.cache.get key).2 v) ∧
    (∀ p ∈ productions (start capacity) [] es, p.landing = .running → p.invalidated = false →
      ∀ v, ∃ s', s.step (.finish p.caller (.ok v)) = some s' ∧
        (s'.cache.get p.key).2 = admitted capacity (s.cache.get p.key).2 v) ∧
    ∀ (old? : Option α) (v w : α), w ≠ v →
      (admitted capacity old? v = some w ↔ capacity.TooHeavy v ∧ old? = some w) := by
  obtain ⟨hw, hc⟩ := weighed_run hs
  have hI := inv_of_run hs
  have hT := (Told.start capacity).run (Inv.start capacity) hs
  refine ⟨fun key v => ⟨_, rfl, hc ▸ hw.get_insert key v⟩, fun p hp hr hv v => ?_,
    fun _ _ _ hne => admitted_eq_other_iff hne⟩
  have hcall := hT.called hp
  rw [Production.call_of_running hr] at hcall
  have he := congrArg Prod.fst (hI.finish_admits v hcall ((hT.slot hp hr).2 hv))
  refine ⟨_, finish_enabled hcall (.ok v), ?_⟩
  rw [← hc, ← hw.get_insert p.key v]
  exact get_congr he p.key

/-- Key 0 is replaced while a production of key 1 is running; the production is admitted as well. -/
theorem get_after_admission_replaced :
    ∃ s s₁ s₂ : Shared Nat String Script.Item,
      (start (.weight 10)).run [.insert 0 ⟨1, 4⟩, .call 1 none, .ask 0, .insert 1 ⟨2, 9⟩] = some s ∧
      s.step (.insert 0 ⟨3, 10⟩) = some s₁ ∧ (s₁.cache.get 0).2 = some ⟨3, 10⟩ ∧
      s.step (.finish 0 (.ok ⟨4, 5⟩)) = some s₂ ∧ (s.cache.get 1).2 = some ⟨2, 9⟩ ∧
      (s₂.cache.get 1).2 = some ⟨4, 5⟩ := by
  have hs : (start (.weight 10) : Shared Nat String Script.Item).run
      [.insert 0 ⟨1, 4⟩, .call 1 none, .ask 0, .insert 1 ⟨2, 9⟩] = some _ := rfl
  obtain ⟨hinsert, hfinish, -⟩ := get_after_admission hs
  obtain ⟨s₁, h₁, hg₁⟩ := hinsert 0 ⟨3, 10⟩
  obtain ⟨s₂, h₂, hg₂⟩ := hfinish ⟨0, 1, 0, false, .running⟩ List.mem_cons_self rfl rfl ⟨4, 5⟩
  exact ⟨_, s₁, s₂, rfl, h₁, hg₁.trans rfl, h₂, rfl, hg₂.trans rfl⟩

/--
A payload heavier than the budget leaves the earlier one of its key in place, if it is inserted, and likewise
if a production ends with it during which the earlier one was inserted.
-/
theorem oversized_leaves_earlier :
    (∃ s s' : Shared Nat String Script.Item,
      (start (.weight 10)).run [.insert 0 ⟨1, 4⟩] = some s ∧ s.step (.insert 0 ⟨2, 11⟩) = some s' ∧
      (s'.cache.get 0).2 = some ⟨1, 4⟩) ∧
    ∃ s s' : Shared Nat String Script.Item,
      (start (.weight 10)).run [.call 0 none, .ask 0, .insert 0 ⟨1, 4⟩] = some s ∧
      s.step (.finish 0 (.ok ⟨2, 11⟩)) = some s' ∧ (s'.cache.get 0).2 = some ⟨1, 4⟩ :=
  ⟨⟨_, _, rfl, rfl, rfl⟩, _, _, rfl, rfl, rfl⟩

end Shared

end

end ConfigCompiler.Cache
