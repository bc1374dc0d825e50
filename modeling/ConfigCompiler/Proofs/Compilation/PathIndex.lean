import ConfigCompiler.Compilation.PathIndex
import ConfigCompiler.Proofs.Key.Paths

/-!
# What the index by prefix holds

While keys are added, the span of a path reaches from the first key below the path to the last one
(`PathIndex.Covers`, kept by `Covers.add` and so by `Covers.addKeys`). Keys in ascending order leave no
other key between the two, so the span of a path holds the keys below it and no other
(`IsSpan.isBelow_iff`).
-/

namespace ConfigCompiler.PathIndex

/-- The span begins and ends with a key below the path, and no key outside is below it. -/
structure IsSpan (keys : List Key) (path : String) (span : Span) : Prop where
  first : ∃ k, keys[span.1]? = some k ∧ k.IsBelow path
  last : ∃ i k, span.2 = i + 1 ∧ keys[i]? = some k ∧ k.IsBelow path
  within : ∀ {i k}, keys[i]? = some k → k.IsBelow path → span.1 ≤ i ∧ i < span.2

/-- The index has the span of the path among the keys, and none if no key is below the path. -/
structure Covers (x : PathIndex) (keys : List Key) (path : String) : Prop where
  isSpan : ∀ {span}, x.span? path = some span → IsSpan keys path span
  none_below : x.span? path = none → ∀ k ∈ keys, ¬ k.IsBelow path

variable {x : PathIndex} {keys : List Key} {key : Key} {path : String} {span : Span} {n : Nat}

/-! ## Extending spans -/

theorem span?_extend (p : String) : (extend n x p).span? path =
    if p = path then some (((x.span? path).map Prod.fst).getD n, n + 1) else x.span? path := by
  unfold extend span?
  rw [Std.HashMap.getElem?_insert]
  simp only [beq_iff_eq]
  split
  · rename_i h
    rw [h]
  · rfl

theorem span?_foldl_extend (paths : List String) : (paths.foldl (extend n) x).span? path =
    if path ∈ paths then some (((x.span? path).map Prod.fst).getD n, n + 1) else x.span? path := by
  induction paths generalizing x with
  | nil => rw [List.foldl_nil, if_neg List.not_mem_nil]
  | cons p paths ih =>
    rw [List.foldl_cons, ih, span?_extend]
    by_cases hp : p = path
    · -- the first position is kept, whether or not the path comes again
      simp [hp]
    · simp [hp, Ne.symm hp]

theorem span?_add : (key.ancestors.foldl (extend n) x).span? path =
    if key.IsBelow path then some (((x.span? path).map Prod.fst).getD n, n + 1) else x.span? path := by
  rw [span?_foldl_extend]
  simp only [Key.mem_ancestors]

/-! ## One more key -/

theorem getElem?_concat_eq_some {i : Nat} {k : Key} :
    (keys ++ [key])[i]? = some k ↔ keys[i]? = some k ∨ i = keys.length ∧ k = key := by
  rcases Nat.lt_trichotomy i keys.length with hlt | rfl | hgt
  · rw [List.getElem?_append_left hlt]
    exact (or_iff_left fun h => Nat.ne_of_lt hlt h.1).symm
  · simp [eq_comm]
  · have hlen : (keys ++ [key]).length ≤ i := by
      rw [List.length_append, List.length_singleton]
      exact hgt
    rw [List.getElem?_eq_none hlen, List.getElem?_eq_none (Nat.le_of_lt hgt)]
    simp [Nat.ne_of_gt hgt]

theorem lt_length {i : Nat} {k : Key} (h : keys[i]? = some k) : i < keys.length :=
  (List.getElem?_eq_some_iff.1 h).1

theorem IsSpan.begin (hnone : ∀ k ∈ keys, ¬ k.IsBelow path) (hkey : key.IsBelow path) :
    IsSpan (keys ++ [key]) path (keys.length, keys.length + 1) where
  first := ⟨key, List.getElem?_concat_length, hkey⟩
  last := ⟨keys.length, key, rfl, List.getElem?_concat_length, hkey⟩
  within := by
    intro i k hi hk
    rcases getElem?_concat_eq_some.1 hi with hi | ⟨rfl, rfl⟩
    · exact absurd hk (hnone k (List.mem_of_getElem? hi))
    · exact ⟨Nat.le_refl _, Nat.lt_succ_self _⟩

theorem IsSpan.extend (h : IsSpan keys path span) (hkey : key.IsBelow path) :
    IsSpan (keys ++ [key]) path (span.1, keys.length + 1) where
  first := by
    obtain ⟨k, hk, hbelow⟩ := h.first
    exact ⟨k, getElem?_concat_eq_some.2 (.inl hk), hbelow⟩
  last := ⟨keys.length, key, rfl, List.getElem?_concat_length, hkey⟩
  within := by
    intro i k hi hk
    rcases getElem?_concat_eq_some.1 hi with hi | ⟨rfl, rfl⟩
    · exact ⟨(h.within hi hk).1, Nat.lt_succ_of_lt (lt_length hi)⟩
    · obtain ⟨a, ha, -⟩ := h.first
      exact ⟨Nat.le_of_lt (lt_length ha), Nat.lt_succ_self _⟩

theorem IsSpan.skip (h : IsSpan keys path span) (hkey : ¬ key.IsBelow path) :
    IsSpan (keys ++ [key]) path span where
  first := by
    obtain ⟨k, hk, hbelow⟩ := h.first
    exact ⟨k, getElem?_concat_eq_some.2 (.inl hk), hbelow⟩
  last := by
    obtain ⟨i, k, hi, hk, hbelow⟩ := h.last
    exact ⟨i, k, hi, getElem?_concat_eq_some.2 (.inl hk), hbelow⟩
  within := by
    intro i k hi hk
    rcases getElem?_concat_eq_some.1 hi with hi | ⟨rfl, rfl⟩
    · exact h.within hi hk
    · exact absurd hk hkey

/-- Adding a key keeps the spans of all paths. -/
theorem Covers.add (h : x.Covers keys path) (key : Key) :
    (key.ancestors.foldl (PathIndex.extend keys.length) x).Covers (keys ++ [key]) path where
  isSpan := by
    intro span hspan
    rw [span?_add] at hspan
    split at hspan
    · rename_i hkey
      cases hspan
      cases hx : x.span? path with
      | none => exact .begin (h.none_below hx) hkey
      | some span => exact (h.isSpan hx).extend hkey
    · rename_i hkey
      exact (h.isSpan hspan).skip hkey
  none_below := by
    intro hnone k hk
    rw [span?_add] at hnone
    split at hnone
    · cases hnone
    · rename_i hkey
      rcases List.mem_append.1 hk with hk | hk
      · exact h.none_below hnone k hk
      · exact List.mem_singleton.1 hk ▸ hkey

theorem Covers.addKeys {rest : List Key} (h : x.Covers keys path) :
    (x.addKeys keys.length rest).Covers (keys ++ rest) path := by
  induction rest generalizing x keys with
  | nil =>
    rw [List.append_nil]
    exact h
  | cons key rest ih =>
    have hcovers := ih (h.add key)
    rwa [List.length_append, List.append_assoc] at hcovers

theorem covers_empty (path : String) : empty.Covers [] path where
  isSpan h := by simp [empty, span?] at h
  none_below _ _ h := absurd h List.not_mem_nil

theorem covers_build (keys : List Key) (path : String) : (build keys).Covers keys path :=
  (covers_empty path).addKeys

/-! ## Keys in ascending order -/

/-- Among sorted keys those at the positions of the span are just those below the path. -/
theorem IsSpan.isBelow_iff (h : IsSpan keys path span)
    (hs : keys.Pairwise fun a b => a.text < b.text) {i : Nat} {k : Key} (hi : keys[i]? = some k) :
    k.IsBelow path ↔ span.1 ≤ i ∧ i < span.2 := by
  have hle {i j : Nat} {a b : Key} (ha : keys[i]? = some a) (hb : keys[j]? = some b) (hij : i ≤ j) :
      a.text ≤ b.text := by
    obtain ⟨hi, rfl⟩ := List.getElem?_eq_some_iff.1 ha
    obtain ⟨hj, rfl⟩ := List.getElem?_eq_some_iff.1 hb
    rcases Nat.lt_or_eq_of_le hij with hlt | rfl
    · exact String.not_lt.1 (String.lt_asymm (List.pairwise_iff_getElem.1 hs i j hi hj hlt))
    · exact String.le_refl _
  refine ⟨h.within hi, ?_⟩
  intro hin
  obtain ⟨a, ha, hbelow⟩ := h.first
  obtain ⟨j, c, hj, hc, hbelow'⟩ := h.last
  exact hbelow.between hbelow' (hle ha hi hin.1) (hle hi hc (by omega))

theorem IsSpan.first_le_last (h : IsSpan keys path span) : span.1 ≤ span.2 := by
  obtain ⟨k, hk, hbelow⟩ := h.first
  exact Nat.le_of_lt (h.within hk hbelow).2

theorem IsSpan.last_le_length (h : IsSpan keys path span) : span.2 ≤ keys.length := by
  obtain ⟨i, k, hi, hk, -⟩ := h.last
  rw [hi]
  exact lt_length hk

end ConfigCompiler.PathIndex
