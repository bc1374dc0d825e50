import ConfigCompiler.Proofs.Key.Paths
import ConfigCompiler.Proofs.Key.Segments

/-!
# Keys as texts and as segments

What stands before the dots of a key, on its text, is what the first of its segments are joined to
(`Key.ancestors_eq`): one text for each number of segments less than all. So the two views of a key agree
(`Key.views_agree`), also where segments are empty.
-/

namespace ConfigCompiler.Key

/-! ## On lists of characters -/

theorem joinDots_nil_cons {ps : List (List Char)} (h : ps ≠ []) :
    joinDots ([] :: ps) = separator :: joinDots ps := by
  unfold joinDots
  rw [List.intercalate_cons_of_ne_nil h]
  rfl

theorem joinDots_cons (c : Char) (p : List Char) (ps : List (List Char)) :
    joinDots ((c :: p) :: ps) = c :: joinDots (p :: ps) := by
  unfold joinDots
  cases ps with
  | nil => simp
  | cons q ps =>
    rw [List.intercalate_cons_of_ne_nil (List.cons_ne_nil q ps),
      List.intercalate_cons_of_ne_nil (List.cons_ne_nil q ps)]
    rfl

/-- The joins of the first pieces, from one piece on up to all but one. -/
def firstJoins (ps : List (List Char)) : List (List Char) :=
  (List.range' 1 (ps.length - 1)).map fun n => joinDots (ps.take n)

theorem firstJoins_nil_cons {ps : List (List Char)} (h : ps ≠ []) :
    firstJoins ([] :: ps) = [] :: (firstJoins ps).map (separator :: ·) := by
  obtain ⟨n, hn⟩ := Nat.exists_eq_add_one_of_ne_zero (mt List.length_eq_zero_iff.1 h)
  unfold firstJoins
  rw [List.length_cons, hn, Nat.add_sub_cancel, Nat.add_sub_cancel, List.range'_succ, List.map_cons, List.map_map,
    ← List.map_add_range' 1, List.map_map]
  refine List.cons_eq_cons.2 ⟨by simp [joinDots], List.map_congr_left fun m hm => ?_⟩
  have hm := (List.mem_range'_1.1 hm).1
  have htake : ps.take m ≠ [] := by
    rw [ne_eq, List.take_eq_nil_iff, not_or]
    exact ⟨by omega, h⟩
  simp only [Function.comp_apply, Nat.add_comm 1 m, List.take_succ_cons]
  exact joinDots_nil_cons htake

theorem firstJoins_cons (c : Char) (p : List Char) (ps : List (List Char)) :
    firstJoins ((c :: p) :: ps) = (firstJoins (p :: ps)).map (c :: ·) := by
  unfold firstJoins
  rw [List.map_map]
  refine List.map_congr_left fun n hn => ?_
  obtain ⟨m, rfl⟩ := Nat.exists_eq_add_of_le' (List.mem_range'_1.1 hn).1
  exact joinDots_cons c p _

theorem beforeDots_eq (cs : List Char) : beforeDots cs = firstJoins (splitDots cs) := by
  induction cs with
  | nil => rfl
  | cons c cs ih =>
    unfold beforeDots splitDots
    by_cases hc : c = separator
    · rw [if_pos hc, if_pos hc, firstJoins_nil_cons (splitDots_ne_nil cs), ih, hc]
    · rw [if_neg hc, if_neg hc, ih]
      cases hsplit : splitDots cs with
      | nil => exact absurd hsplit (splitDots_ne_nil cs)
      | cons p ps => exact (firstJoins_cons c p ps).symm

/-! ## Keys -/

theorem text_ofSegments (ss : List String) : (ofSegments ss).text = ".".intercalate ss := by
  rw [← String.toList_inj, String.toList_intercalate, ofSegments, String.toList_ofList]
  rfl

/-- The keys above a key are the joins of its first segments. -/
theorem ancestors_eq (k : Key) :
    k.ancestors = (List.range' 1 (k.depth - 1)).map fun n => ".".intercalate (k.segments.take n) := by
  unfold ancestors
  rw [beforeDots_eq, firstJoins, List.map_map]
  unfold depth segments pieces
  rw [List.length_map]
  refine List.map_congr_left fun n _ => ?_
  rw [← text_ofSegments, ofSegments, ← List.map_take, map_toList_map_ofList]
  rfl

theorem one_le_depth (k : Key) : 1 ≤ k.depth := List.length_pos_iff.2 (pieces_ne_nil k.text)

/--
The two views of a key agree. A key is the join of its segments. The keys above it, shortest first, are the joins
of its first segments, from one segment on and less than all, so there is one more segment than there are keys
above. A path names the key or a key above it if and only if it is one of these texts; and segments without dots
are the segments of their join.
-/
theorem views_agree (k : Key) :
    ofSegments k.segments = k ∧
    k.ancestors = (List.range' 1 (k.depth - 1)).map (fun n => ".".intercalate (k.segments.take n)) ∧
    k.depth = k.ancestors.length + 1 ∧
    (∀ path, k.isAtOrBelow path = true ↔ path = k.text ∨ path ∈ k.ancestors) ∧
    ∀ ss : List String, ss ≠ [] → (∀ s ∈ ss, separator ∉ s.toList) →
      (ofSegments ss).segments = ss := by
  refine ⟨ofSegments_pieces k.text, ancestors_eq k, ?_, fun path => ?_, fun ss hne hss => segments_ofSegments hne hss⟩
  · rw [ancestors_eq, List.length_map, List.length_range']
    have := one_le_depth k
    omega
  · rw [isAtOrBelow_iff, mem_ancestors, eq_comm]

/-- A key with an empty segment in it and one at its end. -/
def doubled : Key := ⟨"a..b."⟩

/-- The dot at the end of a path counts: what is above `a..b.` are `a`, `a.` and `a..b`. -/
theorem views_agree_doubled : doubled.ancestors = ["a", "a.", "a..b"] ∧ doubled.depth = 4 ∧
    doubled.isAtOrBelow "a." = true ∧ doubled.isAtOrBelow "a.." = false ∧
    (["", "b", ""] ≠ [] ∧ ∀ s ∈ ["", "b", ""], separator ∉ s.toList) ∧
    (ofSegments ["", "b", ""]).segments = ["", "b", ""] := by
  obtain ⟨-, -, hdepth, hpath, hsegments⟩ := views_agree doubled
  have hancestors : doubled.ancestors = ["a", "a.", "a..b"] := by decide
  have hdots : ∀ s ∈ ["", "b", ""], separator ∉ s.toList := by decide
  refine ⟨hancestors, by rw [hdepth, hancestors]; rfl, ?_, ?_, ⟨List.cons_ne_nil _ _, hdots⟩, ?_⟩
  · exact (hpath "a.").2 (.inr (by rw [hancestors]; decide))
  · rw [Bool.eq_false_iff, ne_eq, hpath, hancestors]
    decide
  · exact hsegments _ (List.cons_ne_nil _ _) hdots

end ConfigCompiler.Key
