import ConfigCompiler.Key.Basic

/-!
# Keys and their segments

Splitting at dots and joining with dots undo each other: a text is the join of its pieces
(`Key.ofSegments_pieces`), and segments without dots are those of their join (`Key.segments_ofSegments`).
Keys are in the order of their texts.
-/

namespace ConfigCompiler.Key

/-! ## On lists of characters -/

theorem splitDots_eq_splitOn (cs : List Char) : splitDots cs = cs.splitOn separator := by
  induction cs with
  | nil => rfl
  | cons c cs ih =>
    unfold splitDots List.splitOn
    rw [List.splitOnP_cons_eq_if_modifyHead, ih]
    by_cases hc : c = separator
    · simp only [hc, beq_self_eq_true, if_true, List.splitOn]
    · simp only [hc, beq_iff_eq, if_false, List.splitOn]
      cases hsplit : List.splitOnP (· == separator) cs with
      | nil => exact absurd hsplit (List.splitOnP_ne_nil _ cs)
      | cons piece pieces => rfl

theorem joinDots_splitDots (cs : List Char) : joinDots (splitDots cs) = cs := by
  rw [splitDots_eq_splitOn]
  exact List.intercalate_splitOn separator

theorem splitDots_joinDots {ps : List (List Char)} (hne : ps ≠ []) (hps : ∀ p ∈ ps, separator ∉ p) :
    splitDots (joinDots ps) = ps := by
  rw [splitDots_eq_splitOn]
  exact List.splitOn_intercalate separator hps hne

theorem splitDots_ne_nil (cs : List Char) : splitDots cs ≠ [] := by
  rw [splitDots_eq_splitOn]
  exact List.splitOn_ne_nil separator cs

theorem not_mem_of_mem_splitDots {p cs : List Char} (h : p ∈ splitDots cs) : separator ∉ p := by
  induction cs generalizing p with
  | nil =>
    rw [List.mem_singleton.1 h]
    exact List.not_mem_nil
  | cons c cs ih =>
    unfold splitDots at h
    split at h
    · rcases List.mem_cons.1 h with rfl | h
      · exact List.not_mem_nil
      · exact ih h
    · rename_i hc
      split at h
      · rw [List.mem_singleton.1 h]
        exact fun hm => hc (List.mem_singleton.1 hm).symm
      · rename_i piece pieces hsplit
        rcases List.mem_cons.1 h with rfl | h
        · intro hm
          rcases List.mem_cons.1 hm with heq | hm
          · exact hc heq.symm
          · exact ih (hsplit ▸ List.mem_cons_self) hm
        · exact ih (hsplit ▸ List.mem_cons_of_mem piece h)

/-! ## On texts -/

theorem map_toList_map_ofList (ps : List (List Char)) : (ps.map String.ofList).map String.toList = ps := by
  rw [List.map_map]
  exact List.map_id'' (fun p => String.toList_ofList) ps

theorem map_ofList_map_toList (ss : List String) : (ss.map String.toList).map String.ofList = ss := by
  rw [List.map_map]
  exact List.map_id'' (fun s => String.ofList_toList) ss

theorem ofSegments_pieces (s : String) : ofSegments (pieces s) = ⟨s⟩ := by
  unfold ofSegments pieces
  rw [map_toList_map_ofList, joinDots_splitDots, String.ofList_toList]

theorem segments_ofSegments {ss : List String} (hne : ss ≠ []) (hss : ∀ s ∈ ss, separator ∉ s.toList) :
    (ofSegments ss).segments = ss := by
  have hdots : ∀ p ∈ ss.map String.toList, separator ∉ p := by
    intro p hp
    obtain ⟨s, hs, rfl⟩ := List.mem_map.1 hp
    exact hss s hs
  unfold segments pieces ofSegments
  rw [String.toList_ofList, splitDots_joinDots (by simpa using hne) hdots, map_ofList_map_toList]

theorem pieces_ne_nil (s : String) : pieces s ≠ [] := by
  unfold pieces
  rw [ne_eq, List.map_eq_nil_iff]
  exact splitDots_ne_nil s.toList

theorem not_mem_of_mem_pieces {piece s : String} (h : piece ∈ pieces s) : separator ∉ piece.toList := by
  obtain ⟨p, hp, rfl⟩ := List.mem_map.1 h
  rw [String.toList_ofList]
  exact not_mem_of_mem_splitDots hp

/-! ## The order of keys -/

theorem le_iff {a b : Key} : a ≤ b ↔ a.text ≤ b.text := Iff.rfl

theorem eq_of_le_of_le {a b : Key} (h : a ≤ b) (h' : b ≤ a) : a = b := by
  cases a; cases b
  exact congrArg Key.mk (String.le_antisymm h h')

/-- What is sorted by keys is in ascending order. -/
theorem pairwise_mergeSort {α : Type} (key : α → Key) (l : List α) :
    (l.mergeSort fun a b => decide (key a ≤ key b)).Pairwise fun a b => key a ≤ key b := by
  refine (List.pairwise_mergeSort (fun a b c => ?_) (fun a b => ?_) l).imp fun h => of_decide_eq_true h
  · simp only [decide_eq_true_eq, le_iff]
    exact String.le_trans
  · simp only [Bool.or_eq_true, decide_eq_true_eq, le_iff]
    exact String.le_total _ _

end ConfigCompiler.Key
