import ConfigCompiler.Value.Search
import ConfigCompiler.Proofs.Value.Digest

/-!
# Binary search finds what is there

What binary search finds is an element (`between?_mem`), and where the elements before one are too low and
those after it too high, that one is found (`between?_eq_some`). So a key of sorted entries is found with
its value (`entry?_eq_some`), and what is found is what a scan finds (`entry?_eq_find?`), also in the entries
before they were sorted (`entry?_sorted_eq_lookup`).
-/

namespace ConfigCompiler

namespace Search

variable {α : Type}

theorem between?_mem {a : Array α} {probe : α → Ordering} {low high : Nat} {x : α}
    (h : between? a probe low high = some x) : x ∈ a := by
  fun_induction between? a probe low high with
  | case1 low high hlt middle hm => cases h
  | case2 low high hlt middle y hy hp ih => exact ih h
  | case3 low high hlt middle y hy hp ih => exact ih h
  | case4 low high hlt middle y hy hp =>
    cases h
    exact Array.mem_of_getElem? hy
  | case5 low high hlt => cases h

theorem between?_probe {a : Array α} {probe : α → Ordering} {low high : Nat} {x : α}
    (h : between? a probe low high = some x) : probe x = .eq := by
  fun_induction between? a probe low high with
  | case1 low high hlt middle hm => cases h
  | case2 low high hlt middle y hy hp ih => exact ih h
  | case3 low high hlt middle y hy hp ih => exact ih h
  | case4 low high hlt middle y hy hp =>
    cases h
    exact hp
  | case5 low high hlt => cases h

theorem between?_eq_some {a : Array α} {probe : α → Ordering} {low high k : Nat} {x : α}
    (hlow : low ≤ k) (hhigh : k < high) (hx : a[k]? = some x) (heq : probe x = .eq)
    (hbefore : ∀ {j y}, j < k → a[j]? = some y → probe y = .lt)
    (hafter : ∀ {j y}, k < j → a[j]? = some y → probe y = .gt) (hsize : high ≤ a.size) :
    between? a probe low high = some x := by
  fun_induction between? a probe low high with
  | case1 low high hlt middle hm =>
    have hsome : middle < a.size := by omega
    rw [Array.getElem?_eq_getElem hsome] at hm
    cases hm
  | case2 low high hlt middle y hy hp ih =>
    -- too low: the middle is before the one sought
    refine ih (Classical.byContradiction fun hk => ?_) hhigh hsize
    rcases Nat.lt_or_ge k middle with hkm | hkm
    · cases (hafter hkm hy).symm.trans hp
    · obtain rfl : k = middle := by omega
      cases hx.symm.trans hy
      cases heq.symm.trans hp
  | case3 low high hlt middle y hy hp ih =>
    refine ih hlow (Classical.byContradiction fun hk => ?_) (by omega)
    rcases Nat.lt_or_ge middle k with hkm | hkm
    · cases (hbefore hkm hy).symm.trans hp
    · obtain rfl : k = middle := by omega
      cases hx.symm.trans hy
      cases heq.symm.trans hp
  | case4 low high hlt middle y hy hp =>
    rcases Nat.lt_trichotomy middle k with hkm | hkm | hkm
    · cases (hbefore hkm hy).symm.trans hp
    · subst hkm
      exact hy.symm.trans hx
    · cases (hafter hkm hy).symm.trans hp
  | case5 low high hlt => omega

theorem entry?_mem {κ : Type} [Ord κ] {entries : List (κ × α)} {key : κ} {x : α}
    (h : entry? entries.toArray key = some x) : ∃ e ∈ entries, e.2 = x := by
  obtain ⟨e, he, rfl⟩ := Option.map_eq_some_iff.1 h
  exact ⟨e, List.mem_toArray.1 (between?_mem he), rfl⟩

theorem mem_of_entry_eq_some {κ : Type} [Ord κ] [Std.LawfulEqOrd κ] {entries : List (κ × α)} {key : κ} {x : α}
    (h : entry? entries.toArray key = some x) : (key, x) ∈ entries := by
  obtain ⟨e, he, rfl⟩ := Option.map_eq_some_iff.1 h
  have hprobe := between?_probe he
  have hkey : e.1 = key := Std.LawfulEqCmp.eq_of_compare hprobe
  exact hkey ▸ List.mem_toArray.1 (between?_mem he)

theorem entry?_eq_some {κ : Type} [Ord κ] [Std.OrientedOrd κ] {entries : List (κ × α)} {key : κ} {x : α}
    (hs : entries.Pairwise fun e f => compare e.1 f.1 = .lt) (hx : (key, x) ∈ entries) :
    entry? entries.toArray key = some x := by
  obtain ⟨k, hk, hkx⟩ := List.mem_iff_getElem.1 hx
  have hget {j : Nat} {y : κ × α} (hy : entries.toArray[j]? = some y) : ∃ h : j < entries.length,
      entries[j] = y := by
    rw [List.getElem?_toArray] at hy
    exact List.getElem?_eq_some_iff.1 hy
  have hfound : between? entries.toArray (fun e => compare e.1 key) 0 entries.toArray.size =
      some (key, x) := by
    refine between?_eq_some (Nat.zero_le k) (by simpa using hk) ?_ Std.ReflCmp.compare_self ?_ ?_
      (Nat.le_refl _)
    · rw [List.getElem?_toArray, List.getElem?_eq_getElem hk, hkx]
    · intro j y hj hy
      obtain ⟨hlen, rfl⟩ := hget hy
      have := List.pairwise_iff_getElem.1 hs j k hlen hk hj
      rwa [hkx] at this
    · intro j y hj hy
      obtain ⟨hlen, rfl⟩ := hget hy
      have := List.pairwise_iff_getElem.1 hs k j hk hlen hj
      rw [hkx] at this
      exact Std.OrientedCmp.gt_of_lt this
  exact congrArg (Option.map (·.2)) hfound

/-- In sorted entries binary search finds what a scan finds. -/
theorem entry?_eq_find? {κ : Type} [Ord κ] [Std.OrientedOrd κ] [Std.LawfulEqOrd κ] [BEq κ] [LawfulBEq κ]
    {entries : List (κ × α)} (hs : entries.Pairwise fun e f => compare e.1 f.1 = .lt) (key : κ) :
    entry? entries.toArray key = (entries.find? fun e => e.1 == key).map Prod.snd := by
  cases hf : entries.find? fun e => e.1 == key with
  | some e =>
    have hkey := List.find?_some hf
    rw [beq_iff_eq] at hkey
    subst hkey
    exact entry?_eq_some hs (List.mem_of_find?_eq_some hf)
  | none =>
    refine Option.eq_none_iff_forall_ne_some.2 fun x hx => ?_
    exact List.find?_eq_none.1 hf (key, x) (mem_of_entry_eq_some hx) BEq.rfl

end Search

namespace Entries

/-- A key of a map is found among the sorted entries. -/
theorem entry?_sorted {α : Type} {entries : Entries α} (hn : (entries.map (·.1)).Nodup) {key : String}
    {x : α} (hx : (key, x) ∈ entries) : Search.entry? (sorted entries).toArray key = some x := by
  refine Search.entry?_eq_some ?_ ((sorted_perm entries).mem_iff.2 hx)
  have hne : (sorted entries).Pairwise fun e f => e.1 ≠ f.1 :=
    List.pairwise_map.1 (((sorted_perm entries).map _).nodup_iff.2 hn)
  refine ((sorted_pairwise entries).and hne).imp fun {e f} h => ?_
  have hlt : e.1 < f.1 := String.not_le.1 fun hle => h.2 (String.le_antisymm h.1 hle)
  show String.compare e.1 f.1 = .lt
  rw [String.compare, compareOfLessAndEq, if_pos hlt]

/-- Sorting a map does not change what its keys are bound to. -/
theorem entry?_sorted_eq_lookup {α : Type} {entries : Entries α} (hn : (entries.map (·.1)).Nodup)
    (key : String) : Search.entry? (sorted entries).toArray key = List.lookup key entries := by
  refine Option.ext fun x => ?_
  rw [lookup_eq_some hn]
  exact ⟨fun h => (sorted_perm entries).mem_iff.1 (Search.mem_of_entry_eq_some h), entry?_sorted hn⟩

end Entries

end ConfigCompiler
