import Mathlib.Data.List.Nodup
import ConfigCompiler.Value.Entries

/-!
# Maps in insertion order

Maps with distinct keys are known from what their keys are bound to, in whatever order they are listed
(`Entries.lookup_perm`, `Entries.lookup_insert_self`); sorted, they are equal if they hold the same entries
(`Entries.eq_of_mem_iff`, `Entries.eq_of_lookup_eq`).
-/

namespace ConfigCompiler

theorem nodup_eraseDups {α : Type} [BEq α] [LawfulBEq α] {l : List α} : l.eraseDups.Nodup := by
  induction hn : l.length using Nat.strongRecOn generalizing l with
  | _ n ih =>
    cases l with
    | nil => exact .nil
    | cons a l =>
      rw [List.eraseDups_cons, List.nodup_cons]
      refine ⟨by simp, ih _ ?_ rfl⟩
      have := List.length_filter_le (fun b => !b == a) l
      rw [← hn, List.length_cons]
      omega

namespace Entries

variable {α : Type} {entries others : Entries α}

theorem nodup_of_firstRepeated? {before : List String} (h : firstRepeated? before entries = none) :
    (entries.map (·.1)).Nodup ∧ ∀ e ∈ entries, e.1 ∉ before := by
  induction entries generalizing before with
  | nil => simp
  | cons e es ih =>
    rw [firstRepeated?] at h
    split at h
    · cases h
    · rename_i hb
      obtain ⟨hnd, hout⟩ := ih h
      simp only [List.mem_append, List.mem_singleton, not_or] at hout
      rw [List.map_cons, List.nodup_cons, List.forall_mem_cons]
      refine ⟨⟨fun hm => ?_, hnd⟩, hb, fun f hf => (hout f hf).1⟩
      obtain ⟨f, hf, hfe⟩ := List.mem_map.1 hm
      exact (hout f hf).2 hfe

/-! ## What a key is bound to -/

theorem lookup_eq_some (hn : (entries.map (·.1)).Nodup) {key : String} {x : α} :
    List.lookup key entries = some x ↔ (key, x) ∈ entries := by
  induction entries with
  | nil => simp
  | cons e es ih =>
    obtain ⟨name, y⟩ := e
    rw [List.map_cons, List.nodup_cons] at hn
    rw [List.lookup_cons, List.mem_cons, Prod.mk.injEq, ← ih hn.2]
    by_cases hkey : key = name
    · subst hkey
      have hno : List.lookup key es ≠ some x := fun hl =>
        hn.1 (List.mem_map.2 ⟨_, (ih hn.2).1 hl, rfl⟩)
      simp [hno, eq_comm]
    · simp [hkey, beq_eq_false_iff_ne.2 hkey]

theorem lookup_perm (hn : (entries.map (·.1)).Nodup) (hp : entries.Perm others) (key : String) :
    List.lookup key entries = List.lookup key others := by
  refine Option.ext fun x => ?_
  rw [lookup_eq_some hn, lookup_eq_some ((hp.map _).nodup_iff.1 hn), hp.mem_iff]

theorem lookup_map_snd {β : Type} (f : α → β) (entries : Entries α) (key : String) :
    List.lookup key (entries.map fun e => (e.1, f e.2)) = (List.lookup key entries).map f := by
  induction entries with
  | nil => rfl
  | cons e es ih =>
    rw [List.map_cons, List.lookup_cons, List.lookup_cons]
    cases key == e.1 with
    | true => rfl
    | false => exact ih

theorem any_key_iff {key : String} : entries.any (·.1 == key) = true ↔ key ∈ entries.map (·.1) := by
  rw [List.any_eq_true, List.mem_map]
  exact exists_congr fun e => and_congr_right fun _ => beq_iff_eq

theorem insert_of_mem {key : String} (h : key ∈ entries.map (·.1)) (x : α) :
    entries.insert key x = entries.map fun e => (e.1, if e.1 = key then x else e.2) := by
  rw [insert, if_pos (any_key_iff.2 h)]
  refine List.map_congr_left fun e _ => ?_
  by_cases he : e.1 = key <;> simp [he]

theorem insert_of_not_mem {key : String} (h : key ∉ entries.map (·.1)) (x : α) :
    entries.insert key x = entries ++ [(key, x)] := by
  rw [insert, if_neg (mt any_key_iff.1 h)]

theorem nodup_insert (hn : (entries.map (·.1)).Nodup) (key : String) (x : α) :
    ((entries.insert key x).map (·.1)).Nodup := by
  by_cases hm : key ∈ entries.map (·.1)
  · rw [insert_of_mem hm, List.map_map]
    exact hn
  · rw [insert_of_not_mem hm, List.map_append]
    refine List.nodup_append.2 ⟨hn, List.nodup_singleton key, ?_⟩
    rintro a ha b hb rfl
    obtain rfl : a = key := List.mem_singleton.1 hb
    exact hm ha

theorem lookup_insert_self (hn : (entries.map (·.1)).Nodup) (key : String) (x : α) :
    List.lookup key (entries.insert key x) = some x := by
  rw [lookup_eq_some (nodup_insert hn key x)]
  by_cases hm : key ∈ entries.map (·.1)
  · obtain ⟨e, he, rfl⟩ := List.mem_map.1 hm
    rw [insert_of_mem hm]
    exact List.mem_map.2 ⟨e, he, by rw [if_pos rfl]⟩
  · rw [insert_of_not_mem hm]
    exact List.mem_append_right _ (List.mem_singleton_self _)

theorem lookup_insert_of_ne {name key : String} (h : name ≠ key) (x : α) :
    List.lookup name (entries.insert key x) = List.lookup name entries := by
  by_cases hm : key ∈ entries.map (·.1)
  · rw [insert_of_mem hm]
    clear hm
    induction entries with
    | nil => rfl
    | cons e es ih =>
      rw [List.map_cons, List.lookup_cons, List.lookup_cons, ih]
      by_cases hname : name = e.1
      · rw [if_neg (hname ▸ h)]
      · rw [beq_eq_false_iff_ne.2 hname]
  · rw [insert_of_not_mem hm, List.lookup_append, List.lookup_cons, beq_eq_false_iff_ne.2 h, List.lookup_nil,
      Option.or_none]

/-! ## Sorted entries -/

theorem sorted_perm (entries : Entries α) : (sorted entries).Perm entries := List.mergeSort_perm entries _

theorem sorted_pairwise (entries : Entries α) : (sorted entries).Pairwise fun e f => e.1 ≤ f.1 := by
  refine (List.pairwise_mergeSort (fun e f g => ?_) (fun e f => ?_) entries).imp of_decide_eq_true
  · simp only [decide_eq_true_eq]
    exact String.le_trans
  · simp only [Bool.or_eq_true, decide_eq_true_eq]
    exact String.le_total _ _

theorem sorted_sorted (entries : Entries α) : sorted (sorted entries) = sorted entries :=
  List.mergeSort_of_pairwise ((sorted_pairwise entries).imp fun h => decide_eq_true h)

/-- With distinct keys in ascending order, only the entries themselves count. -/
theorem eq_of_perm (hn : (entries.map (·.1)).Nodup) (hs : entries.Pairwise fun e f => e.1 ≤ f.1)
    (hs' : others.Pairwise fun e f => e.1 ≤ f.1) (hp : entries.Perm others) : entries = others := by
  refine hp.eq_of_pairwise (fun a b ha hb hab hba => ?_) hs hs'
  exact List.inj_on_of_nodup_map hn ha (hp.mem_iff.2 hb) (String.le_antisymm hab hba)

theorem eq_of_mem_iff (hn : (entries.map (·.1)).Nodup) (hn' : (others.map (·.1)).Nodup)
    (hs : entries.Pairwise fun e f => e.1 ≤ f.1) (hs' : others.Pairwise fun e f => e.1 ≤ f.1)
    (h : ∀ e, e ∈ entries ↔ e ∈ others) : entries = others :=
  eq_of_perm hn hs hs' ((List.perm_ext_iff_of_nodup hn.of_map hn'.of_map).2 h)

theorem eq_of_lookup_eq (hn : (entries.map (·.1)).Nodup) (hn' : (others.map (·.1)).Nodup)
    (hs : entries.Pairwise fun e f => e.1 ≤ f.1) (hs' : others.Pairwise fun e f => e.1 ≤ f.1)
    (h : ∀ key, List.lookup key entries = List.lookup key others) : entries = others := by
  refine eq_of_mem_iff hn hn' hs hs' fun ⟨key, x⟩ => ?_
  rw [← lookup_eq_some hn, ← lookup_eq_some hn', h]

theorem sorted_congr (hn : (entries.map (·.1)).Nodup) (hp : entries.Perm others) :
    sorted entries = sorted others :=
  eq_of_perm (((sorted_perm entries).map _).nodup_iff.2 hn) (sorted_pairwise entries)
    (sorted_pairwise others) ((sorted_perm entries).trans (hp.trans (sorted_perm others).symm))

end Entries

end ConfigCompiler
