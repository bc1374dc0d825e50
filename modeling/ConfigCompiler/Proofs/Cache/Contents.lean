import Mathlib.Data.List.Perm.Subperm
import ConfigCompiler.Proofs.Cache.Basic

/-!
# What the entries of a cache hold

No operation brings a payload into a cache but `insert` and `finish`, and these bring the one they are given
(`mem_insert`, `mem_finish`). A payload that leaves is handed back: what a cache holds afterwards, with what it
hands back, is no more than it held before and was given (`insert_subperm`, `finish_subperm`,
`invalidate_perm`).
-/

namespace ConfigCompiler.Cache

variable {κ ε α : Type} [DecidableEq κ]

/-- The payloads of the entries. -/
def values (c : Cache κ ε α) : List α := c.entries.map Entry.value

omit [DecidableEq κ] in
theorem values_congr {c c' : Cache κ ε α} (h : c'.entries = c.entries) : c'.values = c.values :=
  congrArg (List.map Entry.value) h

theorem subperm_map {α β : Type} (f : α → β) {xs ys : List α} (h : xs.Subperm ys) :
    (xs.map f).Subperm (ys.map f) := by
  obtain ⟨zs, hp, hs⟩ := h
  exact ⟨zs.map f, hp.map f, hs.map f⟩

/-! ## Using entries -/

theorem find?_eq_some {c : Cache κ ε α} {key : κ} {e : Entry κ α} (h : c.find? key = some e) :
    e ∈ c.entries ∧ e.key = key :=
  ⟨List.mem_of_find?_eq_some h, by simpa using List.find?_some h⟩

/-- An entry and the entries of other keys are among the entries. -/
theorem cons_without_subperm {entries : List (Entry κ α)} {e : Entry κ α} (he : e ∈ entries) :
    (e :: without entries e.key).Subperm entries := by
  have hsingle : [e].Subperm (entries.filter fun x => !decide (x.key ≠ e.key)) :=
    (List.singleton_sublist.2 (List.mem_filter.2 ⟨he, by simp⟩)).subperm
  refine (hsingle.append (List.Subperm.refl (without entries e.key))).trans ?_
  exact (List.perm_append_comm.trans (List.filter_append_perm _ entries)).subperm

theorem hit_subperm {c : Cache κ ε α} {e : Entry κ α} (he : e ∈ c.entries) :
    (c.hit e).values.Subperm c.values := subperm_map _ (cons_without_subperm he)

theorem mem_hit {c : Cache κ ε α} {e x : Entry κ α} (he : e ∈ c.entries) (hx : x ∈ (c.hit e).entries) :
    x ∈ c.entries := (cons_without_subperm he).subset hx

theorem get_cases (c : Cache κ ε α) (key : κ) :
    (∃ e, c.find? key = some e ∧ c.get key = (c.hit e, some e.value)) ∨
    (c.find? key = none ∧ c.get key = (c, none)) := by
  unfold get
  cases hf : c.find? key with
  | some e => exact .inl ⟨e, rfl, rfl⟩
  | none => exact .inr ⟨rfl, rfl⟩

/-! ## Admitting and dropping entries -/

omit [DecidableEq κ] in
theorem evict_append (capacity : Capacity) (es : List (Entry κ α)) (weight : UInt64) :
    (evict capacity es weight).2.2 ++ (evict capacity es weight).1 = es := by
  induction es generalizing weight with
  | nil => rfl
  | cons e es ih =>
    rw [evict]
    split
    · exact congrArg (e :: ·) (ih _)
    · rfl

section
variable [HasWeight α]

theorem insert_subperm (c : Cache κ ε α) (key : κ) (v : α) :
    ((c.insert key v).1.values ++ (c.insert key v).2).Subperm (v :: c.values) := by
  unfold insert
  cases admittedWeight c.capacity v with
  | none => exact (List.perm_append_singleton v _).subperm
  | some weight =>
    dsimp only
    have hevict := evict_append c.capacity
      (Entry.mk key v weight :: without c.entries key).reverse
      (c.weight - (c.find? key).elim 0 Entry.weight + weight)
    revert hevict
    generalize evict c.capacity _ _ = r
    obtain ⟨kept, total, dropped⟩ := r
    intro hevict
    have hreplaced : ((c.find? key).toList ++ without c.entries key).Subperm c.entries := by
      cases hf : c.find? key with
      | none => exact List.filter_sublist.subperm
      | some e =>
        obtain ⟨he, rfl⟩ := find?_eq_some hf
        exact cons_without_subperm he
    have hall : (kept.reverse ++ ((c.find? key).toList ++ dropped)).Perm
        (⟨key, v, weight⟩ :: ((c.find? key).toList ++ without c.entries key)) := by
      have h₁ : (dropped ++ kept.reverse).Perm (⟨key, v, weight⟩ :: without c.entries key) := by
        refine (kept.reverse_perm.append_left dropped).trans ?_
        rw [show dropped ++ kept = _ from hevict]
        exact List.reverse_perm _
      refine List.perm_append_comm.trans ?_
      rw [List.append_assoc]
      exact (h₁.append_left _).trans List.perm_middle
    change ((kept.reverse.map Entry.value) ++
      (((c.find? key).toList ++ dropped).map Entry.value)).Subperm _
    rw [← List.map_append]
    exact (hall.map Entry.value).subperm.trans ((List.subperm_cons v).2 (subperm_map _ hreplaced))

theorem mem_insert {c : Cache κ ε α} {key : κ} {v : α} {e : Entry κ α}
    (he : e ∈ (c.insert key v).1.entries) : e ∈ c.entries ∨ (e.key = key ∧ e.value = v) := by
  unfold insert at he
  cases hw : admittedWeight c.capacity v with
  | none =>
    rw [hw] at he
    exact .inl he
  | some weight =>
    rw [hw] at he
    dsimp only at he
    have hmem := List.mem_append_right (evict c.capacity
      (Entry.mk key v weight :: without c.entries key).reverse
      (c.weight - (c.find? key).elim 0 Entry.weight + weight)).2.2 (List.mem_reverse.1 he)
    rw [evict_append, List.mem_reverse] at hmem
    rcases List.mem_cons.1 hmem with rfl | hmem
    · exact .inr ⟨rfl, rfl⟩
    · exact .inl (List.mem_filter.1 hmem).1

theorem finish_subperm (c : Cache κ ε α) (key : κ) (f : Nat) (v : α) :
    ((c.finish key f (.ok v)).1.values ++ (c.finish key f (.ok v)).2).Subperm (v :: c.values) := by
  cases hst : c.isStale f with
  | true =>
    rw [finish_of_stale v hst]
    exact (List.perm_append_singleton v _).subperm
  | false =>
    rw [finish_of_fresh v hst]
    exact insert_subperm (c.release key f) key v

theorem mem_finish {c : Cache κ ε α} {key : κ} {f : Nat} {r : Except ε α} {e : Entry κ α}
    (he : e ∈ (c.finish key f r).1.entries) : e ∈ c.entries ∨ (e.key = key ∧ r = .ok e.value) := by
  cases r with
  | error err => exact .inl he
  | ok v =>
    cases hst : c.isStale f with
    | true =>
      rw [finish_of_stale v hst] at he
      exact .inl he
    | false =>
      rw [finish_of_fresh v hst] at he
      rcases mem_insert he with he | ⟨hk, rfl⟩
      · exact .inl he
      · exact .inr ⟨hk, rfl⟩

end

omit [DecidableEq κ] in
theorem invalidate_perm (c : Cache κ ε α) (doomed : κ → Bool) :
    ((c.invalidate doomed).1.values ++ (c.invalidate doomed).2).Perm c.values := by
  simp only [invalidate, List.partition_eq_filter_filter, values]
  rw [← List.map_append]
  exact (List.perm_append_comm.trans (List.filter_append_perm _ c.entries)).map _

omit [DecidableEq κ] in
theorem mem_invalidate {c : Cache κ ε α} {doomed : κ → Bool} {e : Entry κ α}
    (he : e ∈ (c.invalidate doomed).1.entries) : e ∈ c.entries := by
  simp only [invalidate, List.partition_eq_filter_filter] at he
  exact (List.mem_filter.1 he).1

end ConfigCompiler.Cache
