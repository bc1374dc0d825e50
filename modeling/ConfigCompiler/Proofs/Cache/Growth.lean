import Mathlib.Data.List.Nodup
import ConfigCompiler.Proofs.Cache.Contents

/-!
# How a cache changes

Using entries changes nothing but their order (`Keeps`), and whatever else happens, at most one entry comes in
(`Grows`). While nothing is dropped, no slot is for a key that has an entry (`Exclusive`, kept by flights that take
off and land), and each payload that lands has an entry from then on (`contains_finish`).
-/

namespace ConfigCompiler.Cache

variable {κ ε α : Type} [DecidableEq κ]

/-! ## Caches that hold the same -/

/-- The cache afterwards has the same slots, flights and keys, and dropped nothing. -/
structure Keeps (c c' : Cache κ ε α) : Prop where
  capacity : c'.capacity = c.capacity
  slots : c'.slots = c.slots
  flights : c'.flights = c.flights
  contains : ∀ key, c'.contains key = c.contains key
  size : c'.size ≤ c.size
  evictions : c'.evictions = c.evictions

theorem Keeps.refl (c : Cache κ ε α) : c.Keeps c := ⟨rfl, rfl, rfl, fun _ => rfl, Nat.le_refl _, rfl⟩

theorem contains_iff {c : Cache κ ε α} {key : κ} : c.contains key = true ↔ ∃ e ∈ c.entries, e.key = key := by
  simp [contains, find?, List.find?_isSome]

theorem contains_congr {c c' : Cache κ ε α} {key key' : κ}
    (h : (∃ e ∈ c'.entries, e.key = key') ↔ ∃ e ∈ c.entries, e.key = key) :
    c'.contains key' = c.contains key :=
  Bool.eq_iff_iff.2 (contains_iff.trans (h.trans contains_iff.symm))

/-- Using an entry changes the order of entries only. -/
theorem Keeps.hit {c : Cache κ ε α} {e : Entry κ α} (he : e ∈ c.entries) : c.Keeps (c.hit e) where
  capacity := rfl
  slots := rfl
  flights := rfl
  contains key := by
    refine contains_congr ?_
    constructor
    · intro ⟨x, hx, hkey⟩
      exact ⟨x, mem_hit he hx, hkey⟩
    · intro ⟨x, hx, hkey⟩
      by_cases hsame : x.key = e.key
      · exact ⟨e, List.mem_cons_self, hsame.symm.trans hkey⟩
      · exact ⟨x, List.mem_cons_of_mem _ (List.mem_filter.2 ⟨hx, by simpa using hsame⟩), hkey⟩
  size := (cons_without_subperm he).length_le
  evictions := rfl

theorem keeps_get (c : Cache κ ε α) (key : κ) : c.Keeps (c.get key).1 := by
  rcases get_cases c key with ⟨e, he, hget⟩ | ⟨-, hget⟩
  · rw [hget]
    exact .hit (find?_eq_some he).1
  · rw [hget]
    exact .refl c

/-- A flight takes off in a slot of its own. -/
def takeOff (c : Cache κ ε α) (key : κ) : Cache κ ε α :=
  { c with
    misses := c.misses + 1
    flights := c.flights.push .takeOff
    slots := (key, c.flights.size) :: c.slots }

theorem enter_leads {c : Cache κ ε α} {key : κ} (hkey : c.contains key = false) (hslot : ∀ f, (key, f) ∉ c.slots) :
    c.enter key = (c.takeOff key, .lead c.flights.size) := by
  rcases enter_cases c key with ⟨e, he, -⟩ | ⟨f, -, hm, -⟩ | ⟨-, -, henter⟩
  · simp [contains, he] at hkey
  · exact absurd hm (hslot f)
  · exact henter

/-! ## Caches that grow -/

/-- At most one entry comes in, and only for that others may be dropped. -/
structure Grows (c c' : Cache κ ε α) : Prop where
  capacity : c'.capacity = c.capacity
  size : c'.size ≤ c.size + 1
  evictions : c.evictions ≤ c'.evictions
  room : ∀ {n}, c.capacity = .entries n → c.size < n → c'.evictions = c.evictions

theorem Keeps.grows {c c' : Cache κ ε α} (h : c.Keeps c') : c.Grows c' where
  capacity := h.capacity
  size := Nat.le_succ_of_le h.size
  evictions := Nat.le_of_eq h.evictions.symm
  room _ _ := h.evictions

theorem Grows.keeps {c c' c'' : Cache κ ε α} (h : c.Grows c') (hk : c'.Keeps c'') : c.Grows c'' where
  capacity := hk.capacity.trans h.capacity
  size := Nat.le_trans hk.size h.size
  evictions := Nat.le_trans h.evictions (Nat.le_of_eq hk.evictions.symm)
  room hn hlt := hk.evictions.trans (h.room hn hlt)

omit [DecidableEq κ] in
theorem evict_of_room {n : Nat} {es : List (Entry κ α)} (h : es.length ≤ n) (weight : UInt64) :
    evict (.entries n) es weight = (es, weight, []) := by
  cases es with
  | nil => rfl
  | cons e es =>
    have hfits : (Capacity.entries n).exceeded (es.length + 1) weight = false := by
      simpa [Capacity.exceeded] using h
    rw [evict, hfits]
    rfl

section
variable [HasWeight α]

theorem grows_insert (c : Cache κ ε α) (key : κ) (v : α) : c.Grows (c.insert key v).1 := by
  unfold insert
  cases hw : admittedWeight c.capacity v with
  | none => exact (Keeps.refl c).grows
  | some weight =>
    have hwithout : (without c.entries key).length ≤ c.size := List.length_filter_le _ _
    refine ⟨rfl, ?_, Nat.le_add_right _ _, ?_⟩
    · dsimp only [size]
      have hall := congrArg List.length (evict_append c.capacity
        (Entry.mk key v weight :: without c.entries key).reverse
        (c.weight - (c.find? key).elim 0 Entry.weight + weight))
      rw [List.length_append, List.length_reverse, List.length_cons] at hall
      rw [List.length_reverse]
      unfold size at hwithout
      omega
    · intro n hn hlt
      have hlength : (Entry.mk key v weight :: without c.entries key).reverse.length ≤ n := by
        rw [List.length_reverse, List.length_cons]
        omega
      dsimp only
      rw [hn, evict_of_room hlength]
      rfl

theorem grows_finish (c : Cache κ ε α) (key : κ) (f : Nat) (res : Except ε α) :
    c.Grows (c.finish key f res).1 := by
  cases res with
  | error e => exact ⟨rfl, Nat.le_succ _, Nat.le_refl _, fun _ _ => rfl⟩
  | ok v =>
    cases hst : c.isStale f with
    | true =>
      rw [finish_of_stale v hst]
      exact ⟨rfl, Nat.le_succ _, Nat.le_refl _, fun _ _ => rfl⟩
    | false =>
      rw [finish_of_fresh v hst]
      have hgrows := grows_insert (c.release key f) key v
      exact ⟨hgrows.capacity, hgrows.size, hgrows.evictions, hgrows.room⟩

end

omit [DecidableEq κ] in
theorem grows_invalidate (c : Cache κ ε α) (doomed : κ → Bool) : c.Grows (c.invalidate doomed).1 := by
  refine ⟨rfl, ?_, Nat.le_refl _, fun _ _ => rfl⟩
  simp only [size, invalidate, List.partition_eq_filter_filter]
  exact Nat.le_succ_of_le (List.length_filter_le _ _)

/-! ## Caches that drop nothing -/

/-- Slots are for keys without entries, one for each key, and no flight is stale. -/
structure Exclusive (c : Cache κ ε α) : Prop where
  keys : (c.slots.map Prod.fst).Nodup
  fresh : ∀ f, c.isStale f = false
  free : ∀ {key f}, (key, f) ∈ c.slots → c.contains key = false

theorem exclusive_empty (capacity : Capacity) : (empty capacity : Cache κ ε α).Exclusive where
  keys := List.nodup_nil
  fresh _ := rfl
  free hm := by cases hm

theorem Exclusive.nodup {c : Cache κ ε α} (h : c.Exclusive) : c.slots.Nodup := .of_map _ h.keys

/-- The only slot of a key. -/
theorem Exclusive.slot_unique {c : Cache κ ε α} (h : c.Exclusive) {key : κ} {f f' : Nat} (hf : (key, f) ∈ c.slots)
    (hf' : (key, f') ∈ c.slots) : f = f' :=
  congrArg Prod.snd (List.inj_on_of_nodup_map h.keys hf hf' rfl)

theorem Exclusive.keeps {c c' : Cache κ ε α} (h : c.Exclusive) (hk : c.Keeps c') : c'.Exclusive where
  keys := by
    rw [hk.slots]
    exact h.keys
  fresh f := by
    rw [isStale, hk.flights]
    exact h.fresh f
  free hm := by
    rw [hk.slots] at hm
    rw [hk.contains]
    exact h.free hm

theorem Exclusive.takeOff {c : Cache κ ε α} (h : c.Exclusive) {key : κ} (hkey : c.contains key = false)
    (hslot : ∀ f, (key, f) ∉ c.slots) : (c.takeOff key).Exclusive where
  keys := by
    refine List.nodup_cons.2 ⟨?_, h.keys⟩
    intro hm
    obtain ⟨slot, hslot', rfl⟩ := List.mem_map.1 hm
    exact hslot slot.2 hslot'
  fresh f := by
    change (c.flights.push .takeOff)[f]?.any Flight.stale = false
    rw [Array.getElem?_push]
    split
    · rfl
    · exact h.fresh f
  free hm := by
    rcases List.mem_cons.1 hm with heq | hm
    · cases heq
      exact hkey
    · exact h.free hm

section
variable [HasWeight α] {c : Cache κ ε α} {key : κ} {f : Nat} {res : Except ε α}

/-- A payload comes in, and nothing is dropped for it. -/
theorem contains_insert {v : α} (hadmitted : admittedWeight c.capacity v ≠ none)
    (hevict : (c.insert key v).1.evictions = c.evictions) (key' : κ) :
    (c.insert key v).1.contains key' = true ↔ key' = key ∨ c.contains key' = true := by
  rw [contains_iff, contains_iff]
  unfold insert at hevict ⊢
  cases hw : admittedWeight c.capacity v with
  | none => exact absurd hw hadmitted
  | some weight =>
    rw [hw] at hevict
    dsimp only at hevict ⊢
    have hall := evict_append c.capacity (Entry.mk key v weight :: without c.entries key).reverse
      (c.weight - (c.find? key).elim 0 Entry.weight + weight)
    rw [List.eq_nil_of_length_eq_zero (Nat.add_eq_left.1 hevict), List.nil_append] at hall
    rw [hall, List.reverse_reverse]
    by_cases hsame : key' = key
    · subst hsame
      simp
    · simp only [hsame, false_or]
      constructor
      · rintro ⟨e, he, hkey⟩
        rcases List.mem_cons.1 he with rfl | he
        · exact absurd hkey.symm hsame
        · exact ⟨e, (List.mem_filter.1 he).1, hkey⟩
      · rintro ⟨e, he, hkey⟩
        refine ⟨e, List.mem_cons_of_mem _ (List.mem_filter.2 ⟨he, ?_⟩), hkey⟩
        simpa [hkey] using hsame

theorem contains_finish (hst : c.isStale f = false)
    (hadmitted : ∀ v, res = .ok v → admittedWeight c.capacity v ≠ none)
    (hevict : (c.finish key f res).1.evictions = c.evictions) (key' : κ) :
    (c.finish key f res).1.contains key' = true ↔
      (key' = key ∧ ∃ v, res = .ok v) ∨ c.contains key' = true := by
  cases res with
  | error e => simp [finish, contains, find?, release]
  | ok v =>
    rw [finish_of_fresh v hst] at hevict ⊢
    refine (contains_insert (c := c.release key f) (hadmitted v rfl) hevict key').trans ?_
    change key' = key ∨ c.contains key' = true ↔ _
    simp

theorem Exclusive.finish (h : c.Exclusive) (hslot : (key, f) ∈ c.slots)
    (hadmitted : ∀ v, res = .ok v → admittedWeight c.capacity v ≠ none)
    (hevict : (c.finish key f res).1.evictions = c.evictions) : (c.finish key f res).1.Exclusive where
  keys := by
    rw [finish_slots]
    exact h.keys.sublist (List.filter_sublist.map _)
  fresh g := by
    rw [isStale_modify (·.land res) (fun _ => rfl) (finish_flights c key f res)]
    exact h.fresh g
  free := by
    intro key' f' hm
    rw [finish_slots] at hm
    obtain ⟨hold, hne⟩ := List.mem_filter.1 hm
    refine Bool.eq_false_iff.2 ?_
    intro hc
    rcases (contains_finish (h.fresh f) hadmitted hevict key').1 hc with ⟨hkey, -⟩ | hc
    · rw [hkey] at hold hne
      rw [h.slot_unique hold hslot] at hne
      simp at hne
    · exact absurd (hc.symm.trans (h.free hold)) (by simp)

/-- The other slots stay. -/
theorem Exclusive.perm_finish (h : c.Exclusive) {rest : List (κ × Nat)} (hp : ((key, f) :: rest).Perm c.slots)
    (res : Except ε α) : rest.Perm (c.finish key f res).1.slots := by
  have hnew : (key, f) ∉ rest := (List.nodup_cons.1 (hp.nodup_iff.2 h.nodup)).1
  have hfilter := hp.filter (· ≠ (key, f))
  rw [List.filter_cons_of_neg (by simp), List.filter_eq_self.2 ?_] at hfilter
  · rw [finish_slots]
    exact hfilter
  · intro slot hm
    have hne : slot ≠ (key, f) := fun heq => hnew (heq ▸ hm)
    simpa using hne

end

end ConfigCompiler.Cache
