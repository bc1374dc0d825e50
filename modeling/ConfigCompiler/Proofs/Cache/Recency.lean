import Mathlib.Algebra.GroupWithZero.Nat
import Mathlib.Data.Nat.Find
import ConfigCompiler.Proofs.Cache.Contents
import ConfigCompiler.Proofs.Cache.Invalidation
import ConfigCompiler.Proofs.Cache.SingleFlight

/-!
# The entries of a cache are a recency list

`Recency.apply` says what a touch, an admission and an invalidation do to a list of entries that keeps no
counters: an admission puts the payload in front and keeps the longest part from the front that fits
(`Recency.longest`). `operations` reads off a run which of these its events are. `Weighed c`: the word that
counts the weight of the cache `c` adds up the weights of its entries; `Accounted c`: besides, they fit.
Dropping entries from the back until the rest fits leaves the longest front that fits (`evict_longest`), so
every step keeps `Accounted` and acts on the entries as on the list (`accounted_step`), and
`entries_eq_recency` holds in every run.
-/

namespace ConfigCompiler

variable {κ ε α : Type}

/-- The sum of the weights that entries are recorded with. -/
def Cache.total (es : List (Cache.Entry κ α)) : Nat := (es.map (·.weight.toNat)).sum

namespace Capacity

/-- Numbers of entries are counted in words, and budgets are below half of their range. -/
def Bounded : Capacity → Prop
  | entries limit => limit < 2 ^ 64
  | weight budget => budget.toNat < 2 ^ 63

/-- The number of entries, or the weight, that a capacity holds. -/
def limit : Capacity → Nat
  | entries limit => limit
  | weight budget => budget.toNat

/-- Whether a list of entries is within a capacity. -/
def Fits (capacity : Capacity) (es : List (Cache.Entry κ α)) : Prop :=
  match capacity with
  | entries limit => es.length ≤ limit
  | weight budget => Cache.total es ≤ budget.toNat

instance (capacity : Capacity) (es : List (Cache.Entry κ α)) : Decidable (capacity.Fits es) :=
  match capacity with
  | entries limit => inferInstanceAs (Decidable (es.length ≤ limit))
  | weight budget => inferInstanceAs (Decidable (Cache.total es ≤ budget.toNat))

/-- Whether a payload is heavier than the whole budget. -/
def TooHeavy [HasWeight α] (capacity : Capacity) (v : α) : Prop :=
  match capacity with
  | entries _ => False
  | weight budget => budget < HasWeight.weight v

instance [HasWeight α] (capacity : Capacity) (v : α) : Decidable (capacity.TooHeavy v) :=
  match capacity with
  | entries _ => inferInstanceAs (Decidable False)
  | weight budget => inferInstanceAs (Decidable (budget < HasWeight.weight v))

/-- The weight that a payload counts with. -/
def weightOf [HasWeight α] (capacity : Capacity) (v : α) : UInt64 :=
  match capacity with
  | entries _ => 1
  | weight _ => HasWeight.weight v

end Capacity

namespace Cache

/-! ## Recency lists -/

namespace Recency

inductive Op (κ α : Type) where
  | touch (key : κ)
  | put (key : κ) (value : α)
  | drop (doomed : κ → Bool)

/-- The longest part from the front on that fits. -/
def longest (capacity : Capacity) (es : List (Entry κ α)) : List (Entry κ α) :=
  es.take (Nat.findGreatest (fun n => capacity.Fits (es.take n)) es.length)

section
variable [DecidableEq κ] [HasWeight α]

/-- What an operation makes of a list in which the most recently used entry comes first. -/
def apply (capacity : Capacity) (es : List (Entry κ α)) : Op κ α → List (Entry κ α)
  | .touch key => es.filter (·.key = key) ++ es.filter (·.key ≠ key)
  | .put key v =>
    if capacity.TooHeavy v then es
    else longest capacity (⟨key, v, capacity.weightOf v⟩ :: es.filter (·.key ≠ key))
  | .drop doomed => es.filter (!doomed ·.key)

def run (capacity : Capacity) (es : List (Entry κ α)) (ops : List (Op κ α)) : List (Entry κ α) :=
  ops.foldl (apply capacity) es

end

theorem longest_append_singleton (capacity : Capacity) (es : List (Entry κ α)) (e : Entry κ α) :
    longest capacity (es ++ [e]) =
      if capacity.Fits (es ++ [e]) then es ++ [e] else longest capacity es := by
  have hlen : (es ++ [e]).length = es.length + 1 := by simp
  have hall : (es ++ [e]).take (es.length + 1) = es ++ [e] := by rw [← hlen, List.take_length]
  rw [longest, hlen, Nat.findGreatest_succ, hall]
  split
  · exact hall
  · -- shorter parts do not reach the last entry
    have hpart {n : Nat} (hn : n ≤ es.length) : (es ++ [e]).take n = es.take n :=
      List.take_append_of_le_length hn
    have hgreatest : Nat.findGreatest (fun n => capacity.Fits ((es ++ [e]).take n)) es.length =
        Nat.findGreatest (fun n => capacity.Fits (es.take n)) es.length := by
      rw [Nat.findGreatest_eq_iff]
      refine ⟨Nat.findGreatest_le _, fun h0 => ?_, fun n hn hle => ?_⟩
      · rw [hpart (Nat.findGreatest_le _)]
        exact Nat.findGreatest_of_ne_zero rfl h0
      · rw [hpart hle]
        exact Nat.findGreatest_is_greatest hn hle
    rw [hgreatest, hpart (Nat.findGreatest_le _), longest]

theorem fits_longest (capacity : Capacity) (es : List (Entry κ α)) :
    capacity.Fits (longest capacity es) := by
  have hnil : capacity.Fits (es.take 0) := by cases capacity <;> simp [Capacity.Fits, total]
  exact Nat.findGreatest_spec (P := fun n => capacity.Fits (es.take n)) (Nat.zero_le _) hnil

theorem longest_sublist (capacity : Capacity) (es : List (Entry κ α)) :
    (longest capacity es).Sublist es := List.take_sublist _ _

end Recency

/-! ## Weights -/

theorem total_cons (e : Entry κ α) (es : List (Entry κ α)) :
    total (e :: es) = e.weight.toNat + total es := by simp [total]

theorem total_perm {es fs : List (Entry κ α)} (h : es.Perm fs) : total es = total fs :=
  (h.map _).sum_nat

theorem fits_perm {capacity : Capacity} {es fs : List (Entry κ α)} (h : es.Perm fs) :
    capacity.Fits es ↔ capacity.Fits fs := by
  cases capacity with
  | entries limit => simp only [Capacity.Fits, h.length_eq]
  | weight budget => simp only [Capacity.Fits, total_perm h]

theorem total_sublist {es fs : List (Entry κ α)} (h : es.Sublist fs) : total es ≤ total fs := by
  induction h with
  | slnil => exact Nat.le_refl _
  | cons f _ ih => rw [total_cons]; omega
  | cons_cons e _ ih => rw [total_cons, total_cons]; omega

theorem fits_sublist {capacity : Capacity} {es fs : List (Entry κ α)} (h : es.Sublist fs)
    (hf : capacity.Fits fs) : capacity.Fits es := by
  cases capacity with
  | entries limit => exact Nat.le_trans h.length_le hf
  | weight budget => exact Nat.le_trans (total_sublist h) hf

/-- The weight of entries as the word that counts it. -/
def totalWord (es : List (Entry κ α)) : UInt64 := UInt64.ofNat (total es)

theorem totalWord_cons (e : Entry κ α) (es : List (Entry κ α)) :
    totalWord (e :: es) = totalWord es + e.weight := by
  rw [totalWord, total_cons, Nat.add_comm, UInt64.ofNat_add, UInt64.ofNat_toNat, totalWord]

theorem totalWord_cons_sub (e : Entry κ α) (es : List (Entry κ α)) :
    totalWord (e :: es) - e.weight = totalWord es := by rw [totalWord_cons, UInt64.add_sub_cancel]

theorem totalWord_perm {es fs : List (Entry κ α)} (h : es.Perm fs) : totalWord es = totalWord fs := by
  rw [totalWord, total_perm h, totalWord]

/-- Entries that a capacity holds weigh no more than its limit, each being recorded as `weightOf`. -/
theorem total_le_limit [HasWeight α] {capacity : Capacity} {es : List (Entry κ α)}
    (hr : ∀ e ∈ es, e.weight = capacity.weightOf e.value) (hf : capacity.Fits es) :
    total es ≤ capacity.limit := by
  cases capacity with
  | entries limit =>
    -- each entry counts one
    have hmap : es.map (·.weight.toNat) = es.map fun _ => 1 :=
      List.map_congr_left fun e he => by rw [hr e he]; rfl
    have hone : total es = es.length := by
      rw [total, hmap]
      simp
    rw [hone]
    exact hf
  | weight budget => exact hf

theorem toNat_totalWord [HasWeight α] {capacity : Capacity} (hc : capacity.Bounded)
    {es : List (Entry κ α)} (hr : ∀ e ∈ es, e.weight = capacity.weightOf e.value)
    (hf : capacity.Fits es) : (totalWord es).toNat = total es := by
  refine UInt64.toNat_ofNat_of_lt' (Nat.lt_of_le_of_lt (total_le_limit hr hf) ?_)
  cases capacity with
  | entries limit => exact hc
  | weight budget => exact budget.toNat_lt

/-! ## Eviction -/

/-- Whether too much is held can be told from the count and the weight, unless the weight has wrapped. -/
theorem exceeded_iff {capacity : Capacity} {es : List (Entry κ α)}
    (hb : ∀ budget, capacity = .weight budget → total es < 2 ^ 64) :
    capacity.exceeded es.length (totalWord es) = true ↔ ¬ capacity.Fits es := by
  cases capacity with
  | entries limit => simp [Capacity.exceeded, Capacity.Fits]
  | weight budget =>
    have : (totalWord es).toNat = total es := UInt64.toNat_ofNat_of_lt' (hb budget rfl)
    simp [Capacity.exceeded, Capacity.Fits, UInt64.lt_iff_toNat_lt, this]

theorem evict_suffix (capacity : Capacity) (es : List (Entry κ α)) (weight : UInt64) :
    (evict capacity es weight).1 <:+ es := ⟨_, evict_append capacity es weight⟩

/-- What is kept is weighed rightly, even if the weight has wrapped. -/
theorem evict_weight (capacity : Capacity) (es : List (Entry κ α)) :
    (evict capacity es (totalWord es)).2.1 = totalWord (evict capacity es (totalWord es)).1 := by
  induction es with
  | nil => rfl
  | cons e es ih =>
    rw [evict, totalWord_cons_sub]
    split
    · exact ih
    · rfl

/-- Dropping entries from the back leaves the longest front that fits. -/
theorem evict_longest {capacity : Capacity} {es : List (Entry κ α)}
    (hb : ∀ budget, capacity = .weight budget → total es < 2 ^ 64) :
    (evict capacity es (totalWord es)).1.reverse = Recency.longest capacity es.reverse := by
  induction es with
  | nil => rfl
  | cons e es ih =>
    have hexc := exceeded_iff hb
    have hrev : capacity.Fits (e :: es).reverse ↔ capacity.Fits (e :: es) :=
      fits_perm (e :: es).reverse_perm
    rw [List.length_cons] at hexc
    rw [List.reverse_cons] at hrev
    rw [evict, List.reverse_cons, Recency.longest_append_singleton]
    split
    · rename_i hx
      rw [if_neg (mt hrev.1 (hexc.1 hx)), totalWord_cons_sub]
      refine ih fun budget hbud => ?_
      have := hb budget hbud
      rw [total_cons] at this
      omega
    · rename_i hx
      rw [if_pos (hrev.2 (Classical.not_not.1 (mt hexc.2 hx)))]
      exact List.reverse_cons

/-! ## Accounts -/

section
variable [HasWeight α] {c c' : Cache κ ε α}

/-- Each key has one entry, and the weights that entries are recorded with are summed up. -/
structure Weighed (c : Cache κ ε α) : Prop where
  keys_nodup : (c.entries.map Entry.key).Nodup
  weight : c.weight = totalWord c.entries

/-- Besides, each entry is recorded with the weight of its payload, and all of them fit. -/
structure Accounted (c : Cache κ ε α) : Prop extends Weighed c where
  recorded : ∀ e ∈ c.entries, e.weight = c.capacity.weightOf e.value
  fits : c.capacity.Fits c.entries

omit [HasWeight α] in
theorem Weighed.empty (capacity : Capacity) : Weighed (empty capacity : Cache κ ε α) :=
  ⟨by simp [Cache.empty], rfl⟩

theorem Accounted.empty (capacity : Capacity) : Accounted (empty capacity : Cache κ ε α) := by
  refine ⟨.empty capacity, by simp [Cache.empty], ?_⟩
  cases capacity <;> simp [Cache.empty, Capacity.Fits, total]

omit [HasWeight α] in
/-- The entries are only put in another order. -/
theorem Weighed.perm (h : Weighed c) (he : c'.entries.Perm c.entries) (hw : c'.weight = c.weight) :
    Weighed c' where
  keys_nodup := (he.map _).nodup_iff.2 h.keys_nodup
  weight := by rw [hw, h.weight, totalWord_perm he]

theorem Accounted.perm (h : Accounted c) (hc : c'.capacity = c.capacity)
    (he : c'.entries.Perm c.entries) (hw : c'.weight = c.weight) : Accounted c' where
  toWeighed := h.toWeighed.perm he hw
  recorded e hm := hc ▸ h.recorded e (he.mem_iff.1 hm)
  fits := hc ▸ (fits_perm he).2 h.fits

omit [HasWeight α] in
theorem Weighed.congr (h : Weighed c) (he : c'.entries = c.entries) (hw : c'.weight = c.weight) :
    Weighed c' := h.perm (.of_eq he) hw

theorem Accounted.congr (h : Accounted c) (hc : c'.capacity = c.capacity)
    (he : c'.entries = c.entries) (hw : c'.weight = c.weight) : Accounted c' :=
  h.perm hc (.of_eq he) hw

variable [DecidableEq κ]

omit [HasWeight α] in
/-- An entry is the only one of its key. -/
theorem filter_key_eq {entries : List (Entry κ α)} (hn : (entries.map Entry.key).Nodup)
    {e : Entry κ α} (he : e ∈ entries) : entries.filter (·.key = e.key) = [e] := by
  induction entries with
  | nil => cases he
  | cons x entries ih =>
    obtain ⟨hx, hn⟩ := List.nodup_cons.1 hn
    rcases List.mem_cons.1 he with rfl | he
    · have hnone : entries.filter (·.key = e.key) = [] :=
        List.filter_eq_nil_iff.2 fun y hy hk => hx (List.mem_map.2 ⟨y, hy, by simpa using hk⟩)
      simp [hnone]
    · have hne : x.key ≠ e.key := fun hk => hx (hk ▸ List.mem_map.2 ⟨e, he, rfl⟩)
      simpa [hne] using ih hn he

omit [HasWeight α] in
theorem filter_key_nil {entries : List (Entry κ α)} {key : κ}
    (hf : entries.find? (·.key = key) = none) : entries.filter (·.key = key) = [] :=
  List.filter_eq_nil_iff.2 (List.find?_eq_none.1 hf)

omit [HasWeight α] in
theorem cons_without_perm {entries : List (Entry κ α)} (hn : (entries.map Entry.key).Nodup)
    {e : Entry κ α} (he : e ∈ entries) : (e :: without entries e.key).Perm entries := by
  have hsplit := List.filter_append_perm (fun x : Entry κ α => decide (x.key = e.key)) entries
  rw [filter_key_eq hn he] at hsplit
  simpa only [without, decide_not, List.singleton_append] using hsplit

omit [HasWeight α] in
theorem without_of_find?_eq_none {key : κ} (hf : c.find? key = none) :
    without c.entries key = c.entries := by
  refine List.filter_eq_self.2 fun e he => ?_
  simpa using List.find?_eq_none.1 hf e he

/-- Using an entry is a touch, and finding none is one without effect. -/
theorem Accounted.entries_hit (h : Accounted c) {key : κ} {e : Entry κ α} (he : c.find? key = some e) :
    (c.hit e).entries = Recency.apply c.capacity c.entries (.touch key) := by
  obtain ⟨hm, rfl⟩ := find?_eq_some he
  rw [Recency.apply, filter_key_eq h.keys_nodup hm]
  rfl

theorem entries_of_find?_eq_none {key : κ} (hf : c.find? key = none) :
    Recency.apply c.capacity c.entries (.touch key) = c.entries := by
  rw [Recency.apply, filter_key_nil hf, List.nil_append]
  exact without_of_find?_eq_none hf

omit [HasWeight α] in
theorem Weighed.hit (h : Weighed c) {key : κ} {e : Entry κ α} (he : c.find? key = some e) :
    Weighed (c.hit e) :=
  h.perm (cons_without_perm h.keys_nodup (find?_eq_some he).1) rfl

theorem Accounted.hit (h : Accounted c) {key : κ} {e : Entry κ α} (he : c.find? key = some e) :
    Accounted (c.hit e) :=
  h.perm rfl (cons_without_perm h.keys_nodup (find?_eq_some he).1) rfl

omit [DecidableEq κ] in
theorem admittedWeight_of_not_tooHeavy {capacity : Capacity} {v : α} (hv : ¬ capacity.TooHeavy v) :
    admittedWeight capacity v = some (capacity.weightOf v) := by
  cases capacity with
  | entries limit => rfl
  | weight budget => exact if_neg hv

omit [DecidableEq κ] in
theorem admittedWeight_of_tooHeavy {capacity : Capacity} {v : α} (hv : capacity.TooHeavy v) :
    admittedWeight capacity v = none := by
  cases capacity with
  | entries limit => exact hv.elim
  | weight budget => exact if_pos hv

/-- What an admission does to entries and weight. -/
theorem insert_of_not_tooHeavy (key : κ) {v : α} (hv : ¬ c.capacity.TooHeavy v) :
    (c.insert key v).1.entries =
      (evict c.capacity (⟨key, v, c.capacity.weightOf v⟩ :: without c.entries key).reverse
        (c.weight - (c.find? key).elim 0 Entry.weight + c.capacity.weightOf v)).1.reverse ∧
    (c.insert key v).1.weight =
      (evict c.capacity (⟨key, v, c.capacity.weightOf v⟩ :: without c.entries key).reverse
        (c.weight - (c.find? key).elim 0 Entry.weight + c.capacity.weightOf v)).2.1 := by
  simp only [insert, admittedWeight_of_not_tooHeavy hv]
  trivial

theorem insert_of_tooHeavy {key : κ} {v : α} (hv : c.capacity.TooHeavy v) :
    (c.insert key v).1 = c := by
  simp only [insert, admittedWeight_of_tooHeavy hv]

omit [HasWeight α] in
/-- Leaving out the entry of a key takes its weight off. -/
theorem Weighed.weight_without (h : Weighed c) (key : κ) :
    c.weight - (c.find? key).elim 0 Entry.weight = totalWord (without c.entries key) := by
  cases hf : c.find? key with
  | none => rw [without_of_find?_eq_none hf, h.weight, Option.elim_none, UInt64.sub_zero]
  | some e =>
    obtain ⟨hm, rfl⟩ := find?_eq_some hf
    rw [h.weight, ← totalWord_perm (cons_without_perm h.keys_nodup hm), Option.elim_some,
      totalWord_cons_sub]

/-- An admission weighs the entries with the payload in front, and drops from them what no longer fits. -/
theorem Weighed.insert_evict (h : Weighed c) (key : κ) {v : α} (hv : ¬ c.capacity.TooHeavy v)
    {es : List (Entry κ α)} (hes : es = ⟨key, v, c.capacity.weightOf v⟩ :: without c.entries key) :
    (c.insert key v).1.entries = (evict c.capacity es.reverse (totalWord es.reverse)).1.reverse ∧
      (c.insert key v).1.weight = totalWord (c.insert key v).1.entries := by
  have htotal : c.weight - (c.find? key).elim 0 Entry.weight + c.capacity.weightOf v =
      totalWord es.reverse := by
    rw [totalWord_perm es.reverse_perm, hes, totalWord_cons, h.weight_without]
  obtain ⟨he, hw⟩ := insert_of_not_tooHeavy key hv
  rw [← hes, htotal] at he hw
  refine ⟨he, ?_⟩
  rw [hw, evict_weight, he]
  exact (totalWord_perm (List.reverse_perm _)).symm

theorem Weighed.insert (h : Weighed c) (key : κ) (v : α) : Weighed (c.insert key v).1 := by
  by_cases hv : c.capacity.TooHeavy v
  · rw [insert_of_tooHeavy hv]
    exact h
  · obtain ⟨he, hw⟩ := h.insert_evict key hv rfl
    refine ⟨?_, hw⟩
    have hsub := (evict_suffix c.capacity
      (⟨key, v, c.capacity.weightOf v⟩ :: without c.entries key).reverse
      (totalWord (⟨key, v, c.capacity.weightOf v⟩ :: without c.entries key).reverse)).sublist.reverse
    rw [List.reverse_reverse] at hsub
    rw [he]
    refine (hsub.map Entry.key).nodup (List.nodup_cons.2 ⟨fun hm => ?_, ?_⟩)
    · obtain ⟨e, hm, hk⟩ := List.mem_map.1 hm
      exact absurd hk (by simpa using (List.mem_filter.1 hm).2)
    · exact (List.filter_sublist.map _).nodup h.keys_nodup

/-- With a payload, and before anything is dropped, a weight that is held against a budget does not wrap. -/
def Countable (c : Cache κ ε α) (key : κ) (v : α) : Prop :=
  ∀ budget, c.capacity = .weight budget →
    total (⟨key, v, c.capacity.weightOf v⟩ :: without c.entries key) < 2 ^ 64

theorem Accounted.countable (h : Accounted c) (hc : c.capacity.Bounded) (key : κ) {v : α}
    (hv : ¬ c.capacity.TooHeavy v) : c.Countable key v := by
  intro budget hb
  have hfits := h.fits
  rw [hb] at hc hv hfits ⊢
  have hpart : total (without c.entries key) ≤ total c.entries := total_sublist List.filter_sublist
  have hnew : (HasWeight.weight v).toNat ≤ budget.toNat := UInt64.not_lt.1 hv
  have hbudget : budget.toNat < 2 ^ 63 := hc
  have hheld : total c.entries ≤ budget.toNat := hfits
  rw [total_cons]
  simp only [Capacity.weightOf]
  omega

theorem insert_capacity (c : Cache κ ε α) (key : κ) (v : α) :
    (c.insert key v).1.capacity = c.capacity := by
  unfold insert; split <;> rfl

/-- An admission puts the payload in front and keeps the longest front that fits. -/
theorem Weighed.insert_longest (h : Weighed c) {key : κ} {v : α} (hw : c.Countable key v)
    (hv : ¬ c.capacity.TooHeavy v) :
    (c.insert key v).1.entries = Recency.longest c.capacity
      (⟨key, v, c.capacity.weightOf v⟩ :: without c.entries key) := by
  have hrev := List.reverse_perm (⟨key, v, c.capacity.weightOf v⟩ :: without c.entries key)
  have hkept := evict_longest fun budget hb => total_perm hrev ▸ hw budget hb
  rw [List.reverse_reverse] at hkept
  exact (h.insert_evict key hv rfl).1.trans hkept

theorem Accounted.entries_insert (h : Accounted c) (hc : c.capacity.Bounded) (key : κ) (v : α) :
    (c.insert key v).1.entries = Recency.apply c.capacity c.entries (.put key v) := by
  rw [Recency.apply]
  split
  · rename_i hv
    rw [insert_of_tooHeavy hv]
  · rename_i hv
    exact h.insert_longest (h.countable hc key hv) hv

theorem Accounted.insert (h : Accounted c) {key : κ} {v : α}
    (hw : ¬ c.capacity.TooHeavy v → c.Countable key v) : Accounted (c.insert key v).1 := by
  by_cases hv : c.capacity.TooHeavy v
  · rw [insert_of_tooHeavy hv]
    exact h
  · have he := h.insert_longest (hw hv) hv
    have hcap := insert_capacity c key v
    have hsub := Recency.longest_sublist c.capacity
      (⟨key, v, c.capacity.weightOf v⟩ :: without c.entries key)
    refine ⟨h.toWeighed.insert key v, fun e hm => ?_, ?_⟩
    · rw [hcap]
      rw [he] at hm
      rcases List.mem_cons.1 (hsub.subset hm) with rfl | hm
      · rfl
      · exact h.recorded e (List.mem_filter.1 hm).1
    · rw [hcap, he]
      exact Recency.fits_longest _ _

/-- A result is admitted unless its flight is stale. -/
theorem Accounted.finish (h : Accounted c) (hc : c.capacity.Bounded) (key : κ) (f : Nat) (v : α) :
    Accounted (c.finish key f (.ok v)).1 ∧ (c.finish key f (.ok v)).1.capacity = c.capacity ∧
      (c.finish key f (.ok v)).1.entries =
        if c.isStale f then c.entries else Recency.apply c.capacity c.entries (.put key v) := by
  have hrelease : Accounted (c.release key f) := h.congr rfl rfl rfl
  cases hst : c.isStale f with
  | true =>
    rw [finish_of_stale v hst]
    exact ⟨hrelease.congr rfl rfl rfl, rfl, rfl⟩
  | false =>
    rw [finish_of_fresh v hst]
    exact ⟨(hrelease.insert (hrelease.countable hc key)).congr rfl rfl rfl, insert_capacity ..,
      hrelease.entries_insert hc key v⟩

/-! ## Invalidation -/

omit [DecidableEq κ] [HasWeight α] in
theorem foldl_sub_weight (dropped kept : List (Entry κ α)) :
    dropped.foldl (fun weight e => weight - e.weight) (totalWord (dropped ++ kept)) = totalWord kept := by
  induction dropped with
  | nil => rfl
  | cons e dropped ih => rw [List.foldl_cons, List.cons_append, totalWord_cons_sub, ih]

omit [DecidableEq κ] [HasWeight α] in
theorem Weighed.invalidate (h : Weighed c) (doomed : κ → Bool) : Weighed (c.invalidate doomed).1 := by
  have he := invalidate_entries c doomed
  refine ⟨?_, ?_⟩
  · rw [he]
    exact (List.filter_sublist.map Entry.key).nodup h.keys_nodup
  · have hperm := List.filter_append_perm (fun x : Entry κ α => doomed x.key) c.entries
    rw [he, ← foldl_sub_weight (c.entries.filter (doomed ·.key)), totalWord_perm hperm, ← h.weight]
    simp only [Cache.invalidate, List.partition_eq_filter_filter]

omit [DecidableEq κ] in
theorem Accounted.invalidate (h : Accounted c) (doomed : κ → Bool) :
    Accounted (c.invalidate doomed).1 := by
  have he := invalidate_entries c doomed
  have hsub : (c.entries.filter (!doomed ·.key)).Sublist c.entries := List.filter_sublist
  refine ⟨h.toWeighed.invalidate doomed, fun e hm => ?_, ?_⟩
  · rw [he] at hm
    exact h.recorded e (hsub.subset hm)
  · rw [he]
    exact fits_sublist hsub h.fits

/-! ## Runs -/

namespace Shared

/-- What an event does to the entries, where `ps` are the productions so far. -/
def operation (s : Shared κ ε α) (ps : List (Production κ ε α)) : Event κ ε α → Option (Recency.Op κ α)
  | .get key => some (.touch key)
  | .insert key v => some (.put key v)
  | .invalidate doomed => some (.drop doomed)
  | .ask i =>
    match s.calls[i]? with
    | some (.asking key _) => some (.touch key)
    | _ => none
  | .finish i (.ok v) =>
    match ps.find? (·.caller = i) with
    | some p => if p.invalidated then none else some (.put p.key v)
    | none => none
  | _ => none

/-- The operations of a run on the entries. -/
def operations : Shared κ ε α → List (Production κ ε α) → List (Event κ ε α) →
    List (Recency.Op κ α)
  | _, _, [] => []
  | s, ps, e :: es =>
    match s.step e with
    | none => []
    | some s' => (operation s ps e).toList ++ operations s' (record e s' ps) es

variable {s s' : Shared κ ε α} {ps : List (Production κ ε α)}

omit [DecidableEq κ] [HasWeight α] in
theorem Told.find?_caller (h : Told s ps) {p : Production κ ε α} (hp : p ∈ ps) :
    ps.find? (·.caller = p.caller) = some p := by
  cases hf : ps.find? (·.caller = p.caller) with
  | none => exact absurd (List.find?_eq_none.1 hf p hp) (by simp)
  | some p' =>
    have hc : p'.caller = p.caller := by simpa using List.find?_some hf
    rw [h.eq_of_caller (List.mem_of_find?_eq_some hf) hp hc]

omit [DecidableEq κ] [HasWeight α] in
/-- The flight of a running production is stale just when its key has been invalidated. -/
theorem Told.isStale_eq (h : Told s ps) (hI : Inv s) {p : Production κ ε α} (hp : p ∈ ps)
    (hr : p.landing = .running) : s.cache.isStale p.flight = p.invalidated := by
  have hi := h.called hp
  rw [Production.call_of_running hr] at hi
  obtain ⟨fl, hfl, -, hst⟩ := hI.led_flight hi
  rw [isStale_of_getElem? hfl, Bool.eq_iff_iff, hst, h.slot hp hr, Bool.not_eq_false]

theorem accounted_step (hA : Accounted s.cache) (hc : s.cache.capacity.Bounded) (h : Told s ps)
    (hI : Inv s) {e : Event κ ε α} (hs : s.step e = some s') :
    Accounted s'.cache ∧ s'.cache.capacity = s.cache.capacity ∧ s'.cache.entries =
      Recency.run s.cache.capacity s.cache.entries (operation s ps e).toList := by
  cases e with
  | get key =>
    cases hs
    rcases get_cases s.cache key with ⟨x, hx, hg⟩ | ⟨hx, hg⟩ <;> rw [hg]
    · exact ⟨hA.hit hx, rfl, hA.entries_hit hx⟩
    · exact ⟨hA, rfl, (entries_of_find?_eq_none hx).symm⟩
  | insert key v =>
    cases hs
    exact ⟨hA.insert (hA.countable hc key), insert_capacity .., hA.entries_insert hc key v⟩
  | invalidate doomed =>
    cases hs
    exact ⟨hA.invalidate doomed, rfl, invalidate_entries ..⟩
  | call key d => cases hs; exact ⟨hA, rfl, rfl⟩
  | ask i =>
    obtain ⟨key, d, hi, rfl⟩ := step_ask hs
    have hop : operation s ps (.ask i) = some (.touch key) := by simp only [operation, hi]
    rw [hop]
    rcases enter_cases s.cache key with ⟨x, hx, he⟩ | ⟨g, hx, -, he⟩ | ⟨hx, -, he⟩ <;> rw [he]
    · exact ⟨hA.hit hx, rfl, hA.entries_hit hx⟩
    · exact ⟨hA, rfl, (entries_of_find?_eq_none hx).symm⟩
    · exact ⟨hA.congr rfl rfl rfl, rfl, (entries_of_find?_eq_none hx).symm⟩
  | finish i r =>
    obtain ⟨key, f, hi, rfl⟩ := step_finish hs
    cases r with
    | error err => exact ⟨hA.congr rfl rfl rfl, rfl, rfl⟩
    | ok v =>
      obtain ⟨p, hp, rfl, rfl, rfl, hr⟩ := h.leading hi
      have hop : operation s ps (.finish p.caller (.ok v)) =
          if s.cache.isStale p.flight then none else some (.put p.key v) := by
        simp only [operation, h.find?_caller hp, h.isStale_eq hI hp hr]
      obtain ⟨hA', hcap, he⟩ := hA.finish hc p.key p.flight v
      refine ⟨hA', hcap, he.trans ?_⟩
      rw [hop]
      split <;> rfl
  | unwind i =>
    obtain ⟨key, f, hi, rfl⟩ := step_unwind hs
    exact ⟨hA.congr rfl rfl rfl, rfl, rfl⟩
  | wake i =>
    obtain ⟨key, f, d, -, ⟨r, -, rfl⟩ | ⟨-, rfl⟩⟩ := step_wake hs <;>
      exact ⟨hA.congr rfl rfl rfl, rfl, rfl⟩
  | timeOut i =>
    obtain ⟨key, f, d, -, -, rfl⟩ := step_timeOut hs
    exact ⟨hA, rfl, rfl⟩

theorem accounted_run (hA : Accounted s.cache) (hc : s.cache.capacity.Bounded) (h : Told s ps)
    (hI : Inv s) {es : List (Event κ ε α)} (hs : s.run es = some s') :
    Accounted s'.cache ∧ s'.cache.capacity = s.cache.capacity ∧ s'.cache.entries =
      Recency.run s.cache.capacity s.cache.entries (operations s ps es) := by
  induction es generalizing s ps with
  | nil => cases hs; exact ⟨hA, rfl, rfl⟩
  | cons e es ih =>
    obtain ⟨s₁, h₁, h₂⟩ := Option.bind_eq_some_iff.1 (run_cons s e es ▸ hs)
    obtain ⟨hA₁, hcap, he⟩ := accounted_step hA hc h hI h₁
    obtain ⟨hA', hcap', he'⟩ := ih hA₁ (hcap ▸ hc) (h.step hI h₁) (hI.step h₁) h₂
    refine ⟨hA', hcap'.trans hcap, ?_⟩
    simp only [operations, h₁]
    rw [he', hcap, he, Recency.run, Recency.run, Recency.run, List.foldl_append]

/--
The entries of a cache, the most recently used one first, are what its operations make of a recency list;
its weight is the sum of theirs, and they fit. Looking for a key without using it changes nothing, and
finds what the list holds.
-/
theorem entries_eq_recency {capacity : Capacity} (hc : capacity.Bounded) {es : List (Event κ ε α)}
    (hs : (start capacity).run es = some s) :
    s.cache.entries = Recency.run capacity [] (operations (start capacity) [] es) ∧
      s.cache.weight.toNat = total s.cache.entries ∧ capacity.Fits s.cache.entries ∧
      ∀ key, s.cache.contains key = true ↔ key ∈ s.cache.entries.map Entry.key := by
  obtain ⟨hA, hcap, he⟩ := accounted_run (Accounted.empty capacity) hc (Told.start capacity)
    (Inv.start capacity) hs
  have hcap : s.cache.capacity = capacity := hcap
  refine ⟨he, ?_, hcap ▸ hA.fits, fun key => ?_⟩
  · rw [hA.weight, toNat_totalWord (hcap ▸ hc) hA.recorded hA.fits]
  · simp [contains, find?]

/-- A production of key 2 is admitted, and key 1 has to go, which was used before key 0. -/
theorem entries_eq_recency_evicts :
    ∃ s : Shared Nat String Script.Item, (Capacity.weight 10).Bounded ∧
      (start (.weight 10)).run [.insert 0 ⟨1, 4⟩, .insert 1 ⟨2, 4⟩, .get 0, .call 2 none, .ask 0,
        .finish 0 (.ok ⟨3, 5⟩)] = some s ∧
      s.cache.entries = Recency.run (.weight 10) []
        [.put 0 ⟨1, 4⟩, .put 1 ⟨2, 4⟩, .touch 0, .touch 2, .put 2 ⟨3, 5⟩] ∧
      s.cache.entries = [⟨2, ⟨3, 5⟩, 5⟩, ⟨0, ⟨1, 4⟩, 4⟩] ∧ s.cache.weight.toNat = 9 ∧
      (Capacity.weight 10).Fits s.cache.entries := by
  have hc : (Capacity.weight 10).Bounded := by
    show (10 : UInt64).toNat < 2 ^ 63
    decide
  have hs : (start (.weight 10) : Shared Nat String Script.Item).run [.insert 0 ⟨1, 4⟩,
      .insert 1 ⟨2, 4⟩, .get 0, .call 2 none, .ask 0, .finish 0 (.ok ⟨3, 5⟩)] = some _ := rfl
  obtain ⟨he, hw, hf, -⟩ := entries_eq_recency hc hs
  exact ⟨_, hc, rfl, he, rfl, hw, hf⟩

end Shared

end

end Cache

end ConfigCompiler
