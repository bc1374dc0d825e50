import ConfigCompiler.Proofs.Binary64.Rounding
import ConfigCompiler.Proofs.View.Params

/-!
# Parameters in normal form

Values mean the same as parameters if they are equal up to the order of keys, up to whether a whole number is
written as an integer or as a float, and up to which NaN is written (`Value.Equivalent`). Canonical values stand
for all that mean the same: those of two values are equal just where the values mean the same
(`Value.canonical_eq_iff`), and a canonical value is its own (`Value.canonical_canonical`).

For parameters, only the last value of each name counts (`Params.get?_setAll`). So parameters of one meaning are
equal, however they are made, and a digest tells those of different meanings apart (`Params.normal_form`).
-/

namespace ConfigCompiler

/-! ## Whole numbers -/

namespace Binary64

/-- The number is finite and whole. -/
def Denotes (x : Binary64) (i : Int) : Prop :=
  x.isFinite = true ∧ (if x.isNegative then -(x.units : Int) else x.units) = i * unitsPerOne

variable {x : Binary64}

theorem round_of_units {n : Nat} (h : x.units = n * unitsPerOne) :
    x.round = if x.isNegative then -(n : Int) else n := by
  have hpos := unitsPerOne_pos
  refine round_eq ?_ ?_
  · rw [h]
    exact Nat.le_add_right ..
  · rw [h]
    omega

theorem toInt?_eq_some_iff {i : Int} : x.toInt? = some i ↔ x.Denotes i := by
  unfold toInt? Denotes
  constructor
  · intro h
    split at h
    · rename_i hwhole
      rw [Bool.and_eq_true, beq_iff_eq] at hwhole
      obtain ⟨n, hn⟩ := Nat.dvd_of_mod_eq_zero hwhole.2
      rw [Nat.mul_comm] at hn
      cases h
      rw [round_of_units hn, hn]
      refine ⟨hwhole.1, ?_⟩
      split
      · rw [Int.natCast_mul, Int.neg_mul]
      · rw [Int.natCast_mul]
    · cases h
  · rintro ⟨hfinite, hi⟩
    have hpos := Int.natCast_pos.2 unitsPerOne_pos
    have hn : x.units = i.natAbs * unitsPerOne := by
      have habs := congrArg Int.natAbs hi
      rw [Int.natAbs_mul, Int.natAbs_natCast] at habs
      split at habs
      · rwa [Int.natAbs_neg, Int.natAbs_natCast] at habs
      · rwa [Int.natAbs_natCast] at habs
    rw [if_pos (by rw [hfinite, hn, Nat.mul_mod_left]; rfl), round_of_units hn]
    congr 1
    split
    · rename_i hneg
      rw [if_pos hneg] at hi
      have : i ≤ 0 := by
        by_contra hlt
        have := Int.mul_pos (Int.not_le.1 hlt) hpos
        omega
      omega
    · rename_i hneg
      rw [if_neg hneg] at hi
      have : 0 ≤ i := by
        by_contra hlt
        have := Int.mul_neg_of_neg_of_pos (Int.not_le.1 hlt) hpos
        omega
      omega

theorem Denotes.isNaN {i : Int} (h : x.Denotes i) : x.isNaN = false := (isFinite_iff.1 h.1).1

theorem denotes_zero_of_isZero (h : x.isZero = true) : x.Denotes 0 := by
  have hm : x.magnitude = 0 := of_decide_eq_true h
  refine ⟨decide_eq_true (by rw [hm]; decide), ?_⟩
  rw [units_of_isZero h, Int.zero_mul]
  split <;> rfl

end Binary64

namespace Value

/-! ## Values that mean the same -/

/-- What a number means as a parameter. -/
inductive Number where
  | int (i : Int64)
  | nan
  | float (x : Binary64)

def Number.value : Number → Value
  | int i => .int i
  | nan => .float .nan
  | float x => .float x

/-- What a value means if it is a number: a float that denotes a 64-bit integer means this integer, and all NaNs
mean the same. -/
inductive ReadsAs : Value → Number → Prop
  | int (i : Int64) : ReadsAs (int i) (.int i)
  | whole {x : Binary64} {i : Int64} : x.Denotes i.toInt → ReadsAs (float x) (.int i)
  | nan {x : Binary64} : x.isNaN = true → ReadsAs (float x) .nan
  | float {x : Binary64} : x.isNaN = false → (∀ i : Int64, ¬ x.Denotes i.toInt) → ReadsAs (float x) (.float x)

/-- Values of one meaning: equal up to the order of keys and to how numbers are written. -/
inductive Equivalent : Value → Value → Prop
  | null : Equivalent null null
  | bool (b : Bool) : Equivalent (bool b) (bool b)
  | number {v w : Value} {n : Number} : ReadsAs v n → ReadsAs w n → Equivalent v w
  | str (s : String) : Equivalent (str s) (str s)
  | seq {items others : List Value} : items.length = others.length →
      (∀ (i : Nat) v w, items[i]? = some v → others[i]? = some w → Equivalent v w) →
      Equivalent (seq items) (seq others)
  | map {entries others : Entries Value} : (∀ key, key ∈ entries.map (·.1) ↔ key ∈ others.map (·.1)) →
      (∀ key v w, (key, v) ∈ entries → (key, w) ∈ others → Equivalent v w) →
      Equivalent (map entries) (map others)

section
variable {x : Binary64} {v w : Value} {n m : Number}

theorem canonicalFloat_of_denotes {i : Int64} (h : x.Denotes i.toInt) : canonicalFloat x = int i := by
  unfold canonicalFloat
  rw [Binary64.toInt?_eq_some_iff.2 h]
  dsimp only
  rw [if_pos ⟨i.minValue_le_toInt, i.toInt_le⟩, Int64.ofInt_toInt]

theorem canonicalFloat_of_not_denotes (h : ∀ i : Int64, ¬ x.Denotes i.toInt) :
    canonicalFloat x = float x.normalize := by
  unfold canonicalFloat
  split
  · rename_i i hi
    rw [if_neg]
    rintro ⟨hmin, hmax⟩
    refine h (Int64.ofInt i) ?_
    rw [Int64.toInt_ofInt_of_le hmin (Int.lt_add_one_of_le hmax)]
    exact Binary64.toInt?_eq_some_iff.1 hi
  · rfl

theorem ReadsAs.canonical_eq (h : ReadsAs v n) : v.canonical = n.value := by
  cases h with
  | int i => rw [canonical, Number.value]
  | whole hx => rw [canonical, canonicalFloat_of_denotes hx, Number.value]
  | nan hx =>
    rw [canonical, canonicalFloat_of_not_denotes fun i hi => Bool.false_ne_true (hi.isNaN.symm.trans hx),
      Binary64.normalize, if_pos hx, Number.value]
  | @float x hx hno =>
    have hzero : x.units ≠ 0 := fun h => hno 0 (Binary64.denotes_zero_of_isZero (Binary64.isZero_of_units h))
    rw [canonical, canonicalFloat_of_not_denotes hno, Binary64.normalize_of_units_ne_zero hx hzero, Number.value]

/-- The value that stands for a meaning has this meaning. -/
theorem ReadsAs.value (h : ReadsAs v n) : ReadsAs n.value n := by
  cases h with
  | int i => exact .int i
  | whole => exact .int _
  | nan => exact .nan (by decide)
  | float hx hno => exact .float hx hno

theorem exists_readsAs_float (x : Binary64) : ∃ n, ReadsAs (float x) n := by
  cases hx : x.isNaN with
  | true => exact ⟨_, .nan hx⟩
  | false =>
    by_cases hwhole : ∃ i : Int64, x.Denotes i.toInt
    · obtain ⟨i, hi⟩ := hwhole
      exact ⟨_, .whole hi⟩
    · exact ⟨_, .float hx fun i hi => hwhole ⟨i, hi⟩⟩

theorem ReadsAs.ne_nan {x : Binary64} (h : ReadsAs v (.float x)) : x ≠ .nan := by
  rintro rfl
  cases h with
  | float hx => exact absurd hx (by decide)

/-- Meanings of numbers are told apart by the values that stand for them. -/
theorem ReadsAs.eq_of_value_eq (h : ReadsAs v n) (h' : ReadsAs w m) (heq : n.value = m.value) : n = m := by
  cases n with
  | int i =>
    cases m with
    | int j =>
      cases heq
      rfl
    | _ => cases heq
  | nan =>
    cases m with
    | int j => cases heq
    | nan => rfl
    | float y =>
      cases heq
      exact absurd rfl h'.ne_nan
  | float x =>
    cases m with
    | int j => cases heq
    | nan =>
      cases heq
      exact absurd rfl h.ne_nan
    | float y =>
      cases heq
      rfl

/-- Numbers are canonical where they are of one meaning. -/
theorem readsAs_of_canonical_eq (h : ReadsAs v n) (heq : w.canonical = n.value) : ReadsAs w n := by
  have hnumber {m : Number} (hm : ReadsAs w m) : ReadsAs w n := by
    rw [hm.canonical_eq] at heq
    exact hm.eq_of_value_eq h heq ▸ hm
  cases w with
  | int j => exact hnumber (.int j)
  | float y => exact hnumber (exists_readsAs_float y).choose_spec
  | _ =>
    rw [canonical] at heq
    cases n <;> cases heq

end

/-! ## Canonical values -/

section
variable {v w : Value}

theorem canonical_seq (items : List Value) : (seq items).canonical = seq (items.map canonical) := by
  rw [canonical, canonicalItems_eq_map]

theorem canonical_map (entries : Entries Value) :
    (map entries).canonical = map (Entries.sorted (entries.map fun e => (e.1, e.2.canonical))) := by
  rw [canonical, canonicalEntries_eq_map]

theorem Equivalent.canonical_eq (h : Equivalent v w) (hv : v.Proper) (hw : w.Proper) :
    v.canonical = w.canonical := by
  induction h with
  | null => rfl
  | bool b => rfl
  | str s => rfl
  | number hn hm => rw [hn.canonical_eq, hm.canonical_eq]
  | @seq items others hlength _ ih =>
    rw [canonical_seq, canonical_seq, seq.injEq]
    refine List.ext_getElem (by simpa using hlength) fun i hi hi' => ?_
    rw [List.getElem_map, List.getElem_map]
    rw [List.length_map] at hi hi'
    exact ih i _ _ (List.getElem?_eq_getElem hi) (List.getElem?_eq_getElem hi') (hv.item (List.getElem_mem hi))
      (hw.item (List.getElem_mem hi'))
  | @map entries others hkeys _ ih =>
    have hnodup {es : Entries Value} (hes : (Value.map es).Proper) :
        ((Entries.sorted (es.map fun e => (e.1, e.2.canonical))).map (·.1)).Nodup := by
      refine ((Entries.sorted_perm _).map _).nodup_iff.2 ?_
      rw [List.map_map]
      exact hes.fits.2.1
    rw [canonical_map, canonical_map, map.injEq]
    refine Entries.eq_of_mem_iff (hnodup hv) (hnodup hw) (Entries.sorted_pairwise _) (Entries.sorted_pairwise _)
      fun e => ?_
    rw [(Entries.sorted_perm _).mem_iff, (Entries.sorted_perm _).mem_iff, List.mem_map, List.mem_map]
    constructor
    · rintro ⟨⟨key, v⟩, hm, rfl⟩
      obtain ⟨⟨_, w⟩, hm', rfl⟩ := List.mem_map.1 ((hkeys key).1 (List.mem_map.2 ⟨_, hm, rfl⟩))
      exact ⟨_, hm', by rw [ih _ v w hm hm' (hv.entry hm) (hw.entry hm')]⟩
    · rintro ⟨⟨key, w⟩, hm', rfl⟩
      obtain ⟨⟨_, v⟩, hm, rfl⟩ := List.mem_map.1 ((hkeys key).2 (List.mem_map.2 ⟨_, hm', rfl⟩))
      exact ⟨_, hm, by rw [ih _ v w hm hm' (hv.entry hm) (hw.entry hm')]⟩

/-- Values that are no numbers keep their kind. -/
theorem equivalent_of_kind (h : v.canonical = w.canonical) (hsame : v.kind = w.kind → Equivalent v w) :
    Equivalent v w := by
  by_cases hv : ∃ n, ReadsAs v n
  · obtain ⟨n, hn⟩ := hv
    exact .number hn (readsAs_of_canonical_eq hn (h.symm.trans hn.canonical_eq))
  by_cases hw : ∃ n, ReadsAs w n
  · obtain ⟨n, hn⟩ := hw
    exact .number (readsAs_of_canonical_eq hn (h.trans hn.canonical_eq)) hn
  -- only a float may become a value of another kind
  have hkind {u : Value} (hu : ¬ ∃ n, ReadsAs u n) : u.canonical.kind = u.kind := by
    cases u with
    | float x => exact absurd (exists_readsAs_float x) hu
    | _ => rfl
  exact hsame (by rw [← hkind hv, h, hkind hw])

/-- Canonical values of different meanings differ. -/
theorem equivalent_of_canonical_eq (hv : v.Proper) (hw : w.Proper) (h : v.canonical = w.canonical) :
    Equivalent v w := by
  induction v using Value.induction generalizing w with
  | seq items ih =>
    refine equivalent_of_kind h fun hkind => ?_
    cases w with
    | seq others =>
      rw [canonical_seq, canonical_seq, seq.injEq] at h
      have hlength := congrArg List.length h
      rw [List.length_map, List.length_map] at hlength
      refine .seq hlength fun i v w hi hi' => ?_
      have heq : (items.map canonical)[i]? = (others.map canonical)[i]? := by rw [h]
      rw [List.getElem?_map, List.getElem?_map, hi, hi'] at heq
      have hm := List.mem_of_getElem? hi
      exact ih v hm (hv.item hm) (hw.item (List.mem_of_getElem? hi')) (Option.some.inj heq)
    | _ => simp [kind] at hkind
  | map entries ih =>
    refine equivalent_of_kind h fun hkind => ?_
    cases w with
    | map others =>
      rw [canonical_map, canonical_map, map.injEq] at h
      have hp : (entries.map fun e => (e.1, e.2.canonical)).Perm (others.map fun e => (e.1, e.2.canonical)) :=
        (Entries.sorted_perm _).symm.trans (h ▸ Entries.sorted_perm _)
      refine .map (fun key => ?_) fun key v w hm hm' => ?_
      · have hkeys := (hp.map Prod.fst).mem_iff (a := key)
        rwa [List.map_map, List.map_map] at hkeys
      · -- keys are distinct, so the entry that has the canonical value is the entry of the key
        obtain ⟨⟨_, w'⟩, hw', heq⟩ := List.mem_map.1 (hp.mem_iff.1 (List.mem_map.2 ⟨_, hm, rfl⟩))
        obtain ⟨rfl, heq⟩ := Prod.mk.inj heq
        obtain rfl := eq_of_key_eq hw.fits.2.1 hw' hm'
        exact ih _ hm (hv.entry hm) (hw.entry hm') heq.symm
    | _ => simp [kind] at hkind
  | int i => exact .number (.int i) (readsAs_of_canonical_eq (.int i) h.symm)
  | float x =>
    obtain ⟨n, hn⟩ := exists_readsAs_float x
    exact .number hn (readsAs_of_canonical_eq hn (h.symm.trans hn.canonical_eq))
  | null =>
    refine equivalent_of_kind h fun hkind => ?_
    cases w with
    | null => exact .null
    | _ => simp [kind] at hkind
  | bool b =>
    refine equivalent_of_kind h fun hkind => ?_
    cases w with
    | bool b' =>
      cases h
      exact .bool b
    | _ => simp [kind] at hkind
  | str s =>
    refine equivalent_of_kind h fun hkind => ?_
    cases w with
    | str s' =>
      cases h
      exact .str s
    | _ => simp [kind] at hkind

/-- Canonical values are equal just where the values mean the same. -/
theorem canonical_eq_iff (hv : v.Proper) (hw : w.Proper) : v.canonical = w.canonical ↔ Equivalent v w :=
  ⟨equivalent_of_canonical_eq hv hw, fun h => h.canonical_eq hv hw⟩

/-- A canonical value is its own, with the same bits in its floats. -/
theorem canonical_canonical (v : Value) : v.canonical.canonical = v.canonical := by
  induction v using Value.induction with
  | float x =>
    obtain ⟨n, hn⟩ := exists_readsAs_float x
    rw [hn.canonical_eq, hn.value.canonical_eq]
  | seq items ih =>
    rw [canonical_seq, canonical_seq, List.map_map, seq.injEq]
    exact List.map_congr_left ih
  | map entries ih =>
    have hsame : ((Entries.sorted (entries.map fun e => (e.1, e.2.canonical))).map
        fun e => (e.1, e.2.canonical)) = Entries.sorted (entries.map fun e => (e.1, e.2.canonical)) := by
      refine (List.map_congr_left fun e he => ?_).trans (List.map_id _)
      obtain ⟨f, hf, rfl⟩ := List.mem_map.1 ((Entries.sorted_perm _).mem_iff.1 he)
      exact congrArg (f.1, ·) (ih f hf)
    rw [canonical_map, canonical_map, hsame, Entries.sorted_sorted]
  | _ => rfl

theorem Proper.canonical (h : v.Proper) : v.canonical.Proper := by
  induction v using Value.induction with
  | float x =>
    obtain ⟨n, hn⟩ := exists_readsAs_float x
    rw [hn.canonical_eq]
    cases n <;> exact List.forall_mem_singleton.2 trivial
  | seq items ih =>
    rw [canonical_seq]
    refine proper_seq (by rw [Fits, List.length_map]; exact h.fits) fun u hu => ?_
    obtain ⟨v, hv, rfl⟩ := List.mem_map.1 hu
    exact ih v hv (h.item hv)
  | map entries ih =>
    have hp := Entries.sorted_perm (entries.map fun e => (e.1, e.2.canonical))
    have hkeys := hp.map Prod.fst
    rw [List.map_map] at hkeys
    have hmem {e : String × Value} (he : e ∈ Entries.sorted (entries.map fun e => (e.1, e.2.canonical))) :
        ∃ f ∈ entries, (f.1, f.2.canonical) = e := List.mem_map.1 (hp.mem_iff.1 he)
    rw [canonical_map]
    refine proper_map ⟨?_, hkeys.nodup_iff.2 h.fits.2.1, fun e he => ?_⟩ fun e he => ?_
    · rw [hp.length_eq, List.length_map]
      exact h.fits.1
    · obtain ⟨f, hf, rfl⟩ := hmem he
      exact h.fits.2.2 f hf
    · obtain ⟨f, hf, rfl⟩ := hmem he
      exact ih f hf (h.entry hf)
  | _ => exact h

end

end Value

/-! ## Parameters -/

namespace Params

open Value

section
variable {p : Params} {sets : List (String × Value)}

theorem Ordered.setAll (h : p.Ordered) (sets : List (String × Value)) : (p.setAll sets).Ordered := by
  induction sets generalizing p with
  | nil => exact h
  | cons e sets ih => exact ih (h.set e.1 e.2)

/-- What is set last under a name counts. -/
theorem get?_setAll (h : p.Ordered) (sets : List (String × Value)) (name : String) :
    (p.setAll sets).get? name = ((List.lookup name sets.reverse).map canonical).or (p.get? name) := by
  induction sets generalizing p with
  | nil => rfl
  | cons e sets ih =>
    obtain ⟨key, v⟩ := e
    rw [Params.setAll, List.foldl_cons, ← Params.setAll, ih (h.set key v), List.reverse_cons, List.lookup_append,
      List.lookup_cons]
    by_cases hname : name = key
    · subst hname
      rw [h.get?_set_self, BEq.rfl]
      cases List.lookup name sets.reverse <;> rfl
    · rw [h.get?_set_of_ne hname, beq_eq_false_iff_ne.2 hname]
      cases List.lookup name sets.reverse <;> rfl

theorem get?_setAll_empty (sets : List (String × Value)) (name : String) :
    (setAll .empty sets).get? name = (List.lookup name sets.reverse).map canonical := by
  rw [get?_setAll Made.empty.ordered]
  exact Option.or_none

/-- Parameters are known from what is set last under each name. -/
theorem setAll_congr {others : List (String × Value)}
    (h : ∀ name, List.lookup name sets.reverse = List.lookup name others.reverse) :
    setAll .empty sets = setAll .empty others := by
  refine (Made.empty.ordered.setAll sets).ext (Made.empty.ordered.setAll others) fun name => ?_
  rw [get?_setAll_empty, get?_setAll_empty, h]

theorem lookup_reverse {entries : Entries Value} (hn : (entries.map (·.1)).Nodup) (name : String) :
    List.lookup name entries.reverse = List.lookup name entries :=
  (Entries.lookup_perm hn entries.reverse_perm.symm name).symm

/-- The parameters of a map are those of the canonical map. -/
theorem map_entries_setAll {entries : Entries Value} (hn : (entries.map (·.1)).Nodup) :
    Value.map (setAll .empty entries).entries = (Value.map entries).canonical := by
  have hn' : ((entries.map fun e => (e.1, e.2.canonical)).map (·.1)).Nodup := by rwa [List.map_map]
  have hp := Entries.sorted_perm (entries.map fun e => (e.1, e.2.canonical))
  have hordered : Ordered ⟨Entries.sorted (entries.map fun e => (e.1, e.2.canonical))⟩ :=
    ⟨(hp.map _).nodup_iff.2 hn', Entries.sorted_pairwise _⟩
  rw [canonical_map, (Made.empty.ordered.setAll entries).ext hordered fun name => ?_]
  rw [get?_setAll_empty, lookup_reverse hn, get?, Entries.get?, ← Entries.lookup_perm hn' hp.symm,
    Entries.lookup_map_snd]

/-- Parameters that are made once more are the same. -/
theorem setAll_entries (sets : List (String × Value)) :
    setAll .empty (setAll .empty sets).entries = setAll .empty sets := by
  have hordered := Made.empty.ordered.setAll sets
  refine (Made.empty.ordered.setAll _).ext hordered fun name => ?_
  have hget : List.lookup name (setAll .empty sets).entries = (setAll .empty sets).get? name := rfl
  rw [get?_setAll_empty, lookup_reverse hordered.nodup, hget, get?_setAll_empty, Option.map_map]
  congr 1
  exact funext canonical_canonical

/-! ### Digests -/

theorem Proper.of_map {entries : Entries Value} (h : (Value.map entries).Proper) : (setAll .empty entries).Proper := by
  have hcanonical := h.canonical
  rw [← map_entries_setAll h.fits.2.1] at hcanonical
  exact ⟨hcanonical.fits.1, hcanonical.fits.2.2, fun e he => hcanonical.entry he⟩

/-- The bytes that are hashed for parameters. -/
def hashes (p : Params) : List UInt8 → Prop := fun bytes =>
  p.encoded = bytes ∨ ∃ e ∈ p.entries, e.2.hashes .disabled bytes

theorem hashed_hashes (p : Params) : p.Hashed p.hashes :=
  ⟨.inl rfl, fun e he u hu => .inr ⟨e, he, u, hu, rfl⟩⟩

theorem Hashed.mono {B B' : List UInt8 → Prop} (h : p.Hashed B) (hB : ∀ bytes, B bytes → B' bytes) : p.Hashed B' :=
  ⟨hB _ h.self, fun e he u hu => hB _ (h.values e he u hu)⟩

/--
Maps of one meaning make parameters of one digest, and maps of different meanings do not, without collisions
among what is hashed. What is canonical stays as it is, and parameters that are set one after another are those of
the map of the last assignments.
-/
theorem normal_form {entries others : Entries Value} (h : (Value.map entries).Proper)
    (h' : (Value.map others).Proper) :
    (∃ p p', ofValue (.map entries) = .ok p ∧ ofValue (.map others) = .ok p' ∧
      (Equivalent (.map entries) (.map others) → p.digest = p'.digest) ∧
      (p.digest = p'.digest → Equivalent (.map entries) (.map others) ∨
        Digest.Collides fun bytes => p.hashes bytes ∨ p'.hashes bytes)) ∧
    (∀ v : Value, v.canonical.canonical = v.canonical) ∧
    (∀ v p, ofValue v = .ok p → ofValue (.map p.entries) = .ok p) ∧
    ∀ sets last : Entries Value, (last.map (·.1)).Nodup →
      (∀ name, List.lookup name last = List.lookup name sets.reverse) →
      ofValue (.map last) = .ok (setAll .empty sets) := by
  refine ⟨⟨_, _, ofValue_map entries, ofValue_map others, fun hsame => ?_, fun hdigest => ?_⟩,
    canonical_canonical, fun v p hp => ?_, fun sets last hn hlast => ?_⟩
  · have hcanonical := hsame.canonical_eq h h'
    rw [← map_entries_setAll h.fits.2.1, ← map_entries_setAll h'.fits.2.1, Value.map.injEq] at hcanonical
    simp only [digest, fields, size, hcanonical]
  · refine Classical.or_iff_not_imp_right.2 fun hB => ?_
    have heq := eq_of_digest_eq hB (Made.empty.setAll entries) (Made.empty.setAll others) (.of_map h) (.of_map h')
      ((hashed_hashes _).mono fun _ => .inl) ((hashed_hashes _).mono fun _ => .inr) hdigest
    refine equivalent_of_canonical_eq h h' ?_
    rw [← map_entries_setAll h.fits.2.1, heq, map_entries_setAll h'.fits.2.1]
  · cases v with
    | null =>
      cases hp
      rfl
    | map es =>
      rw [ofValue_map] at hp
      cases hp
      rw [ofValue_map, setAll_entries]
    | _ => cases hp
  · rw [ofValue_map]
    refine congrArg _ (setAll_congr fun name => ?_)
    rw [lookup_reverse hn, hlast]

end

/-- A whole float and a negative zero below unordered keys, and an unusual NaN. -/
def written : Entries Value :=
  [("x", .map [("b", .float ⟨0x3ff0000000000000⟩), ("a", .float ⟨0x8000000000000000⟩)]),
    ("n", .float ⟨0x7ff0000000000001⟩)]

/-- What stands for the same, with an ordered map. -/
def rewritten : Entries Value := [("n", .float .nan), ("x", .map [("a", .int 0), ("b", .int 1)])]

theorem proper_written : (Value.map written).Proper := by
  intro u hu
  simp only [Value.parts, written, Value.entryParts, List.append_nil, List.nil_append, List.cons_append,
    List.mem_cons, List.not_mem_nil, or_false] at hu
  rcases hu with rfl | rfl | rfl | rfl | rfl
  · exact ⟨by decide, by decide, by decide⟩
  · exact ⟨by decide, by decide, by decide⟩
  all_goals trivial

theorem proper_rewritten : (Value.map rewritten).Proper := by
  intro u hu
  simp only [Value.parts, rewritten, Value.entryParts, List.append_nil, List.nil_append, List.cons_append,
    List.mem_cons, List.not_mem_nil, or_false] at hu
  rcases hu with rfl | rfl | rfl | rfl | rfl
  · exact ⟨by decide, by decide, by decide⟩
  · trivial
  · exact ⟨by decide, by decide, by decide⟩
  all_goals trivial

theorem equivalent_written : Equivalent (.map written) (.map rewritten) := by
  have hone : ReadsAs (.float ⟨0x3ff0000000000000⟩) (.int 1) := .whole ⟨by decide, by decide +kernel⟩
  have hzero : ReadsAs (.float ⟨0x8000000000000000⟩) (.int 0) := .whole (Binary64.denotes_zero_of_isZero (by decide))
  have hinner : Equivalent (.map [("b", .float ⟨0x3ff0000000000000⟩), ("a", .float ⟨0x8000000000000000⟩)])
      (.map [("a", .int 0), ("b", .int 1)]) := by
    refine .map (fun key => by simp [or_comm]) fun key v w hv hw => ?_
    simp only [List.mem_cons, List.not_mem_nil, or_false, Prod.mk.injEq] at hv hw
    rcases hv with ⟨rfl, rfl⟩ | ⟨rfl, rfl⟩
    · obtain rfl : w = .int 1 := by simpa using hw
      exact .number hone (.int 1)
    · obtain rfl : w = .int 0 := by simpa using hw
      exact .number hzero (.int 0)
  refine .map (fun key => by simp [written, rewritten, or_comm]) fun key v w hv hw => ?_
  simp only [written, rewritten, List.mem_cons, List.not_mem_nil, or_false, Prod.mk.injEq] at hv hw
  rcases hv with ⟨rfl, rfl⟩ | ⟨rfl, rfl⟩
  · obtain rfl : w = .map [("a", .int 0), ("b", .int 1)] := by simpa using hw
    exact hinner
  · obtain rfl : w = .float .nan := by simpa using hw
    exact .number (.nan (by decide)) (.nan (by decide))

/-- One digest for both spellings, also where a parameter was set before. -/
theorem normal_form_rewritten :
    (setAll .empty written).digest = (setAll .empty rewritten).digest ∧
    setAll .empty (("n", .null) :: written) = setAll .empty written := by
  obtain ⟨⟨p, p', hp, hp', hdigest, -⟩, -, -, hlast⟩ := normal_form proper_written proper_rewritten
  rw [ofValue_map] at hp hp'
  cases hp
  cases hp'
  refine ⟨hdigest equivalent_written, ?_⟩
  have hset := hlast (("n", .null) :: written) written (by decide) fun name => ?_
  · rw [ofValue_map] at hset
    exact (Except.ok.inj hset).symm
  · rw [List.reverse_cons, List.lookup_append, lookup_reverse (by decide), List.lookup_cons]
    by_cases hname : name = "n"
    · subst hname
      rfl
    · rw [beq_eq_false_iff_ne.2 hname]
      exact Option.or_none.symm

end Params

end ConfigCompiler
