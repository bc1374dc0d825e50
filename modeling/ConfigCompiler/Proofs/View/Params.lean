import ConfigCompiler.Proofs.Binary64.Range
import ConfigCompiler.Proofs.Value.Same
import ConfigCompiler.Proofs.View.Materialize

/-!
# What a digest tells about parameters

Parameters are made by setting one after another (`Params.Made`). In whatever order that is done
(`Params.setAll_perm`), they end up in the order of their names, and all values in one spelling
(`Value.tidy_canonical`). So, without collisions, parameters of one digest are equal
(`Params.eq_of_digest_eq`).
-/

namespace ConfigCompiler

/-! ## Values in one spelling -/

namespace Value

/-- At the top level, a float has its one spelling, and the entries of a map are in order. -/
def Tidy : Value → Prop
  | float x => x.normalize = x
  | map entries => entries.Pairwise fun e f => e.1 ≤ f.1
  | _ => True

theorem canonicalItems_eq_map (items : List Value) : canonicalItems items = items.map canonical := by
  induction items with
  | nil => rw [canonicalItems, List.map_nil]
  | cons v items ih => rw [canonicalItems, ih, List.map_cons]

theorem canonicalEntries_eq_map (entries : Entries Value) :
    canonicalEntries entries = entries.map fun e => (e.1, e.2.canonical) := by
  induction entries with
  | nil => rw [canonicalEntries, List.map_nil]
  | cons e entries ih => rw [canonicalEntries, ih, List.map_cons]

theorem canonicalFloat_cases (x : Binary64) :
    (∃ i, canonicalFloat x = int i) ∨ canonicalFloat x = float x.normalize := by
  unfold canonicalFloat
  split
  · split
    · exact .inl ⟨_, rfl⟩
    · exact .inr rfl
  · exact .inr rfl

/-- All that is inside a canonical value is in one spelling. -/
theorem tidy_canonical (v : Value) : ∀ u ∈ v.canonical.parts, u.Tidy := by
  induction v using Value.induction with
  | float x =>
    intro u hu
    rw [canonical] at hu
    rcases canonicalFloat_cases x with ⟨i, hi⟩ | hx
    · rw [hi, parts] at hu
      obtain rfl := List.mem_singleton.1 hu
      trivial
    · rw [hx, parts] at hu
      obtain rfl := List.mem_singleton.1 hu
      exact Binary64.normalize_normalize x
  | seq items ih =>
    intro u hu
    rw [canonical, canonicalItems_eq_map, parts, itemParts_eq_flatMap] at hu
    rcases List.mem_cons.1 hu with rfl | hu
    · trivial
    · obtain ⟨_, hm, hu⟩ := List.mem_flatMap.1 hu
      obtain ⟨v, hv, rfl⟩ := List.mem_map.1 hm
      exact ih v hv u hu
  | map entries ih =>
    intro u hu
    rw [canonical, canonicalEntries_eq_map, parts, entryParts_eq_flatMap] at hu
    rcases List.mem_cons.1 hu with rfl | hu
    · exact Entries.sorted_pairwise _
    · obtain ⟨_, hm, hu⟩ := List.mem_flatMap.1 hu
      obtain ⟨e, he, rfl⟩ := List.mem_map.1 ((Entries.sorted_perm _).mem_iff.1 hm)
      exact ih e he u hu
  | _ =>
    intro u hu
    rw [canonical, parts] at hu
    obtain rfl := List.mem_singleton.1 hu
    trivial

theorem eq_of_forall₂ {items others : List Value} (h : List.Forall₂ (Same .disabled) items others)
    (heq : ∀ v ∈ items, ∀ w ∈ others, Same .disabled v w → v = w) : items = others := by
  induction h with
  | nil => rfl
  | @cons v w items others hvw _ ih =>
    rw [heq v List.mem_cons_self w List.mem_cons_self hvw,
      ih fun v hv w hw => heq v (List.mem_cons_of_mem _ hv) w (List.mem_cons_of_mem _ hw)]

/-- The same values in one spelling are equal. -/
theorem Same.eq {v w : Value} (h : Same .disabled v w) (hp : v.Proper) (hv : ∀ u ∈ v.parts, u.Tidy)
    (hw : ∀ u ∈ w.parts, u.Tidy) : v = w := by
  induction v using Value.induction generalizing w with
  | float x =>
    cases h with | @float _ y hxy =>
    have hx : x.normalize = x := hv _ (self_mem_parts _)
    have hy : y.normalize = y := hw _ (self_mem_parts _)
    rw [← hx, ← hy, hxy.2 rfl]
  | seq items ih =>
    cases h with | @seq _ others hitems =>
    rw [eq_of_forall₂ hitems fun v hvm w hwm hvw => ih v hvm hvw (hp.item hvm)
      (fun u hu => hv u (parts_subset_seq hvm hu)) fun u hu => hw u (parts_subset_seq hwm hu)]
  | map entries ih =>
    cases h with | @map _ ordered others hperm hkeys hvalues =>
    have hsame : ordered.map (·.2) = others.map (·.2) := by
      refine eq_of_forall₂ hvalues fun v hvm w hwm hvw => ?_
      obtain ⟨e, he, rfl⟩ := List.mem_map.1 hvm
      obtain ⟨f, hf, rfl⟩ := List.mem_map.1 hwm
      have he := hperm.mem_iff.2 he
      exact ih e he hvw (hp.entry he) (fun u hu => hv u (parts_subset_map he hu))
        fun u hu => hw u (parts_subset_map hf hu)
    obtain rfl : ordered = others := (List.zip_of_prod hkeys hsame).trans (List.zip_of_prod rfl rfl).symm
    rw [Entries.eq_of_perm hp.fits.2.1 (hv _ (self_mem_parts _)) (hw _ (self_mem_parts _)) hperm]
  | _ => cases h; rfl

end Value

/-! ## Parameters -/

namespace Params

/-- Parameters that are made by setting one after another. -/
inductive Made : Params → Prop
  | empty : Made .empty
  | set {p : Params} (name : String) (v : Value) : Made p → Made (p.set name v)

/-- Sets parameters one after another. -/
def setAll (p : Params) (sets : List (String × Value)) : Params := sets.foldl (fun p e => p.set e.1 e.2) p

/-- Parameters of a map are set in the order of its entries. -/
theorem ofValue_map (entries : Entries Value) : ofValue (.map entries) = .ok (setAll .empty entries) := rfl

section
variable {p p' : Params}

theorem Made.setAll (h : p.Made) (sets : List (String × Value)) : (p.setAll sets).Made := by
  induction sets generalizing p with
  | nil => exact h
  | cons e sets ih => exact ih (h.set e.1 e.2)

/-- All parameters that come from a value are made so. -/
theorem made_of_ofValue {v : Value} (h : ofValue v = .ok p) : p.Made := by
  cases v with
  | null => cases h; exact .empty
  | map entries =>
    rw [ofValue_map] at h
    cases h
    exact Made.empty.setAll entries
  | _ => cases h

/-! ### The order of names -/

/-- Each name once, in ascending order. -/
structure Ordered (p : Params) : Prop where
  nodup : (p.entries.map (·.1)).Nodup
  sorted : p.entries.Pairwise fun e f => e.1 ≤ f.1

theorem Ordered.set (h : p.Ordered) (name : String) (v : Value) : (p.set name v).Ordered where
  nodup := ((Entries.sorted_perm _).map _).nodup_iff.2 (Entries.nodup_insert h.nodup name _)
  sorted := Entries.sorted_pairwise _

theorem Made.ordered (h : p.Made) : p.Ordered := by
  induction h with
  | empty => exact ⟨List.nodup_nil, .nil⟩
  | set name v _ ih => exact ih.set name v

theorem Ordered.get?_set_self (h : p.Ordered) (name : String) (v : Value) :
    (p.set name v).get? name = some v.canonical := by
  have hn := Entries.nodup_insert h.nodup name v.canonical
  rw [Params.get?, Entries.get?, Params.set, ← Entries.lookup_perm hn (Entries.sorted_perm _).symm,
    Entries.lookup_insert_self h.nodup]

theorem Ordered.get?_set_of_ne (h : p.Ordered) {name other : String} (hne : name ≠ other) (v : Value) :
    (p.set other v).get? name = p.get? name := by
  have hn := Entries.nodup_insert h.nodup other v.canonical
  rw [Params.get?, Entries.get?, Params.set, ← Entries.lookup_perm hn (Entries.sorted_perm _).symm,
    Entries.lookup_insert_of_ne hne]
  rfl

theorem Ordered.ext (h : p.Ordered) (h' : p'.Ordered) (hg : ∀ name, p.get? name = p'.get? name) : p = p' := by
  cases p
  cases p'
  exact congrArg Params.mk (Entries.eq_of_lookup_eq h.nodup h'.nodup h.sorted h'.sorted hg)

theorem Ordered.set_comm (h : p.Ordered) {a b : String} (hne : a ≠ b) (v w : Value) :
    (p.set a v).set b w = (p.set b w).set a v := by
  refine ((h.set a v).set b w).ext ((h.set b w).set a v) fun name => ?_
  by_cases ha : name = a
  · subst ha
    rw [(h.set _ v).get?_set_of_ne hne, h.get?_set_self, (h.set b w).get?_set_self]
  · rw [(h.set b w).get?_set_of_ne ha]
    by_cases hb : name = b
    · subst hb
      rw [(h.set a v).get?_set_self, h.get?_set_self]
    · rw [(h.set a v).get?_set_of_ne hb, h.get?_set_of_ne ha, h.get?_set_of_ne hb]

/-- Different names may be set in any order. -/
theorem Ordered.setAll_perm (h : p.Ordered) {sets sets' : List (String × Value)}
    (hn : (sets.map (·.1)).Nodup) (hp : sets.Perm sets') : p.setAll sets = p.setAll sets' := by
  induction hp generalizing p with
  | nil => rfl
  | cons e _ ih => exact ih (h.set e.1 e.2) (List.nodup_cons.1 hn).2
  | swap e f sets =>
    have hne : f.1 ≠ e.1 := fun he => (List.nodup_cons.1 hn).1 (List.mem_cons.2 (.inl he))
    exact congrArg (Params.setAll · sets) (h.set_comm hne f.2 e.2)
  | trans hp _ ih ih' => exact (ih h hn).trans (ih' h ((hp.map _).nodup_iff.1 hn))

/-! ### Digests -/

theorem Made.tidy (h : p.Made) : ∀ e ∈ p.entries, ∀ u ∈ e.2.parts, u.Tidy := by
  induction h with
  | empty =>
    intro e he
    cases he
  | @set p name v _ ih =>
    intro e he
    have he := (Entries.sorted_perm _).mem_iff.1 he
    by_cases hm : name ∈ p.entries.map (·.1)
    · rw [Entries.insert_of_mem hm] at he
      obtain ⟨f, hf, rfl⟩ := List.mem_map.1 he
      dsimp only
      split
      · exact Value.tidy_canonical v
      · exact ih f hf
    · rw [Entries.insert_of_not_mem hm] at he
      rcases List.mem_append.1 he with he | he
      · exact ih e he
      · rw [List.mem_singleton.1 he]
        exact Value.tidy_canonical v

/-- Without collisions, parameters of one digest are equal. -/
theorem eq_of_digest_eq {B : List UInt8 → Prop} (hB : ¬ Digest.Collides B) (hm : p.Made) (hm' : p'.Made)
    (hp : p.Proper) (hp' : p'.Proper) (hh : p.Hashed B) (hh' : p'.Hashed B) (h : p.digest = p'.digest) :
    p = p' := by
  have hentries := entries_of_digest_eq hB hp hp' hh hh' h
  suffices he : p.entries = p'.entries by
    cases p
    cases p'
    exact congrArg mk he
  refine Store.eq_of_map_eq hentries fun e he f hf hef => ?_
  obtain ⟨hname, hdigest⟩ := Prod.mk.inj hef
  have hsame := Value.same_of_digest_eq hB (hp.values e he) (hp'.values f hf) (hh.values e he)
    (hh'.values f hf) hdigest
  exact Prod.ext hname (hsame.eq (hp.values e he) (hm.tidy e he) (hm'.tidy f hf))

end

end Params

end ConfigCompiler
