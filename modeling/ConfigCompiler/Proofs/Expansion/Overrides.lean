import ConfigCompiler.Expansion.Overrides
import ConfigCompiler.Proofs.Digest.Encoding
import ConfigCompiler.Proofs.Value.Entries

/-!
# What a digest tells about override rules

Rules allow just the pairs that they were declared with, in both orders (`Overrides.allows_ofPairs`). Without
collisions, two sets of rules of one digest allow the same pairs (`Overrides.allows_eq_of_digest_eq`), and
nothing else counts for the digest (`Overrides.digest_eq_of_allows_eq`).
-/

namespace ConfigCompiler.Overrides

/-! ## Pairs without order -/

theorem ordered_eq_iff {a b c d : String} :
    ordered a b = ordered c d ↔ (a = c ∧ b = d) ∨ (a = d ∧ b = c) := by
  constructor
  · intro h
    unfold ordered at h
    split at h <;> split at h <;> obtain ⟨rfl, rfl⟩ := Prod.mk.inj h <;> simp
  · rintro (⟨rfl, rfl⟩ | ⟨rfl, rfl⟩)
    · rfl
    · exact ordered_comm a b

theorem ordered_ordered (a b : String) : ordered (ordered a b).1 (ordered a b).2 = ordered a b := by
  rw [ordered_eq_iff]
  unfold ordered
  split <;> simp

/-- Rules allow the pairs that they were declared with, in both orders. -/
theorem allows_ofPairs {pairs : List (String × String)} {a b : String} :
    (ofPairs pairs).allows a b = true ↔ (a, b) ∈ pairs ∨ (b, a) ∈ pairs := by
  simp only [allows, ofPairs, List.contains_iff_mem, List.mem_eraseDups, List.mem_map, ordered_eq_iff,
    Prod.exists]
  constructor
  · rintro ⟨c, d, hm, ⟨rfl, rfl⟩ | ⟨rfl, rfl⟩⟩
    · exact .inl hm
    · exact .inr hm
  · rintro (hm | hm)
    · exact ⟨a, b, hm, .inl ⟨rfl, rfl⟩⟩
    · exact ⟨b, a, hm, .inr ⟨rfl, rfl⟩⟩

/-- Each pair is there once, with its smaller text first. -/
structure Normal (r : Overrides) : Prop where
  nodup : r.pairs.Nodup
  ordered : ∀ p ∈ r.pairs, ordered p.1 p.2 = p

theorem normal_ofPairs (pairs : List (String × String)) : (ofPairs pairs).Normal where
  nodup := nodup_eraseDups
  ordered p hp := by
    obtain ⟨⟨a, b⟩, -, rfl⟩ := List.mem_map.1 (List.mem_eraseDups.1 hp)
    exact ordered_ordered a b

section
variable {r r' : Overrides}

theorem Normal.mem_iff (h : r.Normal) {p : String × String} :
    p ∈ r.pairs ↔ r.allows p.1 p.2 = true ∧ Overrides.ordered p.1 p.2 = p := by
  rw [allows, List.contains_iff_mem]
  constructor
  · intro hp
    rw [h.ordered p hp]
    exact ⟨hp, rfl⟩
  · rintro ⟨hp, ho⟩
    rwa [ho] at hp

/-! ## The order of pairs -/

theorem pairLE_iff {p q : String × String} : pairLE p q = true ↔ p.1 < q.1 ∨ p.1 = q.1 ∧ p.2 ≤ q.2 := by
  simp [pairLE]

theorem pairLE_antisymm {p q : String × String} (hpq : pairLE p q = true) (hqp : pairLE q p = true) :
    p = q := by
  rw [pairLE_iff] at hpq hqp
  rcases hpq with hlt | ⟨he, hle⟩
  · rcases hqp with hlt' | ⟨he', -⟩
    · exact absurd (String.lt_trans hlt hlt') (String.lt_irrefl _)
    · exact absurd (he' ▸ hlt) (String.lt_irrefl _)
  · rcases hqp with hlt' | ⟨-, hle'⟩
    · exact absurd (he ▸ hlt') (String.lt_irrefl _)
    · exact Prod.ext he (String.le_antisymm hle hle')

theorem pairLE_trans (p q s : String × String) (hpq : pairLE p q = true) (hqs : pairLE q s = true) :
    pairLE p s = true := by
  rw [pairLE_iff] at hpq hqs ⊢
  rcases hpq with hlt | ⟨he, hle⟩
  · rcases hqs with hlt' | ⟨he', -⟩
    · exact .inl (String.lt_trans hlt hlt')
    · exact .inl (he' ▸ hlt)
  · rcases hqs with hlt' | ⟨he', hle'⟩
    · exact .inl (he ▸ hlt')
    · exact .inr ⟨he.trans he', String.le_trans hle hle'⟩

theorem pairLE_total (p q : String × String) : (pairLE p q || pairLE q p) = true := by
  rw [Bool.or_eq_true, pairLE_iff, pairLE_iff]
  by_cases hpq : p.1 ≤ q.1
  · by_cases hqp : q.1 ≤ p.1
    · have he := String.le_antisymm hpq hqp
      exact (String.le_total p.2 q.2).imp (fun hle => .inr ⟨he, hle⟩) fun hle => .inr ⟨he.symm, hle⟩
    · exact .inl (.inl (String.not_le.1 hqp))
  · exact .inr (.inl (String.not_le.1 hpq))

theorem sorted_pairwise (ps : List (String × String)) :
    (ps.mergeSort pairLE).Pairwise fun p q => pairLE p q = true :=
  List.pairwise_mergeSort pairLE_trans pairLE_total ps

theorem sorted_congr {ps qs : List (String × String)} (h : ps.Perm qs) :
    ps.mergeSort pairLE = qs.mergeSort pairLE :=
  List.Perm.eq_of_pairwise (fun _ _ _ _ hpq hqp => pairLE_antisymm hpq hqp) (sorted_pairwise ps)
    (sorted_pairwise qs) ((List.mergeSort_perm ps _).trans (h.trans (List.mergeSort_perm qs _).symm))

/-! ## Digests -/

/-- Nothing but what is allowed counts for the digest. -/
theorem digest_eq_of_allows_eq (h : r.Normal) (h' : r'.Normal)
    (ha : ∀ a b, r.allows a b = r'.allows a b) : r.digest = r'.digest := by
  have hperm : r.pairs.Perm r'.pairs := by
    refine (List.perm_ext_iff_of_nodup h.nodup h'.nodup).2 fun p => ?_
    rw [h.mem_iff, h'.mem_iff, ha]
  rw [digest, digest, fields, fields, hperm.length_eq, sorted_congr hperm]

/-- All lengths fit into a word. -/
structure Fits (r : Overrides) : Prop where
  length : r.pairs.length < 2 ^ 64
  sized : ∀ p ∈ r.pairs, p.1.utf8ByteSize < 2 ^ 64 ∧ p.2.utf8ByteSize < 2 ^ 64

theorem Fits.fields (h : r.Fits) : ∀ f ∈ r.fields, f.Sized := by
  intro f hf
  rcases List.mem_cons.1 hf with rfl | hf
  · exact h.length
  · obtain ⟨p, hp, hf⟩ := List.mem_flatMap.1 hf
    obtain ⟨h₁, h₂⟩ := h.sized p ((List.mergeSort_perm _ _).mem_iff.1 hp)
    simp only [List.mem_cons, List.not_mem_nil, or_false] at hf
    rcases hf with rfl | rfl
    · exact h₁
    · exact h₂

/-- Without collisions, rules of one digest allow the same pairs. -/
theorem allows_eq_of_digest_eq {B : List UInt8 → Prop} (hB : ¬ Digest.Collides B) (h : r.Fits) (h' : r'.Fits)
    (hh : B (Digest.encode "strata.overrides.v1" r.fields))
    (hh' : B (Digest.encode "strata.overrides.v1" r'.fields)) (hd : r.digest = r'.digest) (a b : String) :
    r.allows a b = r'.allows a b := by
  have hbytes := Digest.ofFields_inj hB h.fields h'.fields hh hh' hd
  have hsized {r : Overrides} (h : r.Fits) : ∀ p ∈ r.pairs.mergeSort pairLE,
      p.1.utf8ByteSize < 2 ^ 64 ∧ p.2.utf8ByteSize < 2 ^ 64 := fun p hp =>
    h.sized p ((List.mergeSort_perm _ _).mem_iff.1 hp)
  have hpairs : r.pairs.mergeSort pairLE = r'.pairs.mergeSort pairLE := by
    refine Digest.flatMap_fields_inj (fun _ => List.cons_ne_nil _ _) ?_ (hsized h) (hsized h')
      (List.cons.inj hbytes).2
    rintro p q rest rest' ⟨hp₁, hp₂⟩ ⟨hq₁, hq₂⟩ hb
    simp only [List.cons_append, List.nil_append, List.map_cons, List.cons.injEq] at hb
    obtain ⟨hfirst, hsecond, hrest⟩ := hb
    exact ⟨Prod.ext (Digest.Field.text_inj hp₁ hq₁ hfirst) (Digest.Field.text_inj hp₂ hq₂ hsecond), hrest⟩
  have hmem := (List.mergeSort_perm r.pairs pairLE).symm.trans (hpairs ▸ List.mergeSort_perm r'.pairs pairLE)
  rw [allows, allows, Bool.eq_iff_iff, List.contains_iff_mem, List.contains_iff_mem, hmem.mem_iff]

end

end ConfigCompiler.Overrides
