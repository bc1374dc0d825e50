import ConfigCompiler.Proofs.Hierarchy.Build
import ConfigCompiler.Proofs.Value.Digest

/-!
# What a digest tells about a hierarchy

The digest of a hierarchy covers the nodes with children. Without collisions, two hierarchies of one digest
have the same children everywhere (`kids_eq_of_digest_eq`), and then the same nodes stand below each node
(`visit_congr`). They may differ in which nodes without children they know. Conversely, nothing else counts
for the digest (`digest_eq_of_kids_eq`).
-/

namespace ConfigCompiler.Hierarchy

/-- No node is listed twice, and all lengths fit into a word. -/
structure Proper (h : Hierarchy) : Prop where
  nodup : (h.nodes.map (·.1)).Nodup
  length_lt : h.nodes.length < 2 ^ 64
  sized : ∀ e ∈ h.nodes, e.1.utf8ByteSize < 2 ^ 64 ∧ e.2.length < 2 ^ 64 ∧
    ∀ kid ∈ e.2, kid.utf8ByteSize < 2 ^ 64

/-! ## Hierarchies of one digest -/

theorem map_text_inj {ss ts : List String} (hs : ∀ s ∈ ss, s.utf8ByteSize < 2 ^ 64)
    (ht : ∀ t ∈ ts, t.utf8ByteSize < 2 ^ 64)
    (h : ss.map (Digest.Field.bytes ∘ .text) = ts.map (Digest.Field.bytes ∘ .text)) : ss = ts := by
  induction ss generalizing ts with
  | nil => exact (List.map_eq_nil_iff.1 h.symm).symm
  | cons s ss ih =>
    cases ts with
    | nil => cases h
    | cons t ts =>
      obtain ⟨hst, hrest⟩ := List.cons.inj h
      rw [Digest.Field.text_inj (hs _ List.mem_cons_self) (ht _ List.mem_cons_self) hst,
        ih (fun s hm => hs s (List.mem_cons_of_mem _ hm))
          (fun t hm => ht t (List.mem_cons_of_mem _ hm)) hrest]

theorem parentFields_inj {p p' : String} {kids kids' : List String} {rest rest' : List Digest.Field}
    (hp : p.utf8ByteSize < 2 ^ 64) (hp' : p'.utf8ByteSize < 2 ^ 64)
    (hk : kids.length < 2 ^ 64) (hk' : kids'.length < 2 ^ 64)
    (hs : ∀ kid ∈ kids, kid.utf8ByteSize < 2 ^ 64) (hs' : ∀ kid ∈ kids', kid.utf8ByteSize < 2 ^ 64)
    (h : (parentFields p kids ++ rest).map Digest.Field.bytes =
      (parentFields p' kids' ++ rest').map Digest.Field.bytes) :
    p = p' ∧ kids = kids' ∧ rest.map Digest.Field.bytes = rest'.map Digest.Field.bytes := by
  simp only [parentFields, List.map_append, List.map_cons, List.cons_append,
    List.nil_append, List.cons.injEq, List.map_map] at h
  obtain ⟨htext, hlen, hrest⟩ := h
  have hlen := Digest.Field.seqHeader_inj hk hk' hlen
  obtain ⟨hkids, hrest⟩ := List.append_inj hrest (by simpa using hlen)
  exact ⟨Digest.Field.text_inj hp hp' htext, map_text_inj hs hs' hkids, hrest⟩

/-- Entries whose lengths fit into a word. -/
def Sized (es : Entries (List String)) : Prop :=
  ∀ e ∈ es, e.1.utf8ByteSize < 2 ^ 64 ∧ e.2.length < 2 ^ 64 ∧
    ∀ kid ∈ e.2, kid.utf8ByteSize < 2 ^ 64

/-- All lengths fit into a word. -/
structure Fits (h : Hierarchy) : Prop where
  length : h.nodes.length < 2 ^ 64
  sized : Sized h.nodes

theorem flatMap_parentFields_inj {es fs : Entries (List String)} (he : Sized es) (hf : Sized fs)
    (h : (es.flatMap fun e => parentFields e.1 e.2).map Digest.Field.bytes =
      (fs.flatMap fun f => parentFields f.1 f.2).map Digest.Field.bytes) : es = fs := by
  refine Digest.flatMap_fields_inj (fun _ => by simp [parentFields]) ?_ he hf h
  rintro e f rest rest' ⟨he₁, he₂, he₃⟩ ⟨hf₁, hf₂, hf₃⟩ hb
  obtain ⟨hname, hkids, hrest⟩ := parentFields_inj he₁ hf₁ he₂ hf₂ he₃ hf₃ hb
  exact ⟨Prod.ext hname hkids, hrest⟩

section
variable {h h' : Hierarchy}

theorem parents_perm (h : Hierarchy) : h.parents.Perm (h.nodes.filter fun e => !e.2.isEmpty) :=
  List.mergeSort_perm _ _

theorem Proper.parents (hp : h.Proper) : Sized h.parents := fun e he =>
  hp.sized e (List.mem_filter.1 ((parents_perm h).mem_iff.1 he)).1

theorem Proper.fields (hp : h.Proper) : ∀ f ∈ h.fields, f.Sized := by
  intro f hf
  rcases List.mem_cons.1 hf with rfl | hf
  · have hle := List.length_filter_le (fun e : String × List String => !e.2.isEmpty) h.nodes
    have hlt := hp.length_lt
    rw [Digest.Field.Sized, (parents_perm h).length_eq]
    omega
  · obtain ⟨e, he, hf⟩ := List.mem_flatMap.1 hf
    obtain ⟨h₁, h₂, h₃⟩ := hp.parents e he
    simp only [parentFields, List.mem_append, List.mem_cons, List.not_mem_nil, or_false,
      List.mem_map] at hf
    rcases hf with (rfl | rfl) | ⟨kid, hkid, rfl⟩
    · exact h₁
    · exact h₂
    · exact h₃ kid hkid

/-- A node is listed with children just if it has them. -/
theorem mem_parents_iff (hn : (h.nodes.map (·.1)).Nodup) {id : String} {kids : List String} :
    (id, kids) ∈ h.parents ↔ kids ≠ [] ∧ h.kids id = kids := by
  rw [(parents_perm h).mem_iff, List.mem_filter, ← Entries.lookup_eq_some hn]
  unfold Hierarchy.kids children? Entries.get?
  cases List.lookup id h.nodes with
  | none =>
    simp only [Option.getD_none, reduceCtorEq, false_and, false_iff]
    rintro ⟨hk, rfl⟩
    exact hk rfl
  | some ks =>
    have hempty : (!kids.isEmpty) = true ↔ kids ≠ [] := by simp
    rw [hempty, Option.getD_some, Option.some.injEq, and_comm]

theorem kids_eq_of_parents_eq (hp : h.Proper) (hp' : h'.Proper) (he : h.parents = h'.parents)
    (id : String) : h.kids id = h'.kids id := by
  by_cases hk : h.kids id = []
  · by_cases hk' : h'.kids id = []
    · rw [hk, hk']
    · exact ((mem_parents_iff hp.nodup).1 (he ▸ (mem_parents_iff hp'.nodup).2 ⟨hk', rfl⟩)).2
  · exact ((mem_parents_iff hp'.nodup).1 (he ▸ (mem_parents_iff hp.nodup).2 ⟨hk, rfl⟩)).2.symm

/-- Without collisions, hierarchies of one digest have the same children everywhere. -/
theorem kids_eq_of_digest_eq {B : List UInt8 → Prop} (hB : ¬ Digest.Collides B) (hp : h.Proper)
    (hp' : h'.Proper) (hh : B (Digest.encode digestDomain h.fields))
    (hh' : B (Digest.encode digestDomain h'.fields)) (hd : h.digest = h'.digest) (id : String) :
    h.kids id = h'.kids id := by
  have hb := Digest.ofFields_inj hB hp.fields hp'.fields hh hh' hd
  exact kids_eq_of_parents_eq hp hp'
    (flatMap_parentFields_inj hp.parents hp'.parents (List.cons.inj hb).2) id

/-- Nothing but the children counts for the digest. -/
theorem digest_eq_of_kids_eq (hn : (h.nodes.map (·.1)).Nodup) (hn' : (h'.nodes.map (·.1)).Nodup)
    (hk : ∀ id, h.kids id = h'.kids id) : h.digest = h'.digest := by
  have hnodup {h : Hierarchy} (hn : (h.nodes.map (·.1)).Nodup) : (h.parents.map (·.1)).Nodup :=
    ((parents_perm h).map _).nodup_iff.2 (hn.sublist (List.filter_sublist.map _))
  have hparents : h.parents = h'.parents := by
    refine Entries.eq_of_mem_iff (hnodup hn) (hnodup hn') (Entries.sorted_pairwise _)
      (Entries.sorted_pairwise _) fun ⟨id, kids⟩ => ?_
    rw [mem_parents_iff hn, mem_parents_iff hn', hk]
  rw [digest, digest, fields, fields, hparents]

/-! ## What stands below a node -/

theorem visit_cons (h : Hierarchy) (seen stack : List String) (id : String) :
    h.visit seen (id :: stack) =
      if id ∈ seen then h.visit seen stack else h.visit (seen ++ [id]) (h.kids id ++ stack) := by
  rw [visit]
  split
  · rfl
  · unfold kids
    split <;> simp_all

/-- Walks by what is done with the first node of the stack. -/
theorem visit_induction (h : Hierarchy) {motive : List String → List String → Prop}
    (nil : ∀ seen, motive seen [])
    (skip : ∀ seen id stack, id ∈ seen → motive seen stack → motive seen (id :: stack))
    (push : ∀ seen id stack, id ∉ seen → motive (seen ++ [id]) (h.kids id ++ stack) →
      motive seen (id :: stack)) (seen stack : List String) : motive seen stack := by
  induction seen, stack using visit.induct h with
  | case1 seen => exact nil seen
  | case2 seen id stack hs ih => exact skip seen id stack hs ih
  | case3 seen id stack hs ks hc _ ih =>
    have hks : h.kids id = ks := by rw [kids, hc, Option.getD_some]
    exact push seen id stack hs (hks.symm ▸ ih)
  | case4 seen id stack hs hc _ ih =>
    have hks : h.kids id = [] := by rw [kids, hc, Option.getD_none]
    refine push seen id stack hs ?_
    rw [hks]
    exact ih

theorem visit_congr (hk : ∀ id, h.kids id = h'.kids id) (seen stack : List String) :
    h.visit seen stack = h'.visit seen stack := by
  induction seen, stack using h.visit_induction with
  | nil seen => rw [visit, visit]
  | skip seen id stack hs ih => rw [visit_cons, visit_cons, if_pos hs, if_pos hs, ih]
  | push seen id stack hs ih => rw [visit_cons, visit_cons, if_neg hs, if_neg hs, ← hk id, ih]

end

end ConfigCompiler.Hierarchy
