import Mathlib.Computability.Primrec.List
import Mathlib.Data.List.Permutation
import Mathlib.Logic.Function.Iterate
import ConfigCompiler.Proofs.Hierarchy.Acyclic

/-!
# The walk and the recursive listing

A listing of nodes gives each node followed by the listing of its children, shared nodes as often as they are
met (`Listing`). In a hierarchy without cycles each list of nodes has just one. The walk, which passes over
what it has seen, finds the first occurrences of such a listing (`visit_listing`): a node that was seen before
it is met again has everything below it seen as well, since the walk cannot still be below it.
-/

namespace ConfigCompiler.Hierarchy

variable {h : Hierarchy} {id t : String} {ids l : List String}

/-! ## First occurrences -/

theorem removeAll_congr {xs ys zs : List String} (hmem : ∀ t, t ∈ xs ↔ t ∈ ys) :
    zs.removeAll xs = zs.removeAll ys :=
  List.filter_congr fun t _ => by simp [hmem]

theorem eraseDups_eq_self {xs : List String} (hn : xs.Nodup) : xs.eraseDups = xs := by
  induction xs with
  | nil => rfl
  | cons x xs ih =>
    rw [List.nodup_cons] at hn
    have hfilter : xs.filter (fun y => !y == x) = xs := by
      refine List.filter_eq_self.2 fun y hy => ?_
      have hne : y ≠ x := fun heq => hn.1 (heq ▸ hy)
      simpa using hne
    rw [List.eraseDups_cons, hfilter, ih hn.2]

theorem eraseDups_eraseDups_append (xs ys : List String) :
    (xs.eraseDups ++ ys).eraseDups = (xs ++ ys).eraseDups := by
  rw [List.eraseDups_append, List.eraseDups_append, eraseDups_eq_self nodup_eraseDups,
    removeAll_congr fun _ => List.mem_eraseDups]

theorem eraseDups_append_of_subset {xs ys zs : List String} (hsub : ys ⊆ xs) :
    (xs ++ (ys ++ zs)).eraseDups = (xs ++ zs).eraseDups := by
  have hnone : ys.removeAll xs = [] := List.filter_eq_nil_iff.2 fun t ht => by simpa using hsub ht
  rw [List.eraseDups_append, List.eraseDups_append, List.removeAll, List.filter_append, ← List.removeAll,
    hnone, List.nil_append, ← List.removeAll]

/-! ## Listings -/

/-- The nodes in their order, each followed by the listing of its children. -/
inductive Listing (h : Hierarchy) : List String → List String → Prop
  | nil : Listing h [] []
  | cons {id : String} {ids below rest : List String} : Listing h (h.kids id) below → Listing h ids rest →
      Listing h (id :: ids) (id :: (below ++ rest))

theorem Listing.unique (hl : Listing h ids l) {l' : List String} (hl' : Listing h ids l') : l = l' := by
  induction hl generalizing l' with
  | nil =>
    cases hl'
    rfl
  | cons _ _ ihbelow ihrest =>
    cases hl' with
    | cons hbelow hrest => rw [ihbelow hbelow, ihrest hrest]

theorem Listing.mem_iff (hl : Listing h ids l) :
    t ∈ l ↔ ∃ s ∈ ids, Relation.ReflTransGen h.Child s t := by
  induction hl with
  | nil => simp
  | @cons id ids below rest _ _ ihbelow ihrest =>
    rw [List.mem_cons, List.mem_append, ihbelow, ihrest, List.exists_mem_cons_iff,
      Relation.ReflTransGen.cases_head_iff, or_assoc, eq_comm]
    rfl

/-- What is listed below a node is what can be reached in one step or more. -/
theorem Listing.mem_below_iff (hl : Listing h (h.kids id) l) : t ∈ l ↔ Relation.TransGen h.Child id t := by
  rw [hl.mem_iff, Relation.TransGen.head'_iff]
  rfl

theorem exists_listing_of_forall (hall : ∀ id ∈ ids, ∃ l, Listing h (h.kids id) l) : ∃ l, Listing h ids l := by
  induction ids with
  | nil => exact ⟨[], .nil⟩
  | cons id ids ih =>
    obtain ⟨below, hbelow⟩ := hall id List.mem_cons_self
    obtain ⟨rest, hrest⟩ := ih fun id hid => hall id (List.mem_cons_of_mem _ hid)
    exact ⟨_, .cons hbelow hrest⟩

/-- Nodes are listed in the order in which they are done. -/
theorem Finished.exists_listing {done : List String} (hf : Finished h done) (hid : id ∈ done) :
    ∃ l, Listing h (h.kids id) l := by
  induction hf generalizing id with
  | nil => cases hid
  | leave _ hkids _ ih =>
    rcases List.mem_cons.1 hid with rfl | hid
    · exact exists_listing_of_forall fun kid hkid => ih (hkids kid hkid)
    · exact ih hid

/-! ## The walk -/

/-- Where a walk comes back to a node, everything below the node was seen. -/
def Complete (h : Hierarchy) (seen ids : List String) : Prop :=
  ∀ s ∈ seen, (∃ id ∈ ids, Relation.ReflTransGen h.Child id s) → ∀ t, Relation.TransGen h.Child s t → t ∈ seen

/-- The walk over nodes on the stack adds the first occurrences of their listing. -/
theorem visit_listing (ha : h.Acyclic) (hl : Listing h ids l) {seen : List String} (hn : seen.Nodup)
    (hc : Complete h seen ids) (stack : List String) :
    h.visit seen (ids ++ stack) = h.visit (seen ++ l).eraseDups stack := by
  induction hl generalizing seen stack with
  | nil => rw [List.nil_append, List.append_nil, eraseDups_eq_self hn]
  | @cons id ids below rest hbelow hrest ihbelow ihrest =>
    rw [List.cons_append, visit_cons]
    split
    · rename_i hid
      have hsub : id :: below ⊆ seen := by
        refine List.cons_subset.2 ⟨hid, fun t ht => ?_⟩
        exact hc id hid ⟨id, List.mem_cons_self, .refl⟩ t (hbelow.mem_below_iff.1 ht)
      have hc' : Complete h seen ids := fun s hs ⟨id', hid', hr⟩ =>
        hc s hs ⟨id', List.mem_cons_of_mem id hid', hr⟩
      rw [ihrest hn hc', ← List.cons_append, eraseDups_append_of_subset hsub]
    · rename_i hid
      have hn' : (seen ++ [id]).Nodup := by
        simpa [List.nodup_append, hn] using fun s hs (heq : s = id) => hid (heq ▸ hs)
      have hkids : Complete h (seen ++ [id]) (h.kids id) := by
        rintro s hs ⟨kid, hkid, hr⟩ t ht
        rcases List.mem_append.1 hs with hs | hs
        · exact List.mem_append_left _ (hc s hs ⟨id, List.mem_cons_self, .head hkid hr⟩ t ht)
        · rw [List.mem_singleton.1 hs] at hr
          exact absurd (Relation.TransGen.head' hkid hr) (ha id)
      have hothers : Complete h (seen ++ [id] ++ below).eraseDups ids := by
        rintro s hs ⟨id', hid', hr⟩ t ht
        simp only [List.mem_eraseDups, List.mem_append, List.mem_singleton] at hs ⊢
        rcases hs with (hs | rfl) | hs
        · exact .inl (.inl (hc s hs ⟨id', List.mem_cons_of_mem id hid', hr⟩ t ht))
        · exact .inr (hbelow.mem_below_iff.2 ht)
        · exact .inr (hbelow.mem_below_iff.2 ((hbelow.mem_below_iff.1 hs).trans ht))
      rw [ihbelow hn' hkids, ihrest nodup_eraseDups hothers, eraseDups_eraseDups_append]
      simp

/-- One turn of the walk: the first node of the stack is passed over or else gives way to its children. -/
def turn (h : Hierarchy) : List String × List String → List String × List String
  | (seen, []) => (seen, [])
  | (seen, id :: stack) => if id ∈ seen then (seen, stack) else (seen ++ [id], h.kids id ++ stack)

/-- The walk ends after one turn for each node on the stack and for each child of a node that it adds. -/
theorem turns_visit (h : Hierarchy) (seen stack : List String) : ∃ found,
    h.visit seen stack = seen ++ found ∧
      h.turn^[stack.length + (found.map fun id => (h.kids id).length).sum] (seen, stack) =
        (h.visit seen stack, []) := by
  induction seen, stack using h.visit_induction with
  | nil seen => exact ⟨[], by rw [visit, List.append_nil], by rw [visit]; rfl⟩
  | skip seen id stack hs ih =>
    obtain ⟨found, hvisit, hturns⟩ := ih
    refine ⟨found, ?_, ?_⟩
    · rw [visit_cons, if_pos hs, hvisit]
    · rw [visit_cons, if_pos hs, List.length_cons, Nat.add_right_comm, Function.iterate_succ_apply, turn,
        if_pos hs, hturns]
  | push seen id stack hs ih =>
    obtain ⟨found, hvisit, hturns⟩ := ih
    refine ⟨id :: found, ?_, ?_⟩
    · rw [visit_cons, if_neg hs, hvisit, List.append_assoc]
      rfl
    · have hcount : (id :: stack).length + ((id :: found).map fun id => (h.kids id).length).sum =
          (h.kids id ++ stack).length + (found.map fun id => (h.kids id).length).sum + 1 := by
        simp only [List.length_cons, List.length_append, List.map_cons, List.sum_cons]
        omega
      rw [visit_cons, if_neg hs, hcount, Function.iterate_succ_apply, turn, if_neg hs, hturns]

/--
In a hierarchy that was built, each node has just one listing of everything below it, and the walk from its
children ends with the first occurrences of this listing, after one turn for each child that comes onto the stack.
These are the nodes that can be reached from the node in one step or more, each once, and the node itself is not
among them.
-/
theorem descendants_listing {declared : List (String × List String)} (hb : build declared = .ok h)
    (hid : h.contains id = true) :
    ∃ l, (∀ l', Listing h (h.kids id) l' ↔ l' = l) ∧ h.descendants? id = some l.eraseDups ∧
      h.turn^[(h.kids id).length + (l.eraseDups.map fun t => (h.kids t).length).sum] ([], h.kids id) =
        (l.eraseDups, []) ∧
      l.eraseDups.Nodup ∧ (∀ t, t ∈ l.eraseDups ↔ Relation.TransGen h.Child id t) ∧ id ∉ l.eraseDups := by
  obtain ⟨done, hf, hall⟩ := finished_of_build hb
  have ha : h.Acyclic := hf.acyclic_of_all hall
  obtain ⟨l, hl⟩ := hf.exists_listing (hall (Entries.any_key_iff.1 hid))
  have hvisit : h.visit [] (h.kids id) = l.eraseDups := by
    have := visit_listing ha hl .nil (fun _ hs => nomatch hs) []
    rwa [List.append_nil, List.nil_append, visit] at this
  have hmem (t : String) : t ∈ l.eraseDups ↔ Relation.TransGen h.Child id t := by
    rw [List.mem_eraseDups, hl.mem_below_iff]
  obtain ⟨ks, hks⟩ := exists_children? (Entries.any_key_iff.1 hid)
  obtain ⟨found, hfound, hturns⟩ := h.turns_visit [] (h.kids id)
  rw [List.nil_append, hvisit] at hfound
  rw [hvisit, ← hfound] at hturns
  refine ⟨l, fun l' => ⟨fun hl' => hl'.unique hl, fun heq => heq ▸ hl⟩, ?_, hturns, nodup_eraseDups, hmem, ?_⟩
  · rw [← hvisit, descendants?, kids, hks]
    rfl
  · rw [hmem]
    exact ha id

/-- The listing meets `shared` twice, the walk keeps its first place. -/
theorem descendants_listing_diamond :
    ∃ h, build diamond = .ok h ∧ h.contains "root" = true ∧
      Listing h (h.kids "root") ["a", "shared", "b", "shared", "c"] ∧
      h.descendants? "root" = some ["a", "shared", "b", "c"] ∧
      h.turn^[7] ([], h.kids "root") = (["a", "shared", "b", "c"], []) := by
  -- `cbv` goes by the equations of `List.lookup` and `Prod.snd`, which the imports of Mathlib hold
  have hb : build diamond = .ok ⟨nodesOf diamond⟩ := by cbv
  have hroot : kids ⟨nodesOf diamond⟩ "root" = ["a", "b"] := by decide
  have ha : kids ⟨nodesOf diamond⟩ "a" = ["shared"] := by decide
  have hb' : kids ⟨nodesOf diamond⟩ "b" = ["shared", "c"] := by decide
  have hshared : kids ⟨nodesOf diamond⟩ "shared" = [] := by decide
  have hc : kids ⟨nodesOf diamond⟩ "c" = [] := by decide
  have hlisted : Listing ⟨nodesOf diamond⟩ ["a", "b"] ["a", "shared", "b", "shared", "c"] := by
    have hleaf {id : String} {ids l : List String} (hk : kids ⟨nodesOf diamond⟩ id = [])
        (hl : Listing ⟨nodesOf diamond⟩ ids l) : Listing ⟨nodesOf diamond⟩ (id :: ids) (id :: l) :=
      @Listing.cons _ id ids [] l (hk.symm ▸ .nil) hl
    refine @Listing.cons _ "a" ["b"] ["shared"] ["b", "shared", "c"] (ha.symm ▸ hleaf hshared .nil) ?_
    exact @Listing.cons _ "b" [] ["shared", "c"] [] (hb'.symm ▸ hleaf hshared (hleaf hc .nil)) .nil
  have hid : contains ⟨nodesOf diamond⟩ "root" = true := by decide
  obtain ⟨l, hl, hdesc, hturns, -⟩ := descendants_listing hb hid
  obtain rfl := (hl _).1 (hroot.symm ▸ hlisted)
  exact ⟨_, hb, hid, hroot.symm ▸ hlisted, hdesc.trans (by decide), hturns⟩

end ConfigCompiler.Hierarchy
