import ConfigCompiler.Proofs.Hierarchy.Descendants

/-!
# The search for cycles

The search goes down a path of the hierarchy and leaves a node when all its children are done, so the nodes that
are done are listed below their children (`Finished`) and none of them is below itself. On its way the search
keeps a trail; what it has tried of a node is done, or is where it has gone to from there (`Explored`). A step
keeps both, so in the end all roots are done (`search_spec`, `searchFrom_spec`), and the child that stops the
search is below itself. From all nodes, in whatever order, the search ends well just if there is no cycle
(`searchFrom_isOk_iff`).
-/

namespace ConfigCompiler.Hierarchy

/-- No node is below itself. -/
def Acyclic (h : Hierarchy) : Prop := ∀ id, ¬ Relation.TransGen h.Child id id

variable {h : Hierarchy} {done path : List String} {trail : Trail} {id kid : String} {ks : List String}

/-! ## Nodes that are done -/

/-- The nodes that are done, the last one first: each was left after all its children. -/
inductive Finished (h : Hierarchy) : List String → Prop
  | nil : Finished h []
  | leave {id : String} {done : List String} : id ∉ done → (∀ kid ∈ h.kids id, kid ∈ done) →
      Finished h done → Finished h (id :: done)

theorem Finished.closed (hf : Finished h done) (hid : id ∈ done) (hkid : kid ∈ h.kids id) : kid ∈ done := by
  induction hf with
  | nil => cases hid
  | leave _ hkids _ ih =>
    rcases List.mem_cons.1 hid with rfl | hid
    · exact List.mem_cons_of_mem _ (hkids kid hkid)
    · exact List.mem_cons_of_mem _ (ih hid)

theorem Finished.reachable (hf : Finished h done) (hid : id ∈ done)
    (hr : Relation.ReflTransGen h.Child id kid) : kid ∈ done := by
  induction hr with
  | refl => exact hid
  | tail _ hkid ih => exact hf.closed ih hkid

/-- A node that is done is not below itself: it was left after everything below it. -/
theorem Finished.acyclic (hf : Finished h done) (hid : id ∈ done) : ¬ Relation.TransGen h.Child id id := by
  induction hf with
  | nil => cases hid
  | leave hnew hkids hf ih =>
    rcases List.mem_cons.1 hid with rfl | hid
    · intro hcycle
      obtain ⟨kid, hkid, hback⟩ := Relation.TransGen.head'_iff.1 hcycle
      exact hnew (hf.reachable (hkids kid hkid) hback)
    · exact ih hid

/-! ## Trails -/

/-- What was tried of each node of a trail is done or is the node before it; `ahead` is before the first. -/
inductive Explored (h : Hierarchy) (done : List String) : (ahead : List String) → Trail → Prop
  | nil {ahead : List String} : Explored h done ahead []
  | cons {ahead : List String} {id : String} {ks : List String} {trail : Trail} :
      id ∉ done → id ∉ trail.map (·.1) → ks ⊆ h.kids id → ahead ⊆ h.kids id →
      (∀ kid ∈ h.kids id, kid ∈ ks ∨ kid ∈ done ∨ kid ∈ ahead) → Explored h done [id] trail →
      Explored h done ahead ((id, ks) :: trail)

/-- One more node is done, which is not on the trail. -/
theorem Explored.finish {ahead : List String} (ht : Explored h done ahead trail)
    (hid : id ∉ trail.map (·.1)) : Explored h (id :: done) ahead trail := by
  induction ht with
  | nil => exact .nil
  | cons hdone htrail hks hahead htried _ ih =>
    simp only [List.map_cons, List.mem_cons, not_or] at hid
    refine .cons ?_ htrail hks hahead (fun kid hkid => ?_) (ih hid.2)
    · simp [hdone, Ne.symm hid.1]
    · rcases htried kid hkid with h | h | h
      · exact .inl h
      · exact .inr (.inl (List.mem_cons_of_mem id h))
      · exact .inr (.inr h)

/-- Back up from a node that is done now. -/
theorem Explored.leave (ht : Explored h (id :: done) [id] trail) : Explored h (id :: done) [] trail := by
  cases ht with
  | nil => exact .nil
  | cons hdone htrail hks _ htried ht =>
    refine .cons hdone htrail hks (List.nil_subset _) (fun kid hkid => ?_) ht
    rcases htried kid hkid with h | h | h
    · exact .inl h
    · exact .inr (.inl h)
    · exact .inr (.inl (List.mem_singleton.1 h ▸ List.mem_cons_self))

/-- Every node of a trail leads to its first one. -/
theorem Explored.reachable {ahead : List String} (ht : Explored h done ahead ((id, ks) :: trail))
    {t : String} (hmem : t ∈ ((id, ks) :: trail).map (·.1)) : Relation.ReflTransGen h.Child t id := by
  induction trail generalizing ahead id ks with
  | nil =>
    obtain rfl : t = id := by simpa using hmem
    exact .refl
  | cons e trail ih =>
    obtain ⟨parent, rest⟩ := e
    cases ht with
    | cons _ _ _ _ _ ht =>
      rcases List.mem_cons.1 hmem with rfl | hmem
      · exact .refl
      · have hchild : h.Child parent id := by
          cases ht with
          | cons _ _ _ hahead _ _ => exact hahead (List.mem_singleton_self id)
        exact (ih ht hmem).tail hchild

/-! ## The search -/

/-- What the search ends with, given what was done before and what is to be done in any case. -/
inductive Searched (h : Hierarchy) (done due : List String) : Except String (List String) → Prop
  | ok {done' : List String} : Finished h done' → done ⊆ done' → due ⊆ done' → Searched h done due (.ok done')
  | error {id : String} : Relation.TransGen h.Child id id → Searched h done due (.error id)

theorem Searched.weaken {done' due' : List String} {result : Except String (List String)}
    (hs : Searched h done due result) (hdone : done' ⊆ done)
    (hdue : ∀ done'', done ⊆ done'' → due ⊆ done'' → due' ⊆ done'') : Searched h done' due' result := by
  cases hs with
  | ok hf hd hu => exact .ok hf (List.Subset.trans hdone hd) (hdue _ hd hu)
  | error hc => exact .error hc

theorem search_spec (hf : Finished h done) (hp : path = trail.map (·.1)) (ht : Explored h done [] trail) :
    Searched h done (trail.map (·.1)) (h.search done path trail) := by
  induction done, path, trail using search.induct h with
  | case1 done path =>
    rw [search]
    exact .ok hf (List.Subset.refl done) (List.nil_subset done)
  | case2 done path id trail ih =>
    -- nothing is left of the first node: it is done
    cases ht with
    | cons hdone hnew _ _ htried ht =>
      have hf' : Finished h (id :: done) := .leave hdone (fun kid hkid => by simpa using htried kid hkid) hf
      have hpath : path.erase id = trail.map (·.1) := by
        rw [hp, List.map_cons, List.erase_cons_head]
      rw [search]
      refine (ih hf' hpath (ht.finish hnew).leave).weaken (List.subset_cons_self id done) ?_
      intro done' hd hu
      exact List.cons_subset.2 ⟨hd List.mem_cons_self, hu⟩
  | case3 done path id kid kids trail hkid =>
    -- the child is on the trail, so it leads to its parent
    have hreach : Relation.ReflTransGen h.Child kid id := ht.reachable (hp ▸ hkid)
    rw [search, if_pos hkid]
    cases ht with
    | cons _ _ hks _ _ _ =>
      have hchild : h.Child id kid := hks List.mem_cons_self
      exact .error (.tail' hreach hchild)
  | case4 done path id kid kids trail hpath hkid ih =>
    rw [search, if_neg hpath, if_pos hkid]
    cases ht with
    | cons hdone hnew hks hahead htried ht =>
      refine ih hf hp (.cons hdone hnew (fun t ht => hks (List.mem_cons_of_mem kid ht)) hahead ?_ ht)
      intro t hmem
      rcases htried t hmem with h | h | h
      · rcases List.mem_cons.1 h with rfl | h
        · exact .inr (.inl hkid)
        · exact .inl h
      · exact .inr (.inl h)
      · cases h
  | case5 done path id kid kids trail hpath hkid ih =>
    rw [search, if_neg hpath, if_neg hkid]
    have hnew : kid ∉ ((id, kids) :: trail).map (·.1) := by
      intro hmem
      exact hpath (hp ▸ hmem)
    have hbelow : Explored h done [kid] ((id, kids) :: trail) := by
      cases ht with
      | cons hdone hout hks _ htried ht =>
        obtain ⟨hkid, hks⟩ := List.cons_subset.1 hks
        refine .cons hdone hout hks (List.cons_subset.2 ⟨hkid, List.nil_subset _⟩) (fun t hmem => ?_) ht
        rcases htried t hmem with h | h | h
        · rcases List.mem_cons.1 h with rfl | h
          · exact .inr (.inr (List.mem_singleton_self t))
          · exact .inl h
        · exact .inr (.inl h)
        · cases h
    refine (ih hf (congrArg (kid :: ·) hp) ?_).weaken (List.Subset.refl done) fun done' _ hu => ?_
    · exact .cons hkid hnew (List.Subset.refl _) (List.nil_subset _) (fun _ => .inl) hbelow
    · exact (List.cons_subset.1 hu).2

theorem searchFrom_spec (hf : Finished h done) (roots : List String) :
    Searched h done roots (h.searchFrom done roots) := by
  induction roots generalizing done with
  | nil =>
    rw [searchFrom]
    exact .ok hf (List.Subset.refl done) (List.nil_subset done)
  | cons root roots ih =>
    rw [searchFrom]
    split
    · rename_i hroot
      refine (ih hf).weaken (List.Subset.refl done) fun done' hd hu => ?_
      exact List.cons_subset.2 ⟨hd hroot, hu⟩
    · rename_i hroot
      have ht : Explored h done [] [(root, h.kids root)] :=
        .cons hroot List.not_mem_nil (List.Subset.refl _) (List.nil_subset _) (fun _ => .inl) .nil
      have hs := @search_spec h done [root] _ hf rfl ht
      rw [show (h.children? root).getD [] = h.kids root by rfl]
      generalize h.search done [root] [(root, h.kids root)] = result at hs
      cases hs with
      | error hc => exact .error hc
      | @ok done' hf' hd hu =>
        refine (ih hf').weaken hd fun done'' hd' hu' => ?_
        exact List.cons_subset.2 ⟨hd' (hu List.mem_cons_self), hu'⟩

/-! ## Cycles -/

theorem mem_names_of_child (hc : h.Child id kid) : id ∈ h.nodes.map (·.1) := by
  unfold Child kids at hc
  cases hk : h.children? id with
  | none => simp [hk] at hc
  | some ks => exact mem_names_of_children? hk

theorem Finished.acyclic_of_all (hf : Finished h done) (hall : h.nodes.map (·.1) ⊆ done) : h.Acyclic := by
  intro id hcycle
  obtain ⟨kid, hkid, -⟩ := Relation.TransGen.head'_iff.1 hcycle
  exact hf.acyclic (hall (mem_names_of_child hkid)) hcycle

/-- From all nodes, in whatever order, the search ends well just if there is no cycle. -/
theorem searchFrom_isOk_iff {roots : List String} (hroots : roots.Perm (h.nodes.map (·.1))) :
    (∃ done, h.searchFrom [] roots = .ok done) ↔ h.Acyclic := by
  have hs := searchFrom_spec (h := h) .nil roots
  constructor
  · rintro ⟨done, hd⟩ id hcycle
    rw [hd] at hs
    cases hs with
    | ok hf _ hu => exact hf.acyclic_of_all (fun _ hid => hu (hroots.mem_iff.2 hid)) id hcycle
  · intro hacyclic
    generalize h.searchFrom [] roots = result at hs
    cases hs with
    | @ok done _ _ _ => exact ⟨done, rfl⟩
    | error hc => exact absurd hc (hacyclic _)

/-- The nodes of a hierarchy that was built were all left in the end. -/
theorem finished_of_build {declared : List (String × List String)} (hb : build declared = .ok h) :
    ∃ done, Finished h done ∧ h.nodes.map (·.1) ⊆ done := by
  have ho := buildIn_outcome ((nodesOf declared).map (·.1)) declared
  rw [← build, hb] at ho
  cases ho with
  | @built done _ _ hsearch =>
    have hs := searchFrom_spec (h := ⟨nodesOf declared⟩) .nil ((nodesOf declared).map (·.1))
    rw [hsearch] at hs
    cases hs with
    | ok hf _ hu => exact ⟨done, hf, hu⟩

end ConfigCompiler.Hierarchy
