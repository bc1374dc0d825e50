import ConfigCompiler.Hierarchy.Build
import ConfigCompiler.Proofs.Value.Entries

/-!
# What is built

A hierarchy is built from declarations unless one of three checks fails (`Hierarchy.Outcome`). The children of
its nodes are those that were declared, each once (`Hierarchy.kids_of_build`), so the order of the declarations
does not matter (`Hierarchy.kids_perm`).
-/

namespace ConfigCompiler.Hierarchy

/-- The children of a node; none for what is no node. -/
def kids (h : Hierarchy) (id : String) : List String := (h.children? id).getD []

theorem mem_of_mem_kids {h : Hierarchy} {id kid : String} (hk : kid ∈ h.kids id) :
    ∃ e ∈ h.nodes, kid ∈ e.2 := by
  unfold kids children? Entries.get? at hk
  cases hl : List.lookup id h.nodes with
  | none =>
    rw [hl] at hk
    exact absurd hk List.not_mem_nil
  | some ks =>
    rw [hl] at hk
    obtain ⟨before, after, hsplit, -⟩ := List.lookup_eq_some_iff.1 hl
    exact ⟨(id, ks), hsplit ▸ List.mem_append_right _ List.mem_cons_self, hk⟩

theorem exists_children? {h : Hierarchy} {id : String} (hid : id ∈ h.nodes.map (·.1)) :
    ∃ ks, h.children? id = some ks := by
  cases hc : h.children? id with
  | some ks => exact ⟨ks, rfl⟩
  | none =>
    obtain ⟨e, he, heq⟩ := List.mem_map.1 hid
    have hno := List.lookup_eq_none_iff.1 hc e he
    simp [heq] at hno

/-! ## What comes of building -/

/-- All that can come of building: the first check that fails decides. -/
inductive Outcome (roots : List String) (declared : List (String × List String)) :
    Except HierarchyError Hierarchy → Prop
  | duplicate {id : String} : Entries.firstRepeated? [] declared = some id →
      Outcome roots declared (.error (.duplicateNode id))
  | invalid {id : String} : Entries.firstRepeated? [] declared = none →
      (named declared).find? (!isValidId ·) = some id → Outcome roots declared (.error (.invalidId id))
  | cycle {id : String} : Entries.firstRepeated? [] declared = none →
      (∀ id ∈ named declared, isValidId id = true) → searchFrom ⟨nodesOf declared⟩ [] roots = .error id →
      Outcome roots declared (.error (.cycle id))
  | built {done : List String} : Entries.firstRepeated? [] declared = none →
      (∀ id ∈ named declared, isValidId id = true) → searchFrom ⟨nodesOf declared⟩ [] roots = .ok done →
      Outcome roots declared (.ok ⟨nodesOf declared⟩)

theorem buildIn_outcome (roots : List String) (declared : List (String × List String)) :
    Outcome roots declared (buildIn roots declared) := by
  unfold buildIn
  split
  · exact .duplicate ‹_›
  · rename_i hr
    split
    · exact .invalid hr ‹_›
    · rename_i hfind
      have hvalid : ∀ id ∈ named declared, isValidId id = true := by simpa using hfind
      split
      · exact .cycle hr hvalid ‹_›
      · exact .built hr hvalid ‹_›

/-- What is declared for a built hierarchy. -/
theorem build_eq_ok {declared : List (String × List String)} {h : Hierarchy}
    (hb : build declared = .ok h) : Entries.firstRepeated? [] declared = none ∧ h = ⟨nodesOf declared⟩ := by
  have ho := buildIn_outcome ((nodesOf declared).map (·.1)) declared
  rw [← build, hb] at ho
  cases ho with
  | built hr _ _ => exact ⟨hr, rfl⟩

/-! ## Built hierarchies -/

theorem nodup_nodesOf {declared : List (String × List String)}
    (h : Entries.firstRepeated? [] declared = none) : ((nodesOf declared).map (·.1)).Nodup := by
  have hnames : (declared.map fun e => (e.1, e.2.eraseDups)).map (·.1) = declared.map (·.1) := by
    rw [List.map_map]; rfl
  simp only [nodesOf, List.map_append, List.map_map, Function.comp_def, List.map_id_fun', id]
  refine List.nodup_append.2 ⟨(Entries.nodup_of_firstRepeated? h).1, nodup_eraseDups.filter _, ?_⟩
  rintro a ha b hb rfl
  have := (List.mem_filter.1 hb).2
  simp_all

theorem nodup_of_build {declared : List (String × List String)} {h : Hierarchy}
    (hb : build declared = .ok h) : (h.nodes.map (·.1)).Nodup := by
  obtain ⟨hr, rfl⟩ := build_eq_ok hb
  exact nodup_nodesOf hr

/-- The children of a node are those that were declared, each once. -/
theorem kids_nodesOf (declared : List (String × List String)) (id : String) :
    kids ⟨nodesOf declared⟩ id = ((List.lookup id declared).getD []).eraseDups := by
  have hothers (others : List String) :
      (List.lookup id (others.map fun id => (id, ([] : List String)))).getD [] = [] := by
    induction others with
    | nil => rfl
    | cons other others ih =>
      rw [List.map_cons, List.lookup_cons]
      cases id == other with
      | true => rfl
      | false => exact ih
  simp only [kids, children?, Entries.get?, nodesOf, List.lookup_append, Entries.lookup_map_snd]
  cases List.lookup id declared with
  | none => simpa using hothers _
  | some ks => simp

theorem kids_of_build {declared : List (String × List String)} {h : Hierarchy}
    (hb : build declared = .ok h) (id : String) :
    h.kids id = ((List.lookup id declared).getD []).eraseDups := by
  obtain ⟨-, rfl⟩ := build_eq_ok hb
  exact kids_nodesOf declared id

theorem exists_of_mem_kids {declared : List (String × List String)} {id kid : String}
    (hk : kid ∈ kids ⟨nodesOf declared⟩ id) : ∃ ks, (id, ks) ∈ declared ∧ kid ∈ ks := by
  rw [kids_nodesOf, List.mem_eraseDups] at hk
  cases hl : List.lookup id declared with
  | none => simp [hl] at hk
  | some ks =>
    rw [hl, Option.getD_some] at hk
    obtain ⟨before, after, hsplit, -⟩ := List.lookup_eq_some_iff.1 hl
    exact ⟨ks, by simp [hsplit], hk⟩

/-- All identifiers of a hierarchy that was built are valid. -/
theorem isValidId_of_kids {declared : List (String × List String)} {h : Hierarchy}
    (hb : build declared = .ok h) {id kid : String} (hk : kid ∈ h.kids id) : isValidId kid = true := by
  have ho := buildIn_outcome ((nodesOf declared).map (·.1)) declared
  rw [← build, hb] at ho
  cases ho with
  | built _ hvalid _ =>
    obtain ⟨ks, hks, hkid⟩ := exists_of_mem_kids hk
    exact hvalid kid (List.mem_flatMap.2 ⟨(id, ks), hks, List.mem_cons_of_mem id hkid⟩)

/-- The order in which parents are declared does not matter. -/
theorem kids_perm {declared declared' : List (String × List String)} {h h' : Hierarchy}
    (hb : build declared = .ok h) (hb' : build declared' = .ok h') (hp : declared.Perm declared')
    (id : String) : h.kids id = h'.kids id := by
  have hnd := (Entries.nodup_of_firstRepeated? (build_eq_ok hb).1).1
  rw [kids_of_build hb, kids_of_build hb', Entries.lookup_perm hnd hp]

/-- Two ways lead to `shared`, and `a` is declared twice as a child of `root`. -/
def diamond : List (String × List String) :=
  [("root", ["a", "b", "a"]), ("a", ["shared"]), ("b", ["shared", "c"])]

end ConfigCompiler.Hierarchy
