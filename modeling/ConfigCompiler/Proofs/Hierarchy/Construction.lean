import Mathlib.Computability.Primrec.List
import Mathlib.Data.List.Permutation
import ConfigCompiler.Proofs.Expansion.Segments
import ConfigCompiler.Proofs.Hierarchy.Acyclic

/-!
# Which declarations are accepted

Declarations are refused because of a parent that is declared twice, or else because of an identifier, or else
because of a cycle, and for nothing else (`built_iff`); what an error names is to blame (`blames_of_error`). The
nodes of what is built are the identifiers that are named, and their children are the declared ones
(`nodes_of_ok`). The order in which the search for cycles takes its roots is left open.
-/

namespace ConfigCompiler.Hierarchy

variable {declared : List (String × List String)} {roots : List String} {h : Hierarchy}

/-! ## Declarations -/

/-- The second identifier is declared as a child of the first one. -/
def Declares (declared : List (String × List String)) (id kid : String) : Prop :=
  ∃ ks, (id, ks) ∈ declared ∧ kid ∈ ks

theorem mem_named {id : String} : id ∈ named declared ↔
    id ∈ declared.map (·.1) ∨ ∃ parent, Declares declared parent id := by
  simp only [named, List.mem_flatMap, List.mem_cons, List.mem_map, Declares]
  constructor
  · rintro ⟨e, he, rfl | hkid⟩
    · exact .inl ⟨e, he, rfl⟩
    · exact .inr ⟨e.1, e.2, he, hkid⟩
  · rintro (⟨e, he, rfl⟩ | ⟨parent, ks, hks, hkid⟩)
    · exact ⟨e, he, .inl rfl⟩
    · exact ⟨(parent, ks), hks, .inr hkid⟩

theorem child_nodesOf (hn : (declared.map (·.1)).Nodup) :
    Child ⟨nodesOf declared⟩ = Declares declared := by
  funext id kid
  refine propext ⟨exists_of_mem_kids, ?_⟩
  rintro ⟨ks, hks, hkid⟩
  have hl : List.lookup id declared = some ks := (Entries.lookup_eq_some hn).2 hks
  rw [Child, kids_nodesOf, hl, Option.getD_some, List.mem_eraseDups]
  exact hkid

/-! ## Checks -/

theorem isValidId_iff {id : String} : isValidId id = true ↔ KeySegment id := by
  refine ⟨keySegment_of_isValidId, fun hs => ?_⟩
  have hempty : id.toList ≠ [] := by simpa using hs.ne_empty
  have hstar : id.toList ≠ [Segment.wildcardChar] := by
    intro hid
    exact hs.ne_wildcard (String.toList_inj.1 (hid.trans (String.toList_singleton _).symm))
  unfold isValidId
  have hsigil := hs.sigil
  have hdot := hs.separator
  cases hid : id.toList with
  | nil => exact absurd hid hempty
  | cons c cs =>
    rw [hid] at hstar hsigil hdot
    simp_all

theorem forall_isValidId_iff {ids : List String} : (∀ id ∈ ids, isValidId id = true) ↔
    ∀ id ∈ ids, id ≠ "" ∧ id ≠ "*" ∧ id.toList.head? ≠ some '@' ∧ '.' ∉ id.toList := by
  refine forall₂_congr fun id _ => ?_
  rw [isValidId_iff]
  exact ⟨fun ⟨h₁, h₄, h₃, h₂⟩ => ⟨h₁, h₂, h₃, h₄⟩, fun ⟨h₁, h₂, h₃, h₄⟩ => ⟨h₁, h₄, h₃, h₂⟩⟩

theorem firstRepeated?_iff {before : List String} : Entries.firstRepeated? before declared = none ↔
    (declared.map (·.1)).Nodup ∧ ∀ e ∈ declared, e.1 ∉ before := by
  refine ⟨Entries.nodup_of_firstRepeated?, ?_⟩
  induction declared generalizing before with
  | nil => simp [Entries.firstRepeated?]
  | cons e es ih =>
    rintro ⟨hn, hout⟩
    rw [List.map_cons, List.nodup_cons] at hn
    rw [List.forall_mem_cons] at hout
    rw [Entries.firstRepeated?, if_neg hout.1]
    refine ih ⟨hn.2, fun f hf => ?_⟩
    have hne : f.1 ≠ e.1 := fun heq => hn.1 (heq ▸ List.mem_map_of_mem hf)
    simp [hout.2 f hf, hne]

theorem firstRepeated?_nil_iff : Entries.firstRepeated? [] declared = none ↔ (declared.map (·.1)).Nodup := by
  rw [firstRepeated?_iff]
  exact and_iff_left fun _ _ => List.not_mem_nil

/-- A search that starts from every node finds out whether what is declared has a cycle. -/
theorem searchFrom_nodesOf_iff (hn : (declared.map (·.1)).Nodup)
    (hroots : roots.Perm ((nodesOf declared).map (·.1))) :
    (∃ done, searchFrom ⟨nodesOf declared⟩ [] roots = .ok done) ↔
      ∀ id, ¬ Relation.TransGen (Declares declared) id id := by
  rw [searchFrom_isOk_iff (h := ⟨nodesOf declared⟩) hroots, Acyclic, child_nodesOf hn]

/-! ## What errors say -/

/-- What an error says of the node or the identifier that it names. -/
def Blames (declared : List (String × List String)) : HierarchyError → Prop
  | .duplicateNode id => 2 ≤ (declared.map (·.1)).count id
  | .invalidId id => id ∈ named declared ∧ isValidId id = false
  | .cycle id => Relation.TransGen (Declares declared) id id

theorem count_of_firstRepeated? {before : List String} {id : String}
    (hr : Entries.firstRepeated? before declared = some id) : 2 ≤ (before ++ declared.map (·.1)).count id := by
  induction declared generalizing before with
  | nil => cases hr
  | cons e es ih =>
    rw [Entries.firstRepeated?] at hr
    split at hr
    · rename_i hmem
      cases hr
      have := List.count_pos_iff.2 hmem
      rw [List.map_cons, List.count_append, List.count_cons_self]
      omega
    · have := ih hr
      rwa [List.append_assoc] at this

/-- What an error says is so, in whatever order the nodes were searched. -/
theorem blames_of_error {e : HierarchyError} (he : buildIn roots declared = .error e) : Blames declared e := by
  have ho := buildIn_outcome roots declared
  rw [he] at ho
  cases ho with
  | duplicate hr => exact count_of_firstRepeated? hr
  | @invalid id _ hfind =>
    have hbad := List.find?_some hfind
    rw [Bool.not_eq_true'] at hbad
    exact ⟨List.mem_of_find?_eq_some hfind, hbad⟩
  | cycle hr _ hsearch =>
    have hs := searchFrom_spec (h := ⟨nodesOf declared⟩) .nil roots
    rw [hsearch] at hs
    cases hs with
    | error hcycle =>
      rw [child_nodesOf (firstRepeated?_nil_iff.1 hr)] at hcycle
      exact hcycle

/-! ## Nodes -/

theorem mem_names_nodesOf {id : String} : id ∈ (nodesOf declared).map (·.1) ↔ id ∈ named declared := by
  rw [mem_named]
  simp only [nodesOf, List.map_append, List.map_map, Function.comp_def, List.map_id_fun', id_eq,
    List.mem_append, List.mem_filter, List.mem_eraseDups, List.mem_flatMap, Bool.not_eq_true',
    List.contains_eq_mem, decide_eq_false_iff_not, Declares]
  constructor
  · rintro (hmem | ⟨⟨e, he, hkid⟩, -⟩)
    · exact .inl hmem
    · obtain ⟨d, hd, rfl⟩ := List.mem_map.1 he
      exact .inr ⟨d.1, d.2, hd, List.mem_eraseDups.1 hkid⟩
  · rintro (hmem | ⟨parent, ks, hks, hkid⟩)
    · exact .inl hmem
    · by_cases hmem : id ∈ declared.map (·.1)
      · exact .inl hmem
      · refine .inr ⟨⟨(parent, ks.eraseDups), ?_, List.mem_eraseDups.2 hkid⟩, hmem⟩
        exact List.mem_map.2 ⟨(parent, ks), hks, rfl⟩

theorem children?_nodesOf (declared : List (String × List String)) {id : String} (hid : id ∈ named declared) :
    children? ⟨nodesOf declared⟩ id = some (((List.lookup id declared).getD []).eraseDups) := by
  obtain ⟨ks, hks⟩ := exists_children? (h := ⟨nodesOf declared⟩) (mem_names_nodesOf.2 hid)
  rw [← kids_nodesOf, kids, hks, Option.getD_some]

/-- The nodes of what is built, and their children. -/
theorem nodes_of_ok (hb : buildIn roots declared = .ok h) :
    (h.nodes.map (·.1)).Nodup ∧ (∀ id, h.contains id = true ↔ id ∈ named declared) ∧
      (∀ id ks, (id, ks) ∈ declared → h.children? id = some ks.eraseDups) ∧
      ∀ id ∈ named declared, id ∉ declared.map (·.1) → h.children? id = some [] := by
  have ho := buildIn_outcome roots declared
  rw [hb] at ho
  cases ho with
  | built hr hall hsearch =>
    refine ⟨nodup_nodesOf hr, fun id => ?_, fun id ks hks => ?_, fun id hid hout => ?_⟩
    · rw [contains, Entries.contains, Entries.any_key_iff, mem_names_nodesOf]
    · have hid : id ∈ named declared := mem_named.2 (.inl (List.mem_map.2 ⟨(id, ks), hks, rfl⟩))
      have hl := (Entries.lookup_eq_some (firstRepeated?_nil_iff.1 hr)).2 hks
      rw [children?_nodesOf declared hid, hl, Option.getD_some]
    · have hl : List.lookup id declared = none :=
        List.lookup_eq_none_iff.2 fun e he => by
          have : e.1 ≠ id := fun heq => hout (List.mem_map.2 ⟨e, he, heq⟩)
          simp [Ne.symm this]
      rw [children?_nodesOf declared hid, hl]
      rfl

/-! ## Verdicts -/

/-- What comes of declarations for which these three hold: the first that is not as it should be is reported. -/
inductive Verdict (twice valid cyclic : Prop) : Except HierarchyError Hierarchy → Prop
  | duplicate {id : String} (ht : twice) : Verdict twice valid cyclic (.error (.duplicateNode id))
  | invalid {id : String} (ht : ¬ twice) (hv : ¬ valid) : Verdict twice valid cyclic (.error (.invalidId id))
  | cycle {id : String} (ht : ¬ twice) (hv : valid) (hc : cyclic) : Verdict twice valid cyclic (.error (.cycle id))
  | built {h : Hierarchy} (ht : ¬ twice) (hv : valid) (hc : ¬ cyclic) : Verdict twice valid cyclic (.ok h)

/-- The four verdicts exclude each other, so each tells which of the three hold. -/
theorem Verdict.iffs {twice valid cyclic : Prop} {result : Except HierarchyError Hierarchy}
    (hv : Verdict twice valid cyclic result) :
    ((∃ h, result = .ok h) ↔ ¬ twice ∧ valid ∧ ¬ cyclic) ∧
    ((∃ id, result = .error (.duplicateNode id)) ↔ twice) ∧
    ((∃ id, result = .error (.invalidId id)) ↔ ¬ twice ∧ ¬ valid) ∧
    ((∃ id, result = .error (.cycle id)) ↔ ¬ twice ∧ valid ∧ cyclic) := by
  cases hv with
  | duplicate ht => simp [ht]
  | invalid ht hv => simp [ht, hv]
  | cycle ht hv hc => simp [ht, hv, hc]
  | built ht hv hc => simp [ht, hv, hc]

theorem buildIn_verdict (hroots : roots.Perm ((nodesOf declared).map (·.1))) :
    Verdict (¬ (declared.map (·.1)).Nodup) (∀ id ∈ named declared, isValidId id = true)
      (∃ id, Relation.TransGen (Declares declared) id id) (buildIn roots declared) := by
  have ho := buildIn_outcome roots declared
  generalize buildIn roots declared = result at ho ⊢
  cases ho with
  | duplicate hr =>
    refine .duplicate fun hn => ?_
    rw [firstRepeated?_nil_iff.2 hn] at hr
    cases hr
  | invalid hr hfind =>
    refine .invalid (not_not.2 (firstRepeated?_nil_iff.1 hr)) fun hall => ?_
    have hbad := List.find?_some hfind
    simp [hall _ (List.mem_of_find?_eq_some hfind)] at hbad
  | cycle hr hall hsearch =>
    have hn := firstRepeated?_nil_iff.1 hr
    refine .cycle (not_not.2 hn) hall (Classical.byContradiction fun hno => ?_)
    obtain ⟨done, hdone⟩ := (searchFrom_nodesOf_iff hn hroots).2 (not_exists.1 hno)
    cases hsearch.symm.trans hdone
  | built hr hall hsearch =>
    have hn := firstRepeated?_nil_iff.1 hr
    exact .built (not_not.2 hn) hall (not_exists.2 ((searchFrom_nodesOf_iff hn hroots).1 ⟨_, hsearch⟩))

/--
Whatever is declared, and in whatever order the nodes are searched: what is built is a hierarchy just if no
parent is declared twice, each identifier is one, and no node is below itself. Otherwise a parent that is declared
twice is reported first, then an identifier that is none, then a node that is below itself. The nodes of
a hierarchy that is built are the identifiers that are named; each has the children that are declared for it,
without repetitions.
-/
theorem built_iff (hroots : roots.Perm ((nodesOf declared).map (·.1))) :
    let twice := ¬ (declared.map (·.1)).Nodup
    let valid := ∀ id ∈ named declared, id ≠ "" ∧ id ≠ "*" ∧ id.toList.head? ≠ some '@' ∧ '.' ∉ id.toList
    let cyclic := ∃ id, Relation.TransGen (Declares declared) id id
    let result := buildIn roots declared
    ((∃ h, result = .ok h) ↔ ¬ twice ∧ valid ∧ ¬ cyclic) ∧
    ((∃ id, result = .error (.duplicateNode id)) ↔ twice) ∧
    ((∃ id, result = .error (.invalidId id)) ↔ ¬ twice ∧ ¬ valid) ∧
    ((∃ id, result = .error (.cycle id)) ↔ ¬ twice ∧ valid ∧ cyclic) ∧
    ∀ h, result = .ok h →
      (h.nodes.map (·.1)).Nodup ∧ (∀ id, h.contains id = true ↔ id ∈ named declared) ∧
      (∀ id ks, (id, ks) ∈ declared → h.children? id = some ks.eraseDups) ∧
      ∀ id ∈ named declared, id ∉ declared.map (·.1) → h.children? id = some [] := by
  intro twice valid cyclic result
  have hverdict := buildIn_verdict hroots
  rw [forall_isValidId_iff] at hverdict
  obtain ⟨hok, hduplicate, hinvalid, hcycle⟩ := hverdict.iffs
  exact ⟨hok, hduplicate, hinvalid, hcycle, fun _ => nodes_of_ok⟩

/-- The diamond is accepted from the bottom up, so it has no cycle. -/
theorem built_iff_diamond :
    let roots := ["c", "shared", "b", "a", "root"]
    roots.Perm ((nodesOf diamond).map (·.1)) ∧ ∃ h, buildIn roots diamond = .ok h ∧
      (∀ id, ¬ Relation.TransGen (Declares diamond) id id) ∧
      h.children? "root" = some ["a", "b"] ∧ h.children? "c" = some [] ∧ h.contains "d" = false := by
  intro roots
  have hperm : roots.Perm ((nodesOf diamond).map (·.1)) := by decide
  -- `cbv` goes by the equations of `List.lookup` and `Prod.snd`, which the imports of Mathlib hold
  obtain ⟨h, hb⟩ : ∃ h, buildIn roots diamond = .ok h := ⟨_, by cbv⟩
  obtain ⟨hiff, -, -, -, hbuilt⟩ := built_iff hperm
  obtain ⟨-, hcontains, hdeclared, hothers⟩ := hbuilt h hb
  refine ⟨hperm, h, hb, not_exists.1 (hiff.1 ⟨h, hb⟩).2.2, ?_, hothers "c" (by decide) (by decide), ?_⟩
  · rw [hdeclared "root" ["a", "b", "a"] (by decide)]
    decide
  · rw [← Bool.not_eq_true, hcontains]
    decide

end ConfigCompiler.Hierarchy
