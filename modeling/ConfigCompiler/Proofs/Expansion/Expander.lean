import ConfigCompiler.Expansion.Basic
import ConfigCompiler.Proofs.Hierarchy.Digest

/-!
# What an expansion depends on

An expander reads the children of nodes and the set of concrete keys that were observed. Expanders that agree
on these (`Expander.Alike`) expand the same patterns, and to the same keys (`Alike.expand`); neither the
order of the configuration nor nodes without children matter.
-/

namespace ConfigCompiler.Expander

/-- What a segment may be replaced by after a path; nothing if it cannot be replaced. -/
def options (x : Expander) (path : List String) : Segment → List String
  | .literal s => [s]
  | .node name => x.hierarchy.visit [] (x.hierarchy.kids name)
  | .wildcard =>
    let kids := path.getLast?.elim [] x.hierarchy.kids
    if kids = [] then x.siblings path else kids

/-- Expanders with the same children and the same observed keys. -/
structure Alike (x y : Expander) : Prop where
  kids : ∀ id, x.hierarchy.kids id = y.hierarchy.kids id
  observed : ∀ segments, segments ∈ x.observed ↔ segments ∈ y.observed

section
variable {x y : Expander} {path : List String} {segment : Segment}

theorem Alike.symm (h : Alike x y) : Alike y x :=
  ⟨fun id => (h.kids id).symm, fun segments => (h.observed segments).symm⟩

theorem visit_nil (h : Hierarchy) (seen : List String) : h.visit seen [] = seen := by rw [Hierarchy.visit]

theorem error_eq_ok_iff {reason : AmbiguityReason} {ss : List String} :
    (.error reason : Except AmbiguityReason (List String)) = .ok ss ↔ [] = ss ∧ ss ≠ [] :=
  iff_of_false nofun fun h => h.2 h.1.symm

theorem ok_cons_eq_ok_iff {s : String} {others ss : List String} :
    (.ok (s :: others) : Except AmbiguityReason (List String)) = .ok ss ↔ s :: others = ss ∧ ss ≠ [] := by
  rw [Except.ok.injEq]
  exact ⟨fun h => ⟨h, h ▸ List.cons_ne_nil s others⟩, And.left⟩

theorem substitutions_eq_ok_iff {ss : List String} :
    x.substitutions path segment = .ok ss ↔ x.options path segment = ss ∧ ss ≠ [] := by
  cases segment with
  | literal s => exact ok_cons_eq_ok_iff
  | node name =>
    simp only [options, substitutions, Hierarchy.descendants?, Hierarchy.kids]
    cases x.hierarchy.children? name with
    | none =>
      rw [Option.getD_none, visit_nil]
      exact error_eq_ok_iff
    | some kids =>
      rw [Option.map_some, Option.getD_some]
      cases x.hierarchy.visit [] kids with
      | nil => exact error_eq_ok_iff
      | cons id ids => exact ok_cons_eq_ok_iff
  | wildcard =>
    have hkids : path.getLast?.elim [] x.hierarchy.kids =
        (path.getLast?.bind x.hierarchy.children?).getD [] := by
      cases path.getLast? <;> rfl
    simp only [options, substitutions, hkids]
    rcases path.getLast?.bind x.hierarchy.children? with _ | _ | ⟨kid, kids⟩
    case some.cons => exact ok_cons_eq_ok_iff
    -- without children, what was observed after the path takes their place
    all_goals
      simp only [Option.getD_none, Option.getD_some, if_pos]
      cases x.siblings path with
      | nil => exact error_eq_ok_iff
      | cons s others => exact ok_cons_eq_ok_iff

theorem mem_siblings {s : String} :
    s ∈ x.siblings path ↔ ∃ segments ∈ x.observed, next? path segments = some s := by
  rw [siblings, List.mem_eraseDups, List.mem_filterMap]

theorem Alike.mem_options (h : Alike x y) {s : String} :
    s ∈ x.options path segment ↔ s ∈ y.options path segment := by
  cases segment with
  | literal t => rfl
  | node name => simp only [options, h.kids, Hierarchy.visit_congr h.kids]
  | wildcard =>
    have hkids : path.getLast?.elim [] x.hierarchy.kids = path.getLast?.elim [] y.hierarchy.kids := by
      cases path.getLast? with
      | none => rfl
      | some id => exact h.kids id
    simp only [options, hkids]
    split
    · simp only [mem_siblings, h.observed]
    · rfl

theorem Alike.options_eq_nil (h : Alike x y) (hx : x.options path segment ≠ []) :
    y.options path segment ≠ [] := by
  obtain ⟨s, hs⟩ := List.exists_mem_of_ne_nil _ hx
  exact List.ne_nil_of_mem (h.mem_options.1 hs)

/-! ## Paths -/

theorem extend_eq_ok_iff {paths longer : List (List String)} :
    x.extend segment paths = .ok longer ↔ (∀ p ∈ paths, x.options p segment ≠ []) ∧
      longer = paths.flatMap fun p => (x.options p segment).map (p ++ [·]) := by
  induction paths generalizing longer with
  | nil =>
    simp only [extend, List.flatMap_nil, Except.ok.injEq]
    exact ⟨fun h => ⟨fun _ hm => absurd hm List.not_mem_nil, h.symm⟩, fun h => h.2.symm⟩
  | cons p paths ih =>
    rw [extend, List.forall_mem_cons, List.flatMap_cons]
    cases hs : x.substitutions p segment with
    | error reason =>
      have hnil : x.options p segment = [] := Classical.byContradiction fun hne =>
        absurd (substitutions_eq_ok_iff.2 ⟨rfl, hne⟩) (by rw [hs]; exact fun h => nomatch h)
      exact iff_of_false (fun h => nomatch h) fun h => h.1.1 hnil
    | ok ss =>
      obtain ⟨hopt, hne⟩ := substitutions_eq_ok_iff.1 hs
      rw [hopt]
      cases he : x.extend segment paths with
      | error reason =>
        refine iff_of_false (fun h => nomatch h) fun h => ?_
        have := ih.2 ⟨h.1.2, rfl⟩
        rw [he] at this
        cases this
      | ok rest =>
        obtain ⟨hrest, rfl⟩ := ih.1 he
        simp only [bind, Except.bind, pure, Except.pure, Except.ok.injEq]
        exact ⟨fun h => ⟨⟨hne, hrest⟩, h.symm⟩, fun h => h.2.symm⟩

theorem Alike.paths (h : Alike x y) {pattern : Pattern} {segments : List Segment}
    {ps ps' out : List (List String)} (hps : ∀ p, p ∈ ps ↔ p ∈ ps')
    (hx : x.paths pattern ps segments = .ok out) :
    ∃ out', y.paths pattern ps' segments = .ok out' ∧ ∀ p, p ∈ out ↔ p ∈ out' := by
  induction segments generalizing ps ps' with
  | nil =>
    cases hx
    exact ⟨ps', rfl, hps⟩
  | cons segment segments ih =>
    rw [Expander.paths] at hx
    split at hx
    · cases hx
    · rename_i longer hl
      obtain ⟨hall, rfl⟩ := extend_eq_ok_iff.1 hl
      have hl' := extend_eq_ok_iff.2
        ⟨fun p hp => h.options_eq_nil (hall p ((hps p).2 hp)), rfl⟩
      rw [Expander.paths, hl']
      refine ih (fun p => ?_) hx
      simp only [List.mem_eraseDups, List.mem_flatMap, List.mem_map, hps, h.mem_options]

theorem expand_eq_ok {pattern : Pattern} {keys : List Key} (hx : x.expand pattern = .ok keys) :
    ∃ out, x.paths pattern [[]] pattern.segments = .ok out ∧
      keys.Perm (out.map Key.ofSegments) := by
  unfold Expander.expand at hx
  cases hp : x.paths pattern [[]] pattern.segments with
  | error e =>
    rw [hp] at hx
    cases hx
  | ok out =>
    rw [hp] at hx
    cases hx
    exact ⟨out, rfl, List.mergeSort_perm _ _⟩

/-- Alike expanders expand the same patterns to the same keys. -/
theorem Alike.expand (h : Alike x y) {pattern : Pattern} {keys : List Key}
    (hx : x.expand pattern = .ok keys) :
    ∃ keys', y.expand pattern = .ok keys' ∧ ∀ key, key ∈ keys ↔ key ∈ keys' := by
  obtain ⟨out, hout, hperm⟩ := expand_eq_ok hx
  obtain ⟨out', hout', hmem⟩ := h.paths (fun _ => Iff.rfl) hout
  unfold Expander.expand
  rw [hout']
  refine ⟨_, rfl, fun key => ?_⟩
  simp only [hperm.mem_iff, List.mem_mergeSort, List.mem_map, hmem]

theorem paths_ne_nil {pattern : Pattern} {segments : List Segment} {ps out : List (List String)}
    (hps : ps ≠ []) (hx : x.paths pattern ps segments = .ok out) : out ≠ [] := by
  induction segments generalizing ps with
  | nil =>
    cases hx
    exact hps
  | cons segment segments ih =>
    rw [Expander.paths] at hx
    split at hx
    · cases hx
    · rename_i longer hl
      obtain ⟨hall, rfl⟩ := extend_eq_ok_iff.1 hl
      refine ih ?_ hx
      obtain ⟨p, hp⟩ := List.exists_mem_of_ne_nil ps hps
      obtain ⟨s, hs⟩ := List.exists_mem_of_ne_nil _ (hall p hp)
      have hmem : p ++ [s] ∈ ps.flatMap fun p => (x.options p segment).map (p ++ [·]) :=
        List.mem_flatMap.2 ⟨p, hp, List.mem_map_of_mem hs⟩
      exact List.ne_nil_of_mem (List.mem_eraseDups.2 hmem)

/-- An expansion is never empty. -/
theorem expand_ne_nil {pattern : Pattern} {keys : List Key} (hx : x.expand pattern = .ok keys) :
    keys ≠ [] := by
  obtain ⟨out, hout, hperm⟩ := expand_eq_ok hx
  have hne := paths_ne_nil (List.cons_ne_nil [] []) hout
  intro hnil
  rw [hnil, List.nil_perm, List.map_eq_nil_iff] at hperm
  exact hne hperm

/-- A pattern stands for a key. -/
def Yields (x : Expander) (pattern : Pattern) (key : Key) : Prop :=
  ∃ keys, x.expand pattern = .ok keys ∧ key ∈ keys

theorem Alike.yields (h : Alike x y) {pattern : Pattern} {key : Key} :
    x.Yields pattern key ↔ y.Yields pattern key := by
  constructor
  · rintro ⟨keys, hk, hm⟩
    obtain ⟨keys', hk', hmem⟩ := h.expand hk
    exact ⟨keys', hk', (hmem key).1 hm⟩
  · rintro ⟨keys, hk, hm⟩
    obtain ⟨keys', hk', hmem⟩ := h.symm.expand hk
    exact ⟨keys', hk', (hmem key).1 hm⟩

theorem Alike.exists_expand (h : Alike x y) {pattern : Pattern} :
    (∃ keys, x.expand pattern = .ok keys) ↔ ∃ keys, y.expand pattern = .ok keys :=
  ⟨fun ⟨_, hk⟩ => (h.expand hk).imp fun _ h => h.1,
    fun ⟨_, hk⟩ => (h.symm.expand hk).imp fun _ h => h.1⟩

end

/-- Only the set of root keys matters to an expander. -/
theorem alike_ofKeys {h h' : Hierarchy} (hk : ∀ id, h.kids id = h'.kids id) {keys keys' : List String}
    (hkeys : ∀ key, key ∈ keys ↔ key ∈ keys') : Alike (ofKeys h keys) (ofKeys h' keys') := by
  refine ⟨hk, fun segments => ?_⟩
  simp only [ofKeys, List.mem_filter, List.mem_map, hkeys]

end ConfigCompiler.Expander
