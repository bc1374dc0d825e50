import ConfigCompiler.Proofs.Pipeline.Meaning

/-!
# Which compiled keys are concrete

A key that a pattern stands for is either a concrete pattern with as many segments, or no pattern at all
because an identifier of the hierarchy put a wildcard inside one of its segments (`keys_concrete`). Building
a hierarchy refuses only the identifier that is a wildcard as a whole: `starred_key` is a key that comes of
another one.
-/

namespace ConfigCompiler

open Store (Sound)

theorem KeyOf.concrete {hierarchy : Hierarchy} {n : Nat} {k : Key} (h : KeyOf hierarchy n k)
    (hstar : ∀ id, ∀ kid ∈ hierarchy.kids id, Segment.wildcardChar ∉ kid.toList) :
    ∃ p, Pattern.parse k.text = .ok p ∧ p.isConcrete = true ∧ p.segments.length = n := by
  have hno : ∀ s ∈ k.segments, Segment.wildcardChar ∉ s.toList := by
    intro s hs hmem
    obtain ⟨id, hid⟩ := h.wildcard s hs hmem
    exact hstar id s hid hmem
  obtain ⟨p, hp⟩ := h.parses.2 hno
  exact ⟨p, hp, h.parsed hp⟩

theorem Stands.keyOf {declared : List (String × List String)} {hierarchy : Hierarchy}
    (hb : Hierarchy.build declared = .ok hierarchy) {root : Entries Value} {r : String × Value} {k : Key}
    (h : Stands hierarchy root r k) :
    ∃ p, Pattern.parse r.1 = .ok p ∧ KeyOf hierarchy p.segments.length k := by
  obtain ⟨-, keys, hx, hk⟩ := h
  unfold Expander.expandText at hx
  cases hp : Pattern.parse r.1 with
  | error e =>
    rw [hp] at hx
    cases hx
  | ok p =>
    rw [hp] at hx
    exact ⟨p, rfl, keyOf_of_mem_expand hb hp hx hk⟩

/--
The keys that a pattern stands for have as many segments as the pattern, and none of their segments is empty,
a wildcard or a token for a node; so have the keys of every compilation. Where no identifier of the hierarchy
has a wildcard in it, all these keys are concrete patterns.
-/
theorem keys_concrete {declared : List (String × List String)} {hierarchy : Hierarchy}
    (hb : Hierarchy.build declared = .ok hierarchy) :
    (∀ {observed text p keys}, Pattern.parse text = .ok p →
      (Expander.ofKeys hierarchy observed).expand p = .ok keys →
      ∀ k ∈ keys, KeyOf hierarchy p.segments.length k) ∧
    (∀ {H : Type} {passes : List (Pass H)} {given : Premises} {q s handles source s' transitions c},
      (∀ p ∈ passes, p.action.IsStep) → given.hierarchy = hierarchy → Value.Proper source →
      Sound (fun _ => True) q s handles → Run.all given s passes source = (s', transitions, .ok c) →
      ∃ root, source = .map root ∧ ∀ k ∈ c.keys, ∃ r ∈ root, ∃ p, Pattern.parse r.1 = .ok p ∧
        KeyOf hierarchy p.segments.length k) ∧
    ((∀ id, ∀ kid ∈ hierarchy.kids id, Segment.wildcardChar ∉ kid.toList) →
      ∀ {n k}, KeyOf hierarchy n k →
        ∃ p, Pattern.parse k.text = .ok p ∧ p.isConcrete = true ∧ p.segments.length = n) := by
  refine ⟨fun hp hx k hk => keyOf_of_mem_expand hb hp hx hk, ?_, fun hstar n k hk => hk.concrete hstar⟩
  intro H passes given q s handles source s' transitions c hsteps hh hp hs hrun
  subst hh
  obtain ⟨hs', hc⟩ := Run.all_traced hsteps hp hs hrun
  obtain ⟨root, hsource, hmeans⟩ := hc.means hp hs'
  refine ⟨root, hsource, fun k hk => ?_⟩
  obtain ⟨r, hr⟩ := hmeans.mem_keys.1 hk
  exact ⟨r, hr.1, hr.keyOf hb⟩

/-- Two children without a wildcard in their identifiers. -/
def region : Hierarchy := ⟨[("region", ["east", "west"]), ("east", []), ("west", [])]⟩

theorem keys_concrete_region : Hierarchy.build [("region", ["east", "west"])] = .ok region ∧
    ∀ k ∈ [Key.mk "east.x", ⟨"west.x"⟩],
      ∃ p, Pattern.parse k.text = .ok p ∧ p.isConcrete = true ∧ p.segments.length = 2 := by
  have hb : Hierarchy.build [("region", ["east", "west"])] = .ok region := by cbv
  have hp : Pattern.parse "@region.x" = .ok ⟨[.node "region", .literal "x"]⟩ := by rfl
  have hpaths : (Expander.ofKeys region []).paths ⟨[.node "region", .literal "x"]⟩ [[]]
      [.node "region", .literal "x"] = .ok [["east", "x"], ["west", "x"]] := by cbv
  have hx : (Expander.ofKeys region []).expand ⟨[.node "region", .literal "x"]⟩ =
      .ok [⟨"east.x"⟩, ⟨"west.x"⟩] := by
    rw [Expander.expand, hpaths]
    exact congrArg Except.ok (List.mergeSort_of_pairwise (by decide))
  have hstar : ∀ e ∈ region.nodes, ∀ kid ∈ e.2, Segment.wildcardChar ∉ kid.toList := by decide
  obtain ⟨hexpand, -, hconcrete⟩ := keys_concrete hb
  refine ⟨hb, fun k hk => hconcrete ?_ (hexpand hp hx k hk)⟩
  intro id kid hkid
  obtain ⟨e, he, hkid⟩ := Hierarchy.mem_of_mem_kids hkid
  exact hstar e he kid hkid

/-- A child with a wildcard inside its identifier. -/
def starred : Hierarchy := ⟨[("region", ["ea*st"]), ("ea*st", [])]⟩

/-- A wildcard inside an identifier gets into a key, and the key is no pattern any more. -/
theorem starred_key : Hierarchy.build [("region", ["ea*st"])] = .ok starred ∧
    Pattern.parse "@region.x" = .ok ⟨[.node "region", .literal "x"]⟩ ∧
    (Expander.ofKeys starred []).expand ⟨[.node "region", .literal "x"]⟩ = .ok [⟨"ea*st.x"⟩] ∧
    Pattern.parse "ea*st.x" = .error (.partialWildcard "ea*st.x" "ea*st") :=
  ⟨by cbv, by rfl, by cbv, by rfl⟩

end ConfigCompiler
