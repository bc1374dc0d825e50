import ConfigCompiler.Pattern.Basic
import ConfigCompiler.Proofs.Key.Segments

/-!
# Parsing patterns

A text is parsed to the segments that it spells: a pattern comes out of a text if and only if its segments are
spellable and their texts are the pieces of the text (`Pattern.parse_eq_ok_iff`). So nothing is lost in
parsing (`Pattern.text_of_parse`), and the texts of concrete patterns are those whose pieces are all plain
(`Pattern.exists_concrete_iff`).
-/

namespace ConfigCompiler

namespace Segment

/-- A text that stands for itself as a segment. -/
structure IsPlain (s : String) : Prop where
  ne_empty : s ≠ ""
  sigil : s.toList.head? ≠ some Segment.sigil
  wildcard : wildcardChar ∉ s.toList

/-- A text can spell the segment. -/
def Spellable : Segment → Prop
  | literal s => IsPlain s
  | .wildcard => True
  | node name => name ≠ "" ∧ wildcardChar ∉ name.toList

end Segment

namespace Pattern

theorem spellable_of_parseSegment {pattern piece : String} {position : Nat} {g : Segment}
    (h : parseSegment pattern position piece = .ok g) : g.Spellable ∧ g.text = piece := by
  unfold parseSegment at h
  split at h
  · cases h
  · rename_i c cs hpiece
    have hofList : String.ofList (c :: cs) = piece := by rw [← hpiece, String.ofList_toList]
    split at h
    · rename_i hc
      obtain ⟨rfl, rfl⟩ := hc
      cases h
      exact ⟨trivial, hofList⟩
    · split at h
      · cases h
      · rename_i hstar
        split at h
        · rename_i hc
          split at h
          · cases h
          · rename_i hcs
            cases h
            refine ⟨⟨?_, ?_⟩, ?_⟩
            · intro hnil
              rw [String.ofList_eq_empty_iff] at hnil
              exact hcs hnil
            · rw [String.toList_ofList]
              exact fun hm => hstar (List.mem_cons_of_mem c hm)
            · rw [Segment.text, String.toList_ofList, ← hc, hofList]
        · rename_i hc
          cases h
          refine ⟨⟨?_, ?_, ?_⟩, rfl⟩
          · rintro rfl
            cases hpiece
          · rw [hpiece]
            exact fun hhead => hc (Option.some.inj hhead)
          · rw [hpiece]
            exact hstar

theorem parseSegment_text (pattern : String) (position : Nat) {g : Segment} (hg : g.Spellable) :
    parseSegment pattern position g.text = .ok g := by
  unfold parseSegment
  cases g with
  | literal s =>
    simp only [Segment.text]
    split
    · rename_i hnil
      exact absurd (String.toList_eq_nil_iff.1 hnil) hg.ne_empty
    · rename_i c cs hcs
      have hstar := hg.wildcard
      have hsigil := hg.sigil
      rw [hcs] at hstar hsigil
      rw [if_neg, if_neg hstar, if_neg]
      · exact fun hc => hsigil (congrArg some hc)
      · rintro ⟨rfl, -⟩
        exact hstar List.mem_cons_self
  | wildcard => rfl
  | node name =>
    obtain ⟨hne, hstar⟩ := hg
    have hmem : Segment.wildcardChar ∉ Segment.sigil :: name.toList := by
      rw [List.mem_cons, not_or]
      exact ⟨by decide, hstar⟩
    have hnil : name.toList ≠ [] := fun h => hne (String.toList_eq_nil_iff.1 h)
    simp only [Segment.text, String.toList_ofList]
    rw [if_neg, if_neg hmem, if_pos trivial, if_neg hnil, String.ofList_toList]
    exact fun h => absurd h.1 (by decide)

theorem parsePieces_eq_ok_iff {pattern : String} {position : Nat} {pieces : List String}
    {gs : List Segment} : parsePieces pattern position pieces = .ok gs ↔
      (∀ g ∈ gs, g.Spellable) ∧ gs.map Segment.text = pieces := by
  constructor
  · intro h
    induction pieces generalizing position gs with
    | nil =>
      cases h
      exact ⟨fun g hg => absurd hg List.not_mem_nil, rfl⟩
    | cons piece pieces ih =>
      unfold parsePieces at h
      cases hg : parseSegment pattern position piece with
      | error e =>
        rw [hg] at h
        cases h
      | ok g =>
        cases hrest : parsePieces pattern (position + 1) pieces with
        | error e =>
          rw [hg, hrest] at h
          cases h
        | ok rest =>
          rw [hg, hrest] at h
          cases h
          obtain ⟨hspell, htext⟩ := spellable_of_parseSegment hg
          obtain ⟨hall, hmap⟩ := ih hrest
          exact ⟨List.forall_mem_cons.2 ⟨hspell, hall⟩, by rw [List.map_cons, htext, hmap]⟩
  · rintro ⟨hall, rfl⟩
    induction gs generalizing position with
    | nil => rfl
    | cons g gs ih =>
      obtain ⟨hg, hgs⟩ := List.forall_mem_cons.1 hall
      rw [List.map_cons, parsePieces, parseSegment_text pattern position hg, ih hgs]
      rfl

/-- What a text is parsed to. -/
theorem parse_eq_ok_iff {s : String} {p : Pattern} : parse s = .ok p ↔
    (∀ g ∈ p.segments, g.Spellable) ∧ p.segments.map Segment.text = Key.pieces s := by
  rw [← @parsePieces_eq_ok_iff s 0]
  unfold parse
  cases parsePieces s 0 (Key.pieces s) with
  | error e => exact iff_of_false (fun h => nomatch h) fun h => nomatch h
  | ok gs =>
    constructor
    · intro h
      cases h
      rfl
    · intro h
      cases h
      rfl

/-- Nothing is lost in parsing. -/
theorem text_of_parse {s : String} {p : Pattern} (h : parse s = .ok p) : p.text = s := by
  rw [text, (parse_eq_ok_iff.1 h).2, Key.ofSegments_pieces]

/-- The texts of concrete patterns have only plain pieces. -/
theorem exists_concrete_iff {s : String} : (∃ p, parse s = .ok p ∧ p.isConcrete = true) ↔
    ∀ piece ∈ Key.pieces s, Segment.IsPlain piece := by
  constructor
  · rintro ⟨p, hp, hconcrete⟩ piece hpiece
    obtain ⟨hspell, htext⟩ := parse_eq_ok_iff.1 hp
    rw [← htext] at hpiece
    obtain ⟨g, hg, rfl⟩ := List.mem_map.1 hpiece
    have hliteral := List.all_eq_true.1 hconcrete g hg
    have hg := hspell g hg
    cases g with
    | literal t => exact hg
    | wildcard => cases hliteral
    | node name => cases hliteral
  · intro hplain
    refine ⟨⟨(Key.pieces s).map .literal⟩, parse_eq_ok_iff.2 ⟨?_, ?_⟩, ?_⟩
    · intro g hg
      obtain ⟨piece, hpiece, rfl⟩ := List.mem_map.1 hg
      exact hplain piece hpiece
    · rw [List.map_map]
      exact List.map_id'' (fun piece => rfl) _
    · rw [isConcrete, List.all_map]
      exact List.all_eq_true.2 fun piece _ => rfl

end Pattern

end ConfigCompiler
