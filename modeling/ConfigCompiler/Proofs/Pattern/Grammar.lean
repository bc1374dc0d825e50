import ConfigCompiler.Proofs.Key.Ancestors
import ConfigCompiler.Proofs.Pattern.Parse

/-!
# The grammar of patterns

The pieces of a text are read one by one: a piece is a segment (`Segment.IsPiece`) or has one fault
(`Pattern.Fault`), and the leftmost fault decides the error (`Pattern.parsePieces_error`). What a text is parsed to
is the only list of segments that is written like the text (`Pattern.eq_of_written`), so parsing accepts exactly
the texts made of pieces, and loses nothing (`Pattern.parse_grammar`).
-/

namespace ConfigCompiler

namespace Segment

/-- The pieces that stand for segments: a wildcard, a node after a sigil, or a literal. -/
inductive IsPiece : String → Prop
  | wildcard : IsPiece "*"
  | node {name : String} : name ≠ "" → wildcardChar ∉ name.toList → IsPiece ("@" ++ name)
  | literal {s : String} : IsPlain s → IsPiece s

/-- A segment that is written as one piece, and read back from it. -/
def IsWritten : Segment → Prop
  | literal s => IsPlain s ∧ Key.separator ∉ s.toList
  | .wildcard => True
  | node name => name ≠ "" ∧ wildcardChar ∉ name.toList ∧ Key.separator ∉ name.toList

theorem text_node (name : String) : (node name).text = "@" ++ name := by
  rw [← String.toList_inj, text, String.toList_ofList, String.toList_append]
  rfl

theorem isPiece_iff {piece : String} : IsPiece piece ↔ ∃ g : Segment, g.Spellable ∧ g.text = piece := by
  constructor
  · intro h
    cases h with
    | wildcard => exact ⟨.wildcard, trivial, rfl⟩
    | @node name hne hstar => exact ⟨.node name, ⟨hne, hstar⟩, text_node name⟩
    | literal hs => exact ⟨.literal piece, hs, rfl⟩
  · rintro ⟨g, hg, rfl⟩
    cases g with
    | literal s => exact .literal hg
    | wildcard => exact .wildcard
    | node name => exact text_node name ▸ .node hg.1 hg.2

theorem isWritten_iff {g : Segment} : g.IsWritten ↔ g.Spellable ∧ Key.separator ∉ g.text.toList := by
  cases g with
  | literal s => exact Iff.rfl
  | wildcard => exact iff_of_true trivial ⟨trivial, by decide⟩
  | node name =>
    have hsigil : Key.separator ≠ sigil := by decide
    rw [IsWritten, Spellable, and_assoc, text, String.toList_ofList, List.mem_cons, not_or, and_iff_right hsigil]

end Segment

namespace Pattern

open Segment (IsPiece)

/-- What is wrong with a piece that is no segment. -/
inductive Fault (pattern : String) (position : Nat) : (piece : String) → PatternError → Prop
  | empty : Fault pattern position "" (.emptySegment pattern position)
  | wildcard {piece : String} : Segment.wildcardChar ∈ piece.toList → piece ≠ "*" →
      Fault pattern position piece (.partialWildcard pattern piece)
  | unnamed : Fault pattern position "@" (.emptyHierarchyToken pattern position)

theorem parseSegment_of_fault {pattern piece : String} {position : Nat} {e : PatternError}
    (h : Fault pattern position piece e) : parseSegment pattern position piece = .error e := by
  cases h with
  | empty => rfl
  | wildcard hstar hne =>
    unfold parseSegment
    split
    · rename_i hnil
      rw [hnil] at hstar
      exact absurd hstar List.not_mem_nil
    · rename_i c cs hcs
      rw [if_neg, if_pos (hcs ▸ hstar)]
      rintro ⟨rfl, rfl⟩
      exact hne (String.toList_inj.1 hcs)
  | unnamed => rfl

theorem fault_of_parseSegment {pattern piece : String} {position : Nat} {e : PatternError}
    (h : parseSegment pattern position piece = .error e) : Fault pattern position piece e := by
  unfold parseSegment at h
  split at h
  · rename_i hnil
    obtain rfl := String.toList_eq_nil_iff.1 hnil
    cases h
    exact .empty
  · rename_i c cs hcs
    split at h
    · cases h
    · rename_i hlone
      split at h
      · rename_i hstar
        cases h
        refine .wildcard (hcs ▸ hstar) ?_
        rintro rfl
        obtain ⟨rfl, rfl⟩ := List.cons.inj hcs
        exact hlone ⟨rfl, rfl⟩
      · split at h
        · rename_i hc
          split at h
          · rename_i hcs'
            obtain rfl : piece = "@" := String.toList_inj.1 (by rw [hcs, hc, hcs']; rfl)
            cases h
            exact .unnamed
          · cases h
        · cases h

theorem isPiece_of_parseSegment {pattern piece : String} {position : Nat} {g : Segment}
    (h : parseSegment pattern position piece = .ok g) : IsPiece piece :=
  Segment.isPiece_iff.2 ⟨g, spellable_of_parseSegment h⟩

/-- A piece is a segment or has a fault. -/
theorem Fault.not_isPiece {pattern piece : String} {position : Nat} {e : PatternError}
    (h : Fault pattern position piece e) : ¬ IsPiece piece := by
  intro hpiece
  obtain ⟨g, hg, rfl⟩ := Segment.isPiece_iff.1 hpiece
  have hok := parseSegment_text pattern position hg
  rw [parseSegment_of_fault h] at hok
  cases hok

/-! ## All pieces -/

theorem exists_parsePieces_iff {pattern : String} {position : Nat} {pieces : List String} :
    (∃ gs, parsePieces pattern position pieces = .ok gs) ↔ ∀ piece ∈ pieces, IsPiece piece := by
  simp only [parsePieces_eq_ok_iff]
  constructor
  · rintro ⟨gs, hgs, rfl⟩ piece hpiece
    obtain ⟨g, hg, rfl⟩ := List.mem_map.1 hpiece
    exact Segment.isPiece_iff.2 ⟨g, hgs g hg, rfl⟩
  · intro h
    induction pieces with
    | nil => exact ⟨[], fun g hg => absurd hg List.not_mem_nil, rfl⟩
    | cons piece pieces ih =>
      obtain ⟨hpiece, hpieces⟩ := List.forall_mem_cons.1 h
      obtain ⟨g, hg, rfl⟩ := Segment.isPiece_iff.1 hpiece
      obtain ⟨gs, hgs, rfl⟩ := ih hpieces
      exact ⟨g :: gs, List.forall_mem_cons.2 ⟨hg, hgs⟩, rfl⟩

/-- The error is that of a piece which has only segments before it. -/
theorem parsePieces_error {pattern : String} {position : Nat} {pieces : List String} {e : PatternError}
    (h : parsePieces pattern position pieces = .error e) : ∃ before piece after,
      pieces = before ++ piece :: after ∧ (∀ p ∈ before, IsPiece p) ∧
        Fault pattern (position + before.length) piece e := by
  induction pieces generalizing position with
  | nil => cases h
  | cons piece pieces ih =>
    unfold parsePieces at h
    cases hg : parseSegment pattern position piece with
    | error e' =>
      rw [hg] at h
      cases h
      exact ⟨[], piece, pieces, rfl, fun p hp => absurd hp List.not_mem_nil, fault_of_parseSegment hg⟩
    | ok g =>
      cases hrest : parsePieces pattern (position + 1) pieces with
      | ok rest =>
        rw [hg, hrest] at h
        cases h
      | error e' =>
        rw [hg, hrest] at h
        cases h
        obtain ⟨before, bad, after, rfl, hbefore, hfault⟩ := ih hrest
        refine ⟨piece :: before, bad, after, rfl,
          List.forall_mem_cons.2 ⟨isPiece_of_parseSegment hg, hbefore⟩, ?_⟩
        rwa [List.length_cons, Nat.add_comm before.length, ← Nat.add_assoc]

theorem parsePieces_of_fault {pattern : String} {position : Nat} {before : List String} {piece : String}
    {after : List String} {e : PatternError} (hbefore : ∀ p ∈ before, IsPiece p)
    (h : Fault pattern (position + before.length) piece e) :
    parsePieces pattern position (before ++ piece :: after) = .error e := by
  induction before generalizing position with
  | nil =>
    rw [List.length_nil, Nat.add_zero] at h
    rw [List.nil_append, parsePieces, parseSegment_of_fault h]
    rfl
  | cons first before ih =>
    obtain ⟨hfirst, hrest⟩ := List.forall_mem_cons.1 hbefore
    obtain ⟨g, hg, rfl⟩ := Segment.isPiece_iff.1 hfirst
    rw [List.length_cons, Nat.add_comm before.length, ← Nat.add_assoc] at h
    rw [List.cons_append, parsePieces, parseSegment_text pattern position hg, ih hrest h]
    rfl

/-! ## Texts -/

theorem exists_parse_iff {s : String} : (∃ p, parse s = .ok p) ↔ ∀ piece ∈ Key.pieces s, IsPiece piece := by
  rw [← @exists_parsePieces_iff s 0]
  unfold parse
  cases parsePieces s 0 (Key.pieces s) with
  | error e => exact iff_of_false (fun h => nomatch h) fun h => nomatch h
  | ok gs => exact iff_of_true ⟨⟨gs⟩, rfl⟩ ⟨gs, rfl⟩

theorem parse_eq_error_iff {s : String} {e : PatternError} : parse s = .error e ↔
    ∃ before piece after, Key.pieces s = before ++ piece :: after ∧ (∀ p ∈ before, IsPiece p) ∧
      Fault s before.length piece e := by
  have hpieces : parse s = .error e ↔ parsePieces s 0 (Key.pieces s) = .error e := by
    unfold parse
    cases parsePieces s 0 (Key.pieces s) with
    | error e' => simp only [bind, Except.bind, Except.error.injEq]
    | ok gs => exact iff_of_false (fun h => nomatch h) fun h => nomatch h
  rw [hpieces]
  constructor
  · intro h
    obtain ⟨before, piece, after, hsplit, hbefore, hfault⟩ := parsePieces_error h
    rw [Nat.zero_add] at hfault
    exact ⟨before, piece, after, hsplit, hbefore, hfault⟩
  · rintro ⟨before, piece, after, hsplit, hbefore, hfault⟩
    rw [hsplit]
    exact parsePieces_of_fault hbefore ((Nat.zero_add _).symm ▸ hfault)

/-- The segments of a pattern are written as they were read. -/
theorem isWritten_of_parse {s : String} {p : Pattern} (h : parse s = .ok p) : ∀ g ∈ p.segments, g.IsWritten := by
  obtain ⟨hspell, htext⟩ := parse_eq_ok_iff.1 h
  intro g hg
  refine Segment.isWritten_iff.2 ⟨hspell g hg, ?_⟩
  exact Key.not_mem_of_mem_pieces (htext ▸ List.mem_map_of_mem hg)

/-- Segments that are written like a pattern's text are the pattern's. -/
theorem eq_of_written {s : String} {p : Pattern} (h : parse s = .ok p) {gs : List Segment}
    (hgs : ∀ g ∈ gs, g.IsWritten) (htext : ".".intercalate (gs.map Segment.text) = s) : gs = p.segments := by
  rw [← Key.text_ofSegments] at htext
  subst htext
  have hne : gs.map Segment.text ≠ [] := by
    intro hnil
    rw [hnil] at h
    cases h
  have hpieces : Key.pieces (Key.ofSegments (gs.map Segment.text)).text = gs.map Segment.text := by
    refine Key.segments_ofSegments hne fun t ht => ?_
    obtain ⟨g, hg, rfl⟩ := List.mem_map.1 ht
    exact (Segment.isWritten_iff.1 (hgs g hg)).2
  have hparse : parse _ = .ok ⟨gs⟩ :=
    parse_eq_ok_iff.2 ⟨fun g hg => (Segment.isWritten_iff.1 (hgs g hg)).1, hpieces.symm⟩
  exact congrArg segments (Except.ok.inj (hparse.symm.trans h))

/--
Parsing accepts exactly the grammar and loses nothing. A text is parsed just if all its pieces stand for segments.
What it is parsed to is written like the text, has one segment for each piece, and is the only such list of
segments. Otherwise the error is the fault of the leftmost piece that has one.
-/
theorem parse_grammar (s : String) :
    ((∃ p, parse s = .ok p) ↔ ∀ piece ∈ Key.pieces s, IsPiece piece) ∧
    (∀ p, parse s = .ok p →
      ".".intercalate (p.segments.map Segment.text) = s ∧
      p.segments.length = (Key.pieces s).length ∧
      (∀ g ∈ p.segments, g.IsWritten) ∧
      ∀ gs : List Segment, (∀ g ∈ gs, g.IsWritten) → ".".intercalate (gs.map Segment.text) = s → gs = p.segments) ∧
    ∀ e, parse s = .error e ↔
      ∃ before piece after, Key.pieces s = before ++ piece :: after ∧ (∀ p ∈ before, IsPiece p) ∧
        Fault s before.length piece e := by
  refine ⟨exists_parse_iff, fun p hp => ⟨?_, ?_, isWritten_of_parse hp, fun gs => eq_of_written hp⟩,
    fun e => parse_eq_error_iff⟩
  · rw [← Key.text_ofSegments]
    exact text_of_parse hp
  · rw [← (parse_eq_ok_iff.1 hp).2, List.length_map]

/-- A text is read by writing it; in another, a star after a sigil comes before an empty piece. -/
theorem parse_grammar_zone :
    parse "@zone.*.a" = .ok ⟨[.node "zone", .wildcard, .literal "a"]⟩ ∧
    parse "a.@*.." = .error (.partialWildcard "a.@*.." "@*") := by
  have ha : Segment.IsPlain "a" := ⟨by decide, by decide, by decide⟩
  constructor
  · obtain ⟨haccepts, hparsed, -⟩ := parse_grammar "@zone.*.a"
    have hpieces : Key.pieces "@zone.*.a" = ["@" ++ "zone", "*", "a"] := by decide
    obtain ⟨p, hp⟩ := haccepts.2 (by
      rw [hpieces]
      simp only [List.forall_mem_cons]
      exact ⟨.node (by decide) (by decide), .wildcard, .literal ha, fun _ h => absurd h List.not_mem_nil⟩)
    have hwritten : ∀ g ∈ [Segment.node "zone", .wildcard, .literal "a"], g.IsWritten := by
      simp only [List.forall_mem_cons]
      exact ⟨⟨by decide, by decide, by decide⟩, trivial, ⟨ha, by decide⟩, fun _ h => absurd h List.not_mem_nil⟩
    rw [hp, (hparsed p hp).2.2.2 _ hwritten (by decide)]
  · refine ((parse_grammar "a.@*..").2.2 _).2 ⟨["a"], "@*", ["", ""], by decide, ?_, .wildcard (by decide) (by decide)⟩
    simpa using IsPiece.literal ha

end Pattern

end ConfigCompiler
