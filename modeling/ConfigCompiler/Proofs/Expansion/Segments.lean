import ConfigCompiler.Proofs.Expansion.Expander
import ConfigCompiler.Proofs.Hierarchy.Descendants
import ConfigCompiler.Proofs.Pattern.Parse

/-!
# The segments of expanded keys

A segment of a key comes from one of three places: it is a literal of the pattern, an identifier of the
hierarchy or a segment of an observed key (`Expander.mem_options`). Each of these is checked elsewhere, and
all checks admit only texts that can be segments of a key (`KeySegment`); but identifiers of the hierarchy may
have a wildcard inside, and then the key is no pattern (`KeyOf`).
-/

namespace ConfigCompiler

/-- A text that is not empty, has no dot, and is neither a wildcard nor a token for a node. -/
structure KeySegment (s : String) : Prop where
  ne_empty : s ≠ ""
  separator : Key.separator ∉ s.toList
  sigil : s.toList.head? ≠ some Segment.sigil
  ne_wildcard : s ≠ String.singleton Segment.wildcardChar

/-- What is known of a key that a pattern with `n` segments stands for. -/
structure KeyOf (hierarchy : Hierarchy) (n : Nat) (k : Key) : Prop where
  length : k.segments.length = n
  segments : ∀ s ∈ k.segments, KeySegment s
  /-- Wildcards come from identifiers of the hierarchy only. -/
  wildcard : ∀ s ∈ k.segments, Segment.wildcardChar ∈ s.toList → ∃ id, s ∈ hierarchy.kids id
  /-- As a pattern the key can only be a concrete one. -/
  parsed : ∀ {p}, Pattern.parse k.text = .ok p → p.isConcrete = true ∧ p.segments.length = n
  /-- It is a pattern unless a wildcard stands in it. -/
  parses : (∃ p, Pattern.parse k.text = .ok p) ↔ ∀ s ∈ k.segments, Segment.wildcardChar ∉ s.toList

/-! ## Where segments come from -/

theorem Segment.IsPlain.keySegment {s : String} (h : Segment.IsPlain s) (hdot : Key.separator ∉ s.toList) :
    KeySegment s where
  ne_empty := h.ne_empty
  separator := hdot
  sigil := h.sigil
  ne_wildcard heq := h.wildcard (by rw [heq, String.toList_singleton]; exact List.mem_singleton_self _)

theorem isPlain_of_isPlainSegment {s : String} (h : Expander.isPlainSegment s = true) :
    Segment.IsPlain s := by
  unfold Expander.isPlainSegment at h
  split at h
  · cases h
  · rename_i c cs hs
    simp only [Bool.and_eq_true, bne_iff_ne, Bool.not_eq_true', List.contains_eq_mem,
      decide_eq_false_iff_not] at h
    refine ⟨?_, ?_, ?_⟩
    · rintro rfl
      cases hs
    · rw [hs]
      exact fun hhead => h.1 (Option.some.inj hhead)
    · rw [hs]
      exact h.2

namespace Hierarchy

theorem keySegment_of_isValidId {id : String} (h : isValidId id = true) : KeySegment id := by
  unfold isValidId at h
  split at h
  · cases h
  · rename_i c cs hid
    simp only [Bool.and_eq_true, bne_iff_ne, Bool.not_eq_true', List.contains_eq_mem,
      decide_eq_false_iff_not] at h
    obtain ⟨⟨hstar, hsigil⟩, hdot⟩ := h
    refine ⟨?_, ?_, ?_, ?_⟩
    · rintro rfl
      cases hid
    · rw [hid]
      exact hdot
    · rw [hid]
      exact fun hhead => hsigil (Option.some.inj hhead)
    · rintro rfl
      rw [String.toList_singleton] at hid
      exact hstar hid.symm

end Hierarchy

namespace Expander

variable {x : Expander}

theorem mem_of_next? {path segments : List String} {s : String} (h : next? path segments = some s) :
    s ∈ segments := by
  induction segments generalizing path with
  | nil => cases path <;> cases h
  | cons t segments ih =>
    cases path with
    | nil =>
      cases h
      exact List.mem_cons_self
    | cons p path =>
      unfold next? at h
      split at h
      · exact List.mem_cons_of_mem t (ih h)
      · cases h

/-- What replaces a segment is its own text, an identifier of the hierarchy or an observed segment. -/
theorem mem_options {path : List String} {g : Segment} {t : String} (h : t ∈ x.options path g) :
    g = .literal t ∨ (∃ id, t ∈ x.hierarchy.kids id) ∨ ∃ segments ∈ x.observed, t ∈ segments := by
  cases g with
  | literal s =>
    rw [List.mem_singleton.1 h]
    exact .inl rfl
  | node name =>
    obtain ⟨id, -, hkid⟩ := Relation.TransGen.tail'_iff.1 (Hierarchy.mem_descendants_iff.1 h)
    exact .inr (.inl ⟨id, hkid⟩)
  | wildcard =>
    simp only [options] at h
    split at h
    · obtain ⟨segments, hsegments, hnext⟩ := mem_siblings.1 h
      exact .inr (.inr ⟨segments, hsegments, mem_of_next? hnext⟩)
    · cases hlast : path.getLast? with
      | none =>
        rw [hlast] at h
        exact absurd h List.not_mem_nil
      | some id =>
        rw [hlast] at h
        exact .inr (.inl ⟨id, h⟩)

/-- A path that segments stand for goes on from one of the first paths by a replacement of each segment. -/
theorem mem_paths {pattern : Pattern} {segments : List Segment} {ps out : List (List String)}
    (hx : x.paths pattern ps segments = .ok out) {p : List String} (hp : p ∈ out) :
    ∃ before ∈ ps, ∃ ts, p = before ++ ts ∧
      List.Forall₂ (fun g t => ∃ path, t ∈ x.options path g) segments ts := by
  induction segments generalizing ps with
  | nil =>
    cases hx
    exact ⟨p, hp, [], (List.append_nil p).symm, .nil⟩
  | cons segment segments ih =>
    rw [Expander.paths] at hx
    split at hx
    · cases hx
    · rename_i longer hl
      obtain ⟨-, rfl⟩ := extend_eq_ok_iff.1 hl
      obtain ⟨before, hbefore, ts, rfl, hts⟩ := ih hx
      rw [List.mem_eraseDups, List.mem_flatMap] at hbefore
      obtain ⟨path, hpath, hbefore⟩ := hbefore
      obtain ⟨t, ht, rfl⟩ := List.mem_map.1 hbefore
      exact ⟨path, hpath, t :: ts, List.append_assoc .., .cons ⟨path, ht⟩ hts⟩

theorem mem_expand {pattern : Pattern} {keys : List Key} (hx : x.expand pattern = .ok keys) {k : Key}
    (hk : k ∈ keys) : ∃ ts, k = Key.ofSegments ts ∧
      List.Forall₂ (fun g t => ∃ path, t ∈ x.options path g) pattern.segments ts := by
  obtain ⟨out, hout, hperm⟩ := expand_eq_ok hx
  obtain ⟨p, hp, rfl⟩ := List.mem_map.1 (hperm.mem_iff.1 hk)
  obtain ⟨before, hbefore, ts, rfl, hts⟩ := mem_paths hout hp
  rw [List.mem_singleton.1 hbefore]
  exact ⟨ts, rfl, hts⟩

end Expander

/-! ## Keys of expansions -/

theorem exists_of_forall₂_mem {α β : Type} {R : α → β → Prop} {xs : List α} {ys : List β}
    (h : List.Forall₂ R xs ys) {y : β} (hy : y ∈ ys) : ∃ x ∈ xs, R x y := by
  induction h with
  | nil => cases hy
  | @cons a b xs ys hr _ ih =>
    rcases List.mem_cons.1 hy with rfl | hy
    · exact ⟨a, List.mem_cons_self, hr⟩
    · obtain ⟨x, hx, hr⟩ := ih hy
      exact ⟨x, List.mem_cons_of_mem a hx, hr⟩

section
variable {declared : List (String × List String)} {hierarchy : Hierarchy}

/-- What the segments of a key are, wherever they come from. -/
theorem keySegment_of_mem_options (hb : Hierarchy.build declared = .ok hierarchy) {observed : List String}
    {path : List String} {g : Segment} {t : String} (hg : g.Spellable)
    (hdot : Key.separator ∉ g.text.toList)
    (ht : t ∈ (Expander.ofKeys hierarchy observed).options path g) :
    KeySegment t ∧ (Segment.wildcardChar ∈ t.toList → ∃ id, t ∈ hierarchy.kids id) := by
  rcases Expander.mem_options ht with rfl | ⟨id, hkid⟩ | ⟨segments, hsegments, hmem⟩
  · have hplain : Segment.IsPlain t := hg
    exact ⟨hplain.keySegment hdot, fun hstar => absurd hstar hplain.wildcard⟩
  · exact ⟨Hierarchy.keySegment_of_isValidId (Hierarchy.isValidId_of_kids hb hkid), fun _ => ⟨id, hkid⟩⟩
  · obtain ⟨hpieces, hall⟩ := List.mem_filter.1 hsegments
    obtain ⟨key, -, rfl⟩ := List.mem_map.1 hpieces
    have hplain := isPlain_of_isPlainSegment (List.all_eq_true.1 hall t hmem)
    exact ⟨hplain.keySegment (Key.not_mem_of_mem_pieces hmem), fun hstar => absurd hstar hplain.wildcard⟩

/-- A pattern whose segments could be segments of a key consists of literals. -/
theorem isConcrete_of_keySegments {p : Pattern} (hp : ∀ g ∈ p.segments, KeySegment g.text) :
    p.isConcrete = true := by
  refine List.all_eq_true.2 fun g hg => ?_
  have hkey := hp g hg
  cases g with
  | literal s => rfl
  | wildcard => exact absurd rfl hkey.ne_wildcard
  | node name =>
    refine absurd ?_ hkey.sigil
    rw [Segment.text, String.toList_ofList]
    rfl

theorem keyOf_ofSegments {n : Nat} {ts : List String} (hne : ts ≠ []) (hlen : ts.length = n)
    (hts : ∀ t ∈ ts, KeySegment t)
    (hstar : ∀ t ∈ ts, Segment.wildcardChar ∈ t.toList → ∃ id, t ∈ hierarchy.kids id) :
    KeyOf hierarchy n (Key.ofSegments ts) := by
  have hsegments : (Key.ofSegments ts).segments = ts :=
    Key.segments_ofSegments hne fun t ht => (hts t ht).separator
  have hpieces : Key.pieces (Key.ofSegments ts).text = ts := hsegments
  have hparsed {p : Pattern} (hp : Pattern.parse (Key.ofSegments ts).text = .ok p) :
      p.isConcrete = true ∧ p.segments.length = n := by
    obtain ⟨-, htexts⟩ := Pattern.parse_eq_ok_iff.1 hp
    rw [hpieces] at htexts
    refine ⟨isConcrete_of_keySegments fun g hg => hts _ ?_, ?_⟩
    · rw [← htexts]
      exact List.mem_map_of_mem hg
    · rw [← hlen, ← htexts, List.length_map]
  exact
    { length := by rw [hsegments, hlen]
      segments := by rwa [hsegments]
      wildcard := by rwa [hsegments]
      parsed := hparsed
      parses := by
        have hconcrete := @Pattern.exists_concrete_iff (Key.ofSegments ts).text
        rw [hpieces] at hconcrete
        rw [hsegments]
        constructor
        · rintro ⟨p, hp⟩ t ht
          exact (hconcrete.1 ⟨p, hp, (hparsed hp).1⟩ t ht).wildcard
        · intro hno
          obtain ⟨p, hp, -⟩ := hconcrete.2 fun t ht =>
            ⟨(hts t ht).ne_empty, (hts t ht).sigil, hno t ht⟩
          exact ⟨p, hp⟩ }

/-- The keys that a pattern stands for. -/
theorem keyOf_of_mem_expand (hb : Hierarchy.build declared = .ok hierarchy) {observed : List String}
    {text : String} {p : Pattern} (hp : Pattern.parse text = .ok p) {keys : List Key}
    (hx : (Expander.ofKeys hierarchy observed).expand p = .ok keys) {k : Key} (hk : k ∈ keys) :
    KeyOf hierarchy p.segments.length k := by
  obtain ⟨hspell, htexts⟩ := Pattern.parse_eq_ok_iff.1 hp
  obtain ⟨ts, rfl, hts⟩ := Expander.mem_expand hx hk
  have hne : ts ≠ [] := by
    rintro rfl
    rw [List.forall₂_nil_right_iff.1 hts] at htexts
    exact Key.pieces_ne_nil text htexts.symm
  have hall : ∀ t ∈ ts,
      KeySegment t ∧ (Segment.wildcardChar ∈ t.toList → ∃ id, t ∈ hierarchy.kids id) := by
    intro t ht
    obtain ⟨g, hg, path, hoption⟩ := exists_of_forall₂_mem hts ht
    have hdot : Key.separator ∉ g.text.toList := by
      have hpiece : g.text ∈ Key.pieces text := htexts ▸ List.mem_map_of_mem hg
      exact Key.not_mem_of_mem_pieces hpiece
    exact keySegment_of_mem_options hb (hspell g hg) hdot hoption
  exact keyOf_ofSegments hne hts.length_eq.symm (fun t ht => (hall t ht).1) fun t ht => (hall t ht).2

end

end ConfigCompiler
