import Mathlib.Computability.Primrec.List
import Mathlib.Data.List.Permutation
import ConfigCompiler.Proofs.Expansion.Segments

/-!
# What patterns stand for

`Segment.Fits` says what a segment of a pattern may stand for after the first segments of a key, without a
look at how it is found: it agrees with the options of an expander (`Expander.mem_options_iff`). A list of
segments that fit matches the front of a pattern (`Pattern.Matches`), and is stuck if no segment more fits
(`Pattern.Stuck`). The paths of an expander are the matches of each length in turn, up to the first length at
which one is stuck (`Expander.paths_cases`), so a pattern is ambiguous just if it has a match that is stuck,
and else its keys are those of its full matches (`Expander.expand_matches`).
-/

namespace ConfigCompiler

/-- A concrete key was observed that begins with the segments of a path and then `t`. -/
def Seen (observed path : List String) (t : String) : Prop :=
  ∃ key ∈ observed, (∃ p, Pattern.parse key = .ok p ∧ p.isConcrete = true) ∧
    path ++ [t] <+: (Key.mk key).segments

/-- What a segment of a pattern may stand for after the segments of a path. -/
def Segment.Fits (h : Hierarchy) (observed path : List String) : Segment → String → Prop
  | .literal s, t => t = s
  | .node name, t => Relation.TransGen h.Child name t
  | .wildcard, t =>
    (∃ last, path.getLast? = some last ∧ h.Child last t) ∨
      (¬ ∃ last kid, path.getLast? = some last ∧ h.Child last kid) ∧ Seen observed path t

namespace Pattern

/-- Each segment fits after those before it; there may be fewer segments than in the pattern. -/
structure Matches (h : Hierarchy) (observed : List String) (p : Pattern) (ts : List String) : Prop where
  length_le : ts.length ≤ p.segments.length
  fits : ∀ (i : Nat) (g : Segment) (t : String), p.segments[i]? = some g → ts[i]? = some t →
    g.Fits h observed (ts.take i) t

/-- A match of the front of the pattern that does not go on. -/
def Stuck (h : Hierarchy) (observed : List String) (p : Pattern) (ts : List String) : Prop :=
  p.Matches h observed ts ∧ ts.length < p.segments.length ∧ ∀ t, ¬ p.Matches h observed (ts ++ [t])

section
variable {h : Hierarchy} {observed : List String} {p : Pattern} {ts : List String} {t : String}

theorem matches_nil : p.Matches h observed [] :=
  ⟨Nat.zero_le _, fun i g t _ ht => by simp at ht⟩

theorem matches_append_singleton : p.Matches h observed (ts ++ [t]) ↔
    p.Matches h observed ts ∧ ∃ g, p.segments[ts.length]? = some g ∧ g.Fits h observed ts t := by
  constructor
  · intro hm
    have hlen := hm.length_le
    rw [List.length_append, List.length_singleton] at hlen
    refine ⟨⟨by omega, fun i g s hg hs => ?_⟩, p.segments[ts.length], List.getElem?_eq_getElem hlen, ?_⟩
    · have hi : i < ts.length := (List.getElem?_eq_some_iff.1 hs).1
      have hfits := hm.fits i g s hg ((List.getElem?_append_left hi).trans hs)
      rwa [List.take_append_of_le_length (by omega)] at hfits
    · have hfits := hm.fits ts.length _ t (List.getElem?_eq_getElem hlen) List.getElem?_concat_length
      rwa [List.take_left] at hfits
  · rintro ⟨hm, g, hg, hfits⟩
    have hlt : ts.length < p.segments.length := (List.getElem?_eq_some_iff.1 hg).1
    refine ⟨by rw [List.length_append, List.length_singleton]; omega, fun i g' s hg' hs => ?_⟩
    by_cases hi : i < ts.length
    · rw [List.getElem?_append_left hi] at hs
      rw [List.take_append_of_le_length (by omega)]
      exact hm.fits i g' s hg' hs
    · have hit : i = ts.length := by
        have := (List.getElem?_eq_some_iff.1 hs).1
        rw [List.length_append, List.length_singleton] at this
        omega
      subst hit
      rw [List.getElem?_concat_length] at hs
      rw [List.take_left]
      cases hs
      cases hg.symm.trans hg'
      exact hfits

end

end Pattern

/-! ## Options -/

theorem Segment.IsPlain.isPlainSegment {s : String} (hs : Segment.IsPlain s) :
    Expander.isPlainSegment s = true := by
  unfold Expander.isPlainSegment
  have hsigil := hs.sigil
  have hstar := hs.wildcard
  split
  · rename_i hnil
    exact absurd (String.toList_eq_nil_iff.1 hnil) hs.ne_empty
  · rename_i c cs hcs
    rw [hcs] at hsigil hstar
    simp only [Bool.and_eq_true, bne_iff_ne, Bool.not_eq_true', List.contains_eq_mem, decide_eq_false_iff_not]
    exact ⟨fun hc => hsigil (congrArg some hc), hstar⟩

namespace Expander

theorem next?_eq_some_iff {path segments : List String} {s : String} :
    next? path segments = some s ↔ path ++ [s] <+: segments := by
  induction path generalizing segments with
  | nil =>
    cases segments with
    | nil => simp [next?]
    | cons t segments => simp [next?, eq_comm]
  | cons a path ih =>
    cases segments with
    | nil => simp [next?]
    | cons t segments =>
      rw [next?, List.cons_append, List.cons_prefix_cons]
      split
      · rename_i hat
        simp [hat, ih]
      · rename_i hat
        simp [hat]

section
variable {h : Hierarchy} {observed path : List String} {t : String}

theorem mem_observed_iff {segments : List String} : segments ∈ (ofKeys h observed).observed ↔
    ∃ key ∈ observed, (∃ p, Pattern.parse key = .ok p ∧ p.isConcrete = true) ∧
      (Key.mk key).segments = segments := by
  simp only [ofKeys, List.mem_filter, List.mem_map, List.all_eq_true]
  constructor
  · rintro ⟨⟨key, hkey, rfl⟩, hplain⟩
    refine ⟨key, hkey, Pattern.exists_concrete_iff.2 fun piece hpiece => ?_, rfl⟩
    exact isPlain_of_isPlainSegment (hplain piece hpiece)
  · rintro ⟨key, hkey, hconcrete, rfl⟩
    refine ⟨⟨key, hkey, rfl⟩, fun piece hpiece => ?_⟩
    exact (Pattern.exists_concrete_iff.1 hconcrete piece hpiece).isPlainSegment

theorem mem_siblings_iff : t ∈ (ofKeys h observed).siblings path ↔ Seen observed path t := by
  rw [mem_siblings]
  constructor
  · rintro ⟨segments, hsegments, hnext⟩
    obtain ⟨key, hkey, hconcrete, rfl⟩ := mem_observed_iff.1 hsegments
    exact ⟨key, hkey, hconcrete, next?_eq_some_iff.1 hnext⟩
  · rintro ⟨key, hkey, hconcrete, hprefix⟩
    exact ⟨_, mem_observed_iff.2 ⟨key, hkey, hconcrete, rfl⟩, next?_eq_some_iff.2 hprefix⟩

/-- A segment may be replaced by what it fits. -/
theorem mem_options_iff {g : Segment} :
    t ∈ (ofKeys h observed).options path g ↔ g.Fits h observed path t := by
  cases g with
  | literal s => exact List.mem_singleton
  | node name => exact Hierarchy.mem_descendants_iff
  | wildcard =>
    show t ∈ (if path.getLast?.elim [] h.kids = [] then _ else path.getLast?.elim [] h.kids) ↔ _
    have hkids {kid : String} : kid ∈ path.getLast?.elim [] h.kids ↔
        ∃ last, path.getLast? = some last ∧ h.Child last kid := by
      cases path.getLast? with
      | none => simp
      | some last => simp [Hierarchy.Child]
    by_cases hnil : path.getLast?.elim [] h.kids = []
    · have hno : ¬ ∃ last kid, path.getLast? = some last ∧ h.Child last kid := by
        rintro ⟨last, kid, hlast, hkid⟩
        have := hkids.2 ⟨last, hlast, hkid⟩
        rw [hnil] at this
        exact List.not_mem_nil this
      rw [if_pos hnil, mem_siblings_iff]
      constructor
      · exact fun hseen => .inr ⟨hno, hseen⟩
      · rintro (⟨last, hlast, hkid⟩ | ⟨-, hseen⟩)
        · exact absurd ⟨last, t, hlast, hkid⟩ hno
        · exact hseen
    · obtain ⟨kid, hkid⟩ := List.exists_mem_of_ne_nil _ hnil
      obtain ⟨last, hlast, hchild⟩ := hkids.1 hkid
      rw [if_neg hnil, hkids]
      constructor
      · exact .inl
      · rintro (hchild | ⟨hno, -⟩)
        · exact hchild
        · exact absurd ⟨last, kid, hlast, hchild⟩ hno

theorem options_eq_nil_iff {g : Segment} :
    (ofKeys h observed).options path g = [] ↔ ∀ t, ¬ g.Fits h observed path t := by
  rw [List.eq_nil_iff_forall_not_mem]
  exact forall_congr' fun t => not_congr mem_options_iff

theorem exists_options_eq_nil {x : Expander} {g : Segment} {ps : List (List String)}
    {reason : AmbiguityReason} (he : x.extend g ps = .error reason) :
    ∃ path ∈ ps, x.options path g = [] := by
  refine Classical.byContradiction fun hno => ?_
  have hall : ∀ path ∈ ps, x.options path g ≠ [] := fun path hpath hnil => hno ⟨path, hpath, hnil⟩
  rw [extend_eq_ok_iff.2 ⟨hall, rfl⟩] at he
  cases he

/-! ## Paths -/

/-- All matches of one length more, if there is one for each match. -/
theorem mem_flatMap_options {p : Pattern} {n : Nat} {g : Segment} {ps : List (List String)}
    (hps : ∀ ts, ts ∈ ps ↔ p.Matches h observed ts ∧ ts.length = n) (hg : p.segments[n]? = some g)
    (ts : List String) :
    ts ∈ (ps.flatMap fun path => ((ofKeys h observed).options path g).map (path ++ [·])).eraseDups ↔
      p.Matches h observed ts ∧ ts.length = n + 1 := by
  simp only [List.mem_eraseDups, List.mem_flatMap, List.mem_map, mem_options_iff, hps]
  constructor
  · rintro ⟨path, ⟨hm, rfl⟩, t, hfits, rfl⟩
    exact ⟨Pattern.matches_append_singleton.2 ⟨hm, g, hg, hfits⟩, by simp⟩
  · rintro ⟨hm, hlen⟩
    obtain ⟨path, t, rfl⟩ : ∃ path t, ts = path ++ [t] := by
      rcases List.eq_nil_or_concat ts with rfl | ⟨path, t, rfl⟩
      · cases hlen
      · exact ⟨path, t, List.concat_eq_append⟩
    obtain ⟨hpath, g', hg', hfits⟩ := Pattern.matches_append_singleton.1 hm
    have hn : path.length = n := by simpa using hlen
    rw [hn] at hg'
    cases hg.symm.trans hg'
    exact ⟨path, ⟨hpath, hn⟩, t, hfits, rfl⟩

/--
From all matches of length `n` on, an expander finds all full matches if no match from there on is stuck; and
else it fails on a segment after a match that is stuck.
-/
theorem paths_cases {p : Pattern} {n : Nat} {ps : List (List String)} {rest : List Segment}
    (hps : ∀ ts, ts ∈ ps ↔ p.Matches h observed ts ∧ ts.length = n) (hnodup : ps.Nodup)
    (hn : n ≤ p.segments.length) (hrest : p.segments.drop n = rest) :
    (∃ out, (ofKeys h observed).paths p ps rest = .ok out ∧ out.Nodup ∧
      (∀ ts, ts ∈ out ↔ p.Matches h observed ts ∧ ts.length = p.segments.length) ∧
      ∀ ts, n ≤ ts.length → ¬ p.Stuck h observed ts) ∨
    ∃ ts g reason, p.Stuck h observed ts ∧ p.segments[ts.length]? = some g ∧
      (ofKeys h observed).paths p ps rest = .error (.ambiguousPattern p.text g.text reason) := by
  induction rest generalizing n ps with
  | nil =>
    have hlen : n = p.segments.length := Nat.le_antisymm hn (List.drop_eq_nil_iff.1 hrest)
    refine .inl ⟨ps, rfl, hnodup, hlen ▸ hps, fun ts hle hstuck => ?_⟩
    have := hstuck.2.1
    omega
  | cons g rest ih =>
    have hg : p.segments[n]? = some g := by
      rw [← Nat.add_zero n, ← List.getElem?_drop, hrest]
      rfl
    have hlt : n < p.segments.length := (List.getElem?_eq_some_iff.1 hg).1
    rw [Expander.paths]
    cases he : (ofKeys h observed).extend g ps with
    | error reason =>
      obtain ⟨path, hpath, hnil⟩ := exists_options_eq_nil he
      obtain ⟨hm, rfl⟩ := (hps path).1 hpath
      refine .inr ⟨path, g, reason, ⟨hm, hlt, fun t hmt => ?_⟩, hg, rfl⟩
      obtain ⟨-, g', hg', hfits⟩ := Pattern.matches_append_singleton.1 hmt
      cases hg.symm.trans hg'
      exact options_eq_nil_iff.1 hnil t hfits
    | ok longer =>
      obtain ⟨hall, rfl⟩ := extend_eq_ok_iff.1 he
      have hrest' : p.segments.drop (n + 1) = rest := by
        rw [← List.drop_drop, hrest]
        rfl
      rcases ih (mem_flatMap_options hps hg) nodup_eraseDups hlt hrest' with
        ⟨out, hout, hnd, hmem, hfree⟩ | hstuck
      · refine .inl ⟨out, hout, hnd, hmem, fun ts hle hstuck => ?_⟩
        by_cases heq : ts.length = n
        · refine hall ts ((hps ts).2 ⟨hstuck.1, heq⟩) (options_eq_nil_iff.2 fun t hfits => ?_)
          exact hstuck.2.2 t (Pattern.matches_append_singleton.2 ⟨hstuck.1, g, heq ▸ hg, hfits⟩)
        · exact hfree ts (by omega) hstuck
      · exact .inr hstuck

end

/-! ## Keys -/

section
variable {declared : List (String × List String)} {h : Hierarchy} {observed : List String} {text : String}
variable {p : Pattern} {ts ss : List String}

/-- The segments of a match have no dots. -/
theorem not_mem_of_matches (hb : Hierarchy.build declared = .ok h) (hp : Pattern.parse text = .ok p)
    (hm : p.Matches h observed ts) : ∀ t ∈ ts, Key.separator ∉ t.toList := by
  intro t ht
  obtain ⟨hspell, htexts⟩ := Pattern.parse_eq_ok_iff.1 hp
  obtain ⟨i, hi⟩ := List.getElem?_of_mem ht
  have hlt : i < p.segments.length := by
    have := (List.getElem?_eq_some_iff.1 hi).1
    have := hm.length_le
    omega
  have hg := List.getElem_mem hlt
  have hdot : Key.separator ∉ p.segments[i].text.toList :=
    Key.not_mem_of_mem_pieces (htexts ▸ List.mem_map_of_mem hg)
  have hoption := mem_options_iff.2 (hm.fits i _ t (List.getElem?_eq_getElem hlt) hi)
  exact (keySegment_of_mem_options hb (hspell _ hg) hdot hoption).1.separator

theorem segments_ne_nil (hp : Pattern.parse text = .ok p) : p.segments ≠ [] := by
  intro hnil
  have htexts := (Pattern.parse_eq_ok_iff.1 hp).2
  rw [hnil] at htexts
  exact Key.pieces_ne_nil text htexts.symm

/-- Full matches with one key are the same. -/
theorem eq_of_ofSegments_eq (hb : Hierarchy.build declared = .ok h) (hp : Pattern.parse text = .ok p)
    (hts : p.Matches h observed ts) (htl : ts.length = p.segments.length) (hss : p.Matches h observed ss)
    (hsl : ss.length = p.segments.length) (he : Key.ofSegments ts = Key.ofSegments ss) : ts = ss := by
  have hpos : p.segments.length ≠ 0 := fun hz => segments_ne_nil hp (List.length_eq_zero_iff.1 hz)
  have htn : ts ≠ [] := fun hnil => hpos (by rw [← htl, hnil]; rfl)
  have hsn : ss ≠ [] := fun hnil => hpos (by rw [← hsl, hnil]; rfl)
  rw [← Key.segments_ofSegments htn (not_mem_of_matches hb hp hts), he,
    Key.segments_ofSegments hsn (not_mem_of_matches hb hp hss)]

/-- The keys of the full matches in ascending order; or an error at a segment after a match that is stuck. -/
theorem expand_cases (hb : Hierarchy.build declared = .ok h) (hp : Pattern.parse text = .ok p)
    (observed : List String) :
    (∃ keys, (ofKeys h observed).expand p = .ok keys ∧ (∀ ts, ¬ p.Stuck h observed ts) ∧
      keys.Pairwise (fun a b => a.text < b.text) ∧
      ∀ key, key ∈ keys ↔
        ∃ ts, p.Matches h observed ts ∧ ts.length = p.segments.length ∧ Key.ofSegments ts = key) ∨
    ∃ ts g reason, p.Stuck h observed ts ∧ p.segments[ts.length]? = some g ∧
      (ofKeys h observed).expand p = .error (.ambiguousPattern text g.text reason) := by
  have hstart (ts : List String) : ts ∈ [[]] ↔ p.Matches h observed ts ∧ ts.length = 0 := by
    rw [List.mem_singleton, List.length_eq_zero_iff]
    exact ⟨fun hnil => ⟨hnil ▸ Pattern.matches_nil, hnil⟩, And.right⟩
  rcases paths_cases hstart (List.nodup_singleton []) (Nat.zero_le _) List.drop_zero with
    ⟨out, hout, hnodup, hmem, hfree⟩ | ⟨ts, g, reason, hstuck, hg, hout⟩
  · refine .inl ⟨_, by rw [expand, hout]; rfl, fun ts => hfree ts (Nat.zero_le _), ?_, fun key => ?_⟩
    · have hsorted := Key.pairwise_mergeSort id (out.map Key.ofSegments)
      have hdistinct : (out.map Key.ofSegments).Nodup := by
        refine List.Nodup.map_on (fun ts hts ss hss he => ?_) hnodup
        obtain ⟨hts, htl⟩ := (hmem ts).1 hts
        obtain ⟨hss, hsl⟩ := (hmem ss).1 hss
        exact eq_of_ofSegments_eq hb hp hts htl hss hsl he
      have hperm := List.mergeSort_perm (out.map Key.ofSegments) fun a b => decide (a ≤ b)
      refine (hsorted.and (hperm.nodup_iff.2 hdistinct)).imp fun {a b} hab => ?_
      exact String.not_le.1 fun hba => hab.2 (Key.eq_of_le_of_le hab.1 hba)
    · simp only [List.mem_mergeSort, List.mem_map, hmem, and_assoc]
  · rw [Pattern.text_of_parse hp] at hout
    exact .inr ⟨ts, g, reason, hstuck, hg, by rw [expand, hout]; rfl⟩

/-- Keys are expanded alike whatever the order in which they were observed. -/
theorem expand_congr (hb : Hierarchy.build declared = .ok h) (hp : Pattern.parse text = .ok p)
    {observed observed' : List String} (heq : ∀ key, key ∈ observed ↔ key ∈ observed')
    {keys : List Key} (hx : (ofKeys h observed).expand p = .ok keys) :
    (ofKeys h observed').expand p = .ok keys := by
  have hsorted {observed : List String} {keys : List Key} (hx : (ofKeys h observed).expand p = .ok keys) :
      keys.Pairwise fun a b => a.text < b.text := by
    rcases expand_cases hb hp observed with ⟨ks, hks, -, hs, -⟩ | ⟨ts, g, reason, -, -, he⟩
    · cases hks.symm.trans hx
      exact hs
    · cases he.symm.trans hx
  have hnodup {keys : List Key} (hs : keys.Pairwise fun a b => a.text < b.text) : keys.Nodup := by
    refine List.Pairwise.imp (fun hlt he => ?_) hs
    rw [he] at hlt
    exact String.lt_irrefl _ hlt
  obtain ⟨keys', hx', hmem⟩ := (alike_ofKeys (fun _ => rfl) heq).expand hx
  have hperm : keys.Perm keys' :=
    (List.perm_ext_iff_of_nodup (hnodup (hsorted hx)) (hnodup (hsorted hx'))).2 hmem
  have hkeys : keys = keys' := by
    refine hperm.eq_of_pairwise (fun a b _ _ hab hba => ?_) (hsorted hx) (hsorted hx')
    exact absurd (String.lt_trans hab hba) (String.lt_irrefl _)
  rw [hkeys]
  exact hx'

/--
A pattern is ambiguous just if a match of its front does not go on, and the error names the segment after
such a match. Otherwise its keys are those of its full matches, at least one, each once and in ascending order.
Whether there are keys, and which, does not depend on the order or the repetition of what was observed.
-/
theorem expand_matches (hb : Hierarchy.build declared = .ok h) (hp : Pattern.parse text = .ok p)
    (observed : List String) :
    ((∃ segment reason, (ofKeys h observed).expand p = .error (.ambiguousPattern text segment reason)) ↔
      ∃ ts, p.Stuck h observed ts) ∧
    (∀ e, (ofKeys h observed).expand p = .error e → ∃ ts g reason, p.Stuck h observed ts ∧
      p.segments[ts.length]? = some g ∧ e = .ambiguousPattern text g.text reason) ∧
    ((¬ ∃ ts, p.Stuck h observed ts) → ∃ keys, (ofKeys h observed).expand p = .ok keys ∧ keys ≠ [] ∧
      keys.Pairwise (fun a b => a.text < b.text) ∧
      ∀ key, key ∈ keys ↔
        ∃ ts, p.Matches h observed ts ∧ ts.length = p.segments.length ∧ Key.ofSegments ts = key) ∧
    ∀ observed', (∀ key, key ∈ observed ↔ key ∈ observed') →
      ∀ keys, (ofKeys h observed).expand p = .ok keys ↔ (ofKeys h observed').expand p = .ok keys := by
  refine ⟨?_, ?_, ?_, fun observed' heq keys =>
    ⟨expand_congr hb hp heq, expand_congr hb hp fun key => (heq key).symm⟩⟩
  · rcases expand_cases hb hp observed with ⟨keys, hx, hfree, -⟩ | ⟨ts, g, reason, hstuck, -, hx⟩
    · refine iff_of_false ?_ fun hex => hex.elim hfree
      rintro ⟨segment, reason, he⟩
      cases hx.symm.trans he
    · exact iff_of_true ⟨g.text, reason, hx⟩ ⟨ts, hstuck⟩
  · intro e he
    rcases expand_cases hb hp observed with ⟨keys, hx, -⟩ | ⟨ts, g, reason, hstuck, hg, hx⟩
    · cases hx.symm.trans he
    · cases hx.symm.trans he
      exact ⟨ts, g, reason, hstuck, hg, rfl⟩
  · intro hfree
    rcases expand_cases hb hp observed with ⟨keys, hx, -, hsorted, hmem⟩ | ⟨ts, g, reason, hstuck, -⟩
    · exact ⟨keys, hx, expand_ne_nil hx, hsorted, hmem⟩
    · exact absurd ⟨ts, hstuck⟩ hfree

/-- The node `west` is below `zone`, and `yard` below both. -/
def zones : Hierarchy := ⟨[("zone", ["west"]), ("west", ["yard"]), ("yard", [])]⟩

/-- The wildcard stands for a child of `west`, and after `yard` for what was observed there. -/
theorem expand_matches_zones : ∃ (p : Pattern) (keys : List Key),
    Hierarchy.build [("zone", ["west"]), ("west", ["yard"])] = .ok zones ∧
    Pattern.parse "@zone.*" = .ok p ∧ keys.map Key.text = ["west.yard", "yard.b"] ∧
    (ofKeys zones ["@zone.*", "yard.b"]).expand p = .ok keys ∧
    (ofKeys zones ["yard.b", "@zone.*", "yard.b"]).expand p = .ok keys ∧
    (¬ ∃ ts, p.Stuck zones ["@zone.*", "yard.b"] ts) ∧ ∃ ts, p.Stuck zones [] ts := by
  -- `cbv` goes by the equations of `List.lookup` and `Prod.snd`, which the imports of Mathlib hold
  have hb : Hierarchy.build [("zone", ["west"]), ("west", ["yard"])] = .ok zones := by cbv
  have hp : Pattern.parse "@zone.*" = .ok ⟨[.node "zone", .wildcard]⟩ := by cbv
  have hpaths : (ofKeys zones ["@zone.*", "yard.b"]).paths ⟨[.node "zone", .wildcard]⟩ [[]]
      [.node "zone", .wildcard] = .ok [["west", "yard"], ["yard", "b"]] := by cbv
  have hx : (ofKeys zones ["@zone.*", "yard.b"]).expand ⟨[.node "zone", .wildcard]⟩ =
      .ok [⟨"west.yard"⟩, ⟨"yard.b"⟩] := by
    rw [expand, hpaths]
    exact congrArg Except.ok (List.mergeSort_of_pairwise (by decide))
  have hstuck : (ofKeys zones []).expand ⟨[.node "zone", .wildcard]⟩ =
      .error (.ambiguousPattern "@zone.*" "*" .childlessNode) := by cbv
  obtain ⟨hiff, -, -, hsame⟩ := expand_matches hb hp ["@zone.*", "yard.b"]
  refine ⟨_, _, hb, hp, rfl, hx, (hsame _ (by simp) _).1 hx, ?_,
    (expand_matches hb hp []).1.1 ⟨_, _, hstuck⟩⟩
  intro hex
  obtain ⟨segment, reason, he⟩ := hiff.2 hex
  cases hx.symm.trans he

end

end Expander

end ConfigCompiler
