import Mathlib.Computability.Primrec.List
import Mathlib.Data.List.Permutation
import ConfigCompiler.Proofs.Expansion.Claims

/-!
# Which conflicts are found

Two entries that claim one key with different values should conflict unless their patterns are declared
(`Contested`). A conflict that is reported is always of this kind and names the key and both patterns, but
a claimant is only compared with the holder of the key (`Challenged`): see `conflict_iff_challenged`.
Where compatibility is transitive among the claimants of a key, so in particular where nothing is
declared, every contested key is challenged (`Contested.challenged`).
-/

namespace ConfigCompiler.Expansion

/-- The expander over the root keys of a configuration with these entries. -/
abbrev expanderOf (hierarchy : Hierarchy) (entries : List SourceEntry) : Expander :=
  Expander.ofKeys hierarchy (entries.map (·.pattern.text))

/-- Two entries claim one key with different values, and their patterns are not declared. -/
def Contested (x : Expander) (entries : List SourceEntry) (overrides : Overrides) : Prop :=
  ∃ key i j, i < j ∧ Claims x entries i key ∧ Claims x entries j key ∧ Clash entries overrides i j

/-- An entry claims a key, and clashes with the entry that holds the key at that time. -/
def Challenged (x : Expander) (entries : List SourceEntry) (overrides : Overrides) : Prop :=
  ∃ key i j, Holds x entries key i j ∧ Claims x entries j key ∧ Clash entries overrides i j

def IsConflict (r : Except ExpandError (List Expansion)) : Prop :=
  ∃ key first second, r = .error (.patternConflict key first second)

section
variable {x : Expander} {entries : List SourceEntry} {overrides : Overrides} {key : Key}
variable {i j k m n : Nat}

theorem Challenged.contested : Challenged x entries overrides → Contested x entries overrides :=
  fun ⟨key, i, j, hi, hj, hc⟩ => ⟨key, i, j, hi.lt, hi.claims, hj, hc⟩

theorem Claims.lt_length (h : Claims x entries i key) : i < entries.length := by
  obtain ⟨entry, -, he, -⟩ := h
  exact (List.getElem?_eq_some_iff.1 he).1

/-- If all patterns stand for one key, all entries claim it. -/
theorem claims_iff_of_all {k : Key} (hx : ∀ entry ∈ entries, x.expand entry.pattern = .ok [k]) :
    Claims x entries i key ↔ i < entries.length ∧ key = k := by
  constructor
  · intro h
    have hlt := h.lt_length
    have hkey := (claims_iff (List.getElem?_eq_getElem hlt) (hx _ (List.getElem_mem hlt))).1 h
    exact ⟨hlt, List.mem_singleton.1 hkey⟩
  · rintro ⟨hlt, rfl⟩
    exact ⟨_, _, List.getElem?_eq_getElem hlt, hx _ (List.getElem_mem hlt), List.mem_singleton_self _⟩

theorem peaceful_iff : Peaceful x entries overrides entries.length ↔ ¬ Challenged x entries overrides := by
  constructor
  · rintro hp ⟨key, i, j, hi, hj, hc⟩
    exact hp hj.lt_length hi hj hc
  · exact fun h key i j _ hi hj hc => h ⟨key, i, j, hi, hj, hc⟩

/-! ## Where compatibility is transitive -/

theorem Clash.symm (h : Clash entries overrides i j) : Clash entries overrides j i := by
  obtain ⟨a, b, ha, hb, hv, hc⟩ := h
  exact ⟨b, a, hb, ha, Ne.symm hv, by rw [Overrides.allows_comm, hc]⟩

/-- Among the claimants of a key, compatibility is transitive. -/
def Transitive (x : Expander) (entries : List SourceEntry) (overrides : Overrides) : Prop :=
  ∀ {key i j k}, Claims x entries i key → Claims x entries j key → Claims x entries k key →
    ¬ Clash entries overrides i j → ¬ Clash entries overrides j k → ¬ Clash entries overrides i k

/-- As long as nobody clashes with the holder of a key, all claimants are compatible with it. -/
theorem not_clash_holder (ht : Transitive x entries overrides) (hp : Peaceful x entries overrides n)
    (hm : Claims x entries m key) (hmn : m < n) (hi : Holds x entries key i n) :
    ¬ Clash entries overrides m i := by
  induction n generalizing i m with
  | zero => omega
  | succ n ih =>
    have hp' : Peaceful x entries overrides n := fun hj => hp (by omega)
    by_cases hin : i = n
    · subst hin
      by_cases him : m = i
      · subst him
        rintro ⟨a, b, ha, hb, hv, -⟩
        cases ha.symm.trans hb
        exact hv rfl
      · have hlt : m < i := by omega
        cases hi.takes with
        | first _ hfirst => exact absurd hm (hfirst m hlt)
        | @takeover h _ hh hhi hk hc _ =>
          have hold : Holds x entries key h i := ⟨hh, hhi, hk⟩
          exact ht hm hold.claims hc (ih hp' hm hlt hold) (hp (by omega) hold hc)
    · have hold := hi.of_succ hin
      by_cases hlt : m < n
      · exact ih hp' hm hlt hold
      · obtain rfl : m = n := by omega
        exact fun hc => hp (by omega) hold hm hc.symm

theorem Contested.challenged (ht : Transitive x entries overrides)
    (h : Contested x entries overrides) : Challenged x entries overrides := by
  obtain ⟨key, i, j, hij, hi, hj, hc⟩ := h
  by_cases hp : Peaceful x entries overrides entries.length
  · obtain ⟨h, hh⟩ := exists_holds hi hij
    have hp' : Peaceful x entries overrides j := fun hk => hp (by have := hj.lt_length; omega)
    exact absurd hc (ht hi hh.claims hj (not_clash_holder ht hp' hi hij hh) (hp hj.lt_length hh hj))
  · exact Classical.not_not.1 (mt peaceful_iff.2 hp)

/-- Without declared pairs, compatible entries bind equal values. -/
theorem transitive_none : Transitive x entries Overrides.none := by
  rintro key i j k - hj - hij hjk ⟨a, c, ha, hc, hv, -⟩
  obtain ⟨b, -, hb, -⟩ := hj
  have hno (p q : SourceEntry) : Overrides.allows .none p.pattern.text q.pattern.text = false := rfl
  have hab : a.value = b.value := Classical.not_not.1 fun h => hij ⟨a, b, ha, hb, h, hno a b⟩
  have hbc : b.value = c.value := Classical.not_not.1 fun h => hjk ⟨b, c, hb, hc, h, hno b c⟩
  exact hv (hab.trans hbc)

end

/-! ## Expansion of all entries -/

section
variable {hierarchy : Hierarchy} {entries : List SourceEntry} {overrides : Overrides}

/-- All patterns stand for keys. -/
def AllExpand (x : Expander) (entries : List SourceEntry) : Prop :=
  ∀ entry ∈ entries, ∃ keys, x.expand entry.pattern = .ok keys

/-- With patterns that stand for keys, all that can go wrong is a clash with the holder of a key. -/
theorem ofEntries_cases (overrides : Overrides)
    (hx : AllExpand (expanderOf hierarchy entries) entries) :
    (Peaceful (expanderOf hierarchy entries) entries overrides entries.length ∧
      ∃ expansions, ofEntries hierarchy entries overrides = .ok expansions) ∨
    ∃ key i j a b, Holds (expanderOf hierarchy entries) entries key i j ∧
      Claims (expanderOf hierarchy entries) entries j key ∧ entries[i]? = some a ∧
      entries[j]? = some b ∧ Clash entries overrides i j ∧
      ofEntries hierarchy entries overrides =
        .error (.patternConflict key.text a.pattern.text b.pattern.text) := by
  have hpeace : Peaceful (expanderOf hierarchy entries) entries overrides 0 := fun hj => by omega
  have hall := claimAll_cases (List.drop_zero (l := entries))
    (holderAt_zero (expanderOf hierarchy entries) entries) hpeace
  rcases hall with ⟨holders, hok, -, hp, -⟩ | ⟨e, entry, he, hx', -⟩ | ⟨key, i, j, a, b, hi, hj, ha, hb, hc, herr⟩
  · exact .inl ⟨hp, _, by rw [ofEntries]; simp only [hok]; rfl⟩
  · obtain ⟨keys, hk⟩ := hx entry he
    cases hk.symm.trans hx'
  · exact .inr ⟨key, i, j, a, b, hi, hj, ha, hb, hc, by rw [ofEntries]; simp only [herr]; rfl⟩

theorem isConflict_iff (overrides : Overrides)
    (hx : AllExpand (expanderOf hierarchy entries) entries) :
    IsConflict (ofEntries hierarchy entries overrides) ↔
      Challenged (expanderOf hierarchy entries) entries overrides := by
  rcases ofEntries_cases overrides hx with ⟨hp, expansions, hok⟩ | ⟨key, i, j, a, b, hi, hj, -, -, hc, herr⟩
  · refine iff_of_false ?_ (peaceful_iff.1 hp)
    rintro ⟨key, first, second, h⟩
    cases h.symm.trans hok
  · exact iff_of_true ⟨_, _, _, herr⟩ ⟨key, i, j, hi, hj, hc⟩

/--
A conflict names two undeclared entries with different values and a key that both claim; there is one just
if a claimant clashes with the holder of a key. Wherever compatibility is transitive, that is so just if some
key is contested.
-/
theorem conflict_iff_challenged (hx : AllExpand (expanderOf hierarchy entries) entries) :
    (∀ {text first second},
      ofEntries hierarchy entries overrides = .error (.patternConflict text first second) →
        ∃ key i j a b, i < j ∧ Claims (expanderOf hierarchy entries) entries i key ∧
          Claims (expanderOf hierarchy entries) entries j key ∧ Clash entries overrides i j ∧
          entries[i]? = some a ∧ entries[j]? = some b ∧
          text = key.text ∧ first = a.pattern.text ∧ second = b.pattern.text) ∧
    (IsConflict (ofEntries hierarchy entries overrides) ↔
      Challenged (expanderOf hierarchy entries) entries overrides) ∧
    (Transitive (expanderOf hierarchy entries) entries overrides →
      (IsConflict (ofEntries hierarchy entries overrides) ↔
        Contested (expanderOf hierarchy entries) entries overrides)) := by
  have hiff := isConflict_iff overrides hx
  refine ⟨fun herr => ?_, hiff, fun ht => ?_⟩
  · rcases ofEntries_cases overrides hx with
      ⟨-, expansions, hok⟩ | ⟨key, i, j, a, b, hi, hj, ha, hb, hc, herr'⟩
    · cases herr.symm.trans hok
    · cases herr.symm.trans herr'
      exact ⟨key, i, j, a, b, hi.lt, hi.claims, hj, hc, ha, hb, rfl, rfl, rfl⟩
  · rw [hiff]
    exact ⟨Challenged.contested, Contested.challenged ht⟩

end

/-! ## An undeclared pair that is not found -/

/-- The node `east` lies below both `edge` and `zone`. -/
def shared : Hierarchy := ⟨[("edge", ["east"]), ("zone", ["east"]), ("east", [])]⟩

/-- Three patterns for the key `east.x`. -/
def thrice : List SourceEntry :=
  [⟨⟨[.node "edge", .literal "x"]⟩, ⟨.replicate 32 1⟩⟩,
    ⟨⟨[.node "zone", .literal "x"]⟩, ⟨.replicate 32 2⟩⟩,
    ⟨⟨[.literal "east", .literal "x"]⟩, ⟨.replicate 32 3⟩⟩]

theorem expand_thrice : ∀ entry ∈ thrice,
    (expanderOf shared thrice).expand entry.pattern = .ok [⟨"east.x"⟩] := by
  intro entry he
  simp only [thrice, List.mem_cons, List.not_mem_nil, or_false] at he
  -- `cbv` goes by the equations of `List.lookup` and `Prod.snd`, which the imports of Mathlib hold
  rcases he with rfl | rfl | rfl <;> cbv

theorem allExpand_thrice : AllExpand (expanderOf shared thrice) thrice :=
  fun entry he => ⟨_, expand_thrice entry he⟩

theorem claims_thrice {i : Nat} {key : Key} :
    Claims (expanderOf shared thrice) thrice i key ↔ i < 3 ∧ key = ⟨"east.x"⟩ :=
  claims_iff_of_all expand_thrice

/-- Two of the three pairs are declared. -/
def twoPairs : Overrides := .ofPairs [("@edge.x", "@zone.x"), ("@zone.x", "east.x")]

theorem conflict_iff_challenged_thrice : AllExpand (expanderOf shared thrice) thrice ∧
    IsConflict (ofEntries shared thrice .none) :=
  ⟨allExpand_thrice, ((conflict_iff_challenged allExpand_thrice).2.2 transitive_none).2
    ⟨⟨"east.x"⟩, 0, 1, by decide, claims_thrice.2 (by simp), claims_thrice.2 (by simp),
      _, _, rfl, rfl, by decide, rfl⟩⟩

/-- Nobody clashes with the holder: the first entry has lost the key before the last one comes. -/
theorem peaceful_thrice : Peaceful (expanderOf shared thrice) thrice twoPairs 3 := by
  intro key i j hj hi hc hclash
  obtain ⟨-, rfl⟩ := claims_thrice.1 hc
  obtain ⟨a, b, ha, hb, -, hno⟩ := hclash
  have hij := hi.lt
  have hcases : i = 0 ∧ j = 1 ∨ i = 1 ∧ j = 2 ∨ i = 0 ∧ j = 2 := by omega
  rcases hcases with ⟨rfl, rfl⟩ | ⟨rfl, rfl⟩ | ⟨rfl, rfl⟩
  · cases ha; cases hb; exact absurd hno (by decide)
  · cases ha; cases hb; exact absurd hno (by decide)
  · exact hi.keeps 1 (by decide) (by decide) (claims_thrice.2 (by simp))
      ⟨_, _, rfl, rfl, by decide, by decide⟩

/-- The middle entry takes the key from the first one before the last one comes. -/
theorem contested_without_conflict : Hierarchy.build [("edge", ["east"]), ("zone", ["east"])] = .ok shared ∧
    AllExpand (expanderOf shared thrice) thrice ∧
    Contested (expanderOf shared thrice) thrice twoPairs ∧
    ¬ IsConflict (ofEntries shared thrice twoPairs) := by
  refine ⟨by cbv, allExpand_thrice, ⟨⟨"east.x"⟩, 0, 2, by decide, claims_thrice.2 (by simp),
    claims_thrice.2 (by simp), _, _, rfl, rfl, by decide, by decide⟩, ?_⟩
  rw [isConflict_iff twoPairs allExpand_thrice]
  exact peaceful_iff.1 peaceful_thrice

end ConfigCompiler.Expansion
