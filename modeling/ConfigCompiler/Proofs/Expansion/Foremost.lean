import ConfigCompiler.Proofs.Expansion.Order

/-!
# The most specific claimant of a key

The foremost claimant of a key is the last one of those with the most specific patterns (`Foremost`). The
key should end up with its value (`Resolved`). But a claimant that binds the holder's value is passed over,
however specific its pattern is, and later claimants need only outdo the holder: then its pattern counts for
nothing (`Forgotten`). Apart from this, every claim keeps a key resolved (`Resolved.succ`), so keys are
resolved after each entry just if no claimant is forgotten (`resolved_iff`); and none is if a claimant is never
more specific than an earlier one of the same value (`Antitone.not_forgotten`).
-/

namespace ConfigCompiler.Expansion

/-- The value that the entry at a position binds. -/
def valueAt? (entries : List SourceEntry) (i : Nat) : Option Digest := entries[i]?.map SourceEntry.value

/-- How specific the pattern of the entry at a position is. -/
def specificityAt (entries : List SourceEntry) (i : Nat) : Nat :=
  (entries[i]?.map fun entry => entry.pattern.specificity).getD 0

/-- Of the claimants of a key before the entry at `n`, the last one of those that are the most specific. -/
structure Foremost (x : Expander) (entries : List SourceEntry) (key : Key) (f n : Nat) : Prop where
  claims : Claims x entries f key
  lt : f < n
  foremost : ∀ m < n, Claims x entries m key → specificityAt entries m < specificityAt entries f ∨
    specificityAt entries m = specificityAt entries f ∧ m ≤ f

/-- Before the entry at `n`, a key has the value of its foremost claimant. -/
def Resolved (x : Expander) (entries : List SourceEntry) (key : Key) (n : Nat) : Prop :=
  ∀ h f, Holds x entries key h n → Foremost x entries key f n → valueAt? entries h = valueAt? entries f

/--
The foremost claimant `f` of a key binds the value of its holder `h`, which loses the key to the entry at `n`,
although `f` is more specific than that one.
-/
structure Forgotten (x : Expander) (entries : List SourceEntry) (key : Key) (h f n : Nat) : Prop where
  holds : Holds x entries key h n
  foremost : Foremost x entries key f n
  same : valueAt? entries h = valueAt? entries f
  claims : Claims x entries n key
  outdoes : Outdoes entries n h
  lt : specificityAt entries n < specificityAt entries f

section
variable {x : Expander} {entries : List SourceEntry} {key : Key} {f g h i j n : Nat}

theorem outdoes_iff (hi : Claims x entries i key) (hj : Claims x entries j key) : Outdoes entries j i ↔
    valueAt? entries i ≠ valueAt? entries j ∧ specificityAt entries i ≤ specificityAt entries j := by
  obtain ⟨a, -, ha, -⟩ := hi
  obtain ⟨b, -, hb, -⟩ := hj
  simp [Outdoes, valueAt?, specificityAt, ha, hb]

/-! ## Foremost claimants -/

theorem Foremost.unique (hf : Foremost x entries key f n) (hg : Foremost x entries key g n) : f = g := by
  have hfg := hf.foremost g hg.lt hg.claims
  have hgf := hg.foremost f hf.lt hf.claims
  omega

theorem Foremost.of_succ (hf : Foremost x entries key f (n + 1)) (hn : ¬ Claims x entries n key) :
    Foremost x entries key f n := by
  have hne : f ≠ n := fun he => hn (he ▸ hf.claims)
  have hlt := hf.lt
  exact ⟨hf.claims, by omega, fun m hm => hf.foremost m (by omega)⟩

/-- A claimant that is less specific leaves the foremost one in its place. -/
theorem Foremost.succ (hf : Foremost x entries key f n)
    (hn : Claims x entries n key → specificityAt entries n < specificityAt entries f) :
    Foremost x entries key f (n + 1) := by
  have hlt := hf.lt
  refine ⟨hf.claims, by omega, fun m hm hc => ?_⟩
  rcases Nat.lt_succ_iff_lt_or_eq.1 hm with hlt | rfl
  · exact hf.foremost m hlt hc
  · exact .inl (hn hc)

/-- Any other claimant is the foremost one from then on. -/
theorem Foremost.replaced (hf : Foremost x entries key f n) (hc : Claims x entries n key)
    (hn : specificityAt entries f ≤ specificityAt entries n) : Foremost x entries key n (n + 1) := by
  refine ⟨hc, by omega, fun m hm hcm => ?_⟩
  rcases Nat.lt_succ_iff_lt_or_eq.1 hm with hlt | rfl
  · have := hf.foremost m hlt hcm
    omega
  · exact .inr ⟨rfl, Nat.le_refl m⟩

theorem foremost_of_first (hc : Claims x entries n key) (hfirst : ∀ m < n, ¬ Claims x entries m key) :
    Foremost x entries key n (n + 1) := by
  refine ⟨hc, by omega, fun m hm hcm => ?_⟩
  rcases Nat.lt_succ_iff_lt_or_eq.1 hm with hlt | rfl
  · exact absurd hcm (hfirst m hlt)
  · exact .inr ⟨rfl, Nat.le_refl m⟩

theorem exists_foremost (hi : Claims x entries i key) (hin : i < n) : ∃ f, Foremost x entries key f n := by
  induction n generalizing i with
  | zero => omega
  | succ n ih =>
    by_cases hex : ∃ m < n, Claims x entries m key
    · obtain ⟨m, hlt, hc⟩ := hex
      obtain ⟨f, hf⟩ := ih hc hlt
      by_cases hn : Claims x entries n key → specificityAt entries n < specificityAt entries f
      · exact ⟨f, hf.succ hn⟩
      · obtain ⟨hcn, hle⟩ := Classical.not_imp.1 hn
        exact ⟨n, hf.replaced hcn (Nat.le_of_not_lt hle)⟩
    · have hnot : ¬ i < n := fun hlt => hex ⟨i, hlt, hi⟩
      obtain rfl : i = n := by omega
      exact ⟨i, foremost_of_first hi fun m hlt hc => hex ⟨m, hlt, hc⟩⟩

/-! ## One claim more -/

theorem resolved_zero : Resolved x entries key 0 := fun _ _ hh _ => absurd hh.lt (Nat.not_lt_zero _)

theorem Resolved.of_claimants (hh : Holds x entries key h n) (hf : Foremost x entries key f n)
    (he : valueAt? entries h = valueAt? entries f) : Resolved x entries key n := by
  intro h' f' hh' hf'
  rw [hh'.unique hh, hf'.unique hf]
  exact he

theorem Resolved.succ_of_not_claims (hr : Resolved x entries key n) (hn : ¬ Claims x entries n key) :
    Resolved x entries key (n + 1) := by
  intro h f hh hf
  have hne : h ≠ n := fun he => hn (he ▸ hh.claims)
  exact hr h f (hh.of_succ hne) (hf.of_succ hn)

/-- The first claimant is the holder and the foremost one. -/
theorem resolved_of_first (hc : Claims x entries n key) (hfirst : ∀ m < n, ¬ Claims x entries m key) :
    Resolved x entries key (n + 1) :=
  .of_claimants (holds_of_takes (.first hc hfirst)) (foremost_of_first hc hfirst) rfl

/-- A claim keeps a key resolved, unless by it the foremost claimant is forgotten. -/
theorem Resolved.succ (hr : Resolved x entries key n) (hno : ∀ h f, ¬ Forgotten x entries key h f n) :
    Resolved x entries key (n + 1) := by
  by_cases hc : Claims x entries n key
  · by_cases hex : ∃ m < n, Claims x entries m key
    · obtain ⟨m, hlt, hcm⟩ := hex
      obtain ⟨h, hh⟩ := exists_holds hcm hlt
      obtain ⟨f, hf⟩ := exists_foremost hcm hlt
      have hsame := hr h f hh hf
      have hle := hf.foremost h hh.lt hh.claims
      have hout := outdoes_iff hh.claims hc
      by_cases ho : Outdoes entries n h
      · have hnot : ¬ specificityAt entries n < specificityAt entries f :=
          fun hlt => hno h f ⟨hh, hf, hsame, hc, ho, hlt⟩
        have hh' := holds_of_takes (.takeover hh.takes hh.lt hh.keeps hc ho)
        exact .of_claimants hh' (hf.replaced hc (by omega)) rfl
      · have hh' := hh.succ fun _ => ho
        by_cases hn : specificityAt entries n < specificityAt entries f
        · exact .of_claimants hh' (hf.succ fun _ => hn) hsame
        · -- no less specific than the holder, so it binds the holder's value
          refine .of_claimants hh' (hf.replaced hc (by omega)) (Classical.byContradiction fun hv => ?_)
          exact ho (hout.2 ⟨hv, by omega⟩)
    · exact resolved_of_first hc fun m hm hcm => hex ⟨m, hm, hcm⟩
  · exact hr.succ_of_not_claims hc

theorem Forgotten.not_resolved (hg : Forgotten x entries key h f n) : ¬ Resolved x entries key (n + 1) := by
  intro hr
  have hh' : Holds x entries key n (n + 1) :=
    holds_of_takes (.takeover hg.holds.takes hg.holds.lt hg.holds.keeps hg.claims hg.outdoes)
  have hne := ((outdoes_iff hg.holds.claims hg.claims).1 hg.outdoes).1
  exact hne (hg.same.trans (hr n f hh' (hg.foremost.succ fun _ => hg.lt)).symm)

/-! ## All claims -/

theorem resolved_of_not_forgotten (hno : ∀ m < n, ∀ h f, ¬ Forgotten x entries key h f m) :
    Resolved x entries key n := by
  induction n with
  | zero => exact resolved_zero
  | succ n ih => exact (ih fun m hm => hno m (by omega)).succ (hno n (by omega))

/-- A key is resolved after each entry just if no claimant of it is ever forgotten. -/
theorem resolved_iff : (∀ n, Resolved x entries key n) ↔ ∀ h f n, ¬ Forgotten x entries key h f n := by
  constructor
  · intro hr h f n hg
    exact hg.not_resolved (hr (n + 1))
  · intro hno n
    exact resolved_of_not_forgotten fun m _ h f => hno h f m

/-- A claimant of a key is not more specific than an earlier one that binds the same value. -/
def Antitone (x : Expander) (entries : List SourceEntry) (key : Key) : Prop :=
  ∀ i j, i < j → Claims x entries i key → Claims x entries j key →
    valueAt? entries i = valueAt? entries j → specificityAt entries j ≤ specificityAt entries i

theorem Antitone.not_forgotten (ha : Antitone x entries key) (h f n : Nat) :
    ¬ Forgotten x entries key h f n := by
  induction n using Nat.strongRecOn generalizing h f with
  | _ n ih =>
    intro hg
    have hle := ((outdoes_iff hg.holds.claims hg.claims).1 hg.outdoes).2
    have hlt := hg.lt
    by_cases hhf : h < f
    · have := ha h f hhf hg.holds.claims hg.foremost.claims hg.same
      omega
    · have hne : f ≠ h := by
        rintro rfl
        omega
      -- so the foremost claimant was there when the holder came, and was forgotten then
      cases hg.holds.takes with
      | first _ hfirst => exact hfirst f (by omega) hg.foremost.claims
      | @takeover p _ hp hph hk hc ho =>
        have hhn := hg.holds.lt
        obtain ⟨f', hf'⟩ := exists_foremost hg.foremost.claims (n := h) (by omega)
        have hr : Resolved x entries key h :=
          resolved_of_not_forgotten fun m hm h' f' => ih m (by omega) h' f'
        have hff' := hf'.foremost f (by omega) hg.foremost.claims
        exact ih h hhn p f' ⟨⟨hp, hph, hk⟩, hf', hr p f' ⟨hp, hph, hk⟩ hf', hc, ho, by omega⟩

end

/-! ## The values of an expansion -/

section
variable {hierarchy : Hierarchy} {entries : List SourceEntry} {overrides : Overrides}

/--
A key that an expansion binds has one foremost claimant. It is bound to the value of this one if no claimant
is forgotten, which says as much as that the key has the value of the foremost claimant after each entry. No
claimant is forgotten if none is more specific than an earlier one of the same value.
-/
theorem bound_to_foremost {expansions : List Expansion}
    (hx : ofEntries hierarchy entries overrides = .ok expansions) {key : Key} {i : Nat}
    (hi : ⟨key, i⟩ ∈ expansions) :
    (∃! f, Foremost (expanderOf hierarchy entries) entries key f entries.length) ∧
    ((∀ h f n, ¬ Forgotten (expanderOf hierarchy entries) entries key h f n) →
      ∀ f, Foremost (expanderOf hierarchy entries) entries key f entries.length →
        valueAt? entries i = valueAt? entries f) ∧
    ((∀ n, Resolved (expanderOf hierarchy entries) entries key n) ↔
      ∀ h f n, ¬ Forgotten (expanderOf hierarchy entries) entries key h f n) ∧
    (Antitone (expanderOf hierarchy entries) entries key →
      ∀ h f n, ¬ Forgotten (expanderOf hierarchy entries) entries key h f n) := by
  have hh := (isOutcome_of_ok hx).2.mem_iff.1 hi
  obtain ⟨f, hf⟩ := exists_foremost hh.claims hh.lt
  have hval (hno : ∀ h f n, ¬ Forgotten (expanderOf hierarchy entries) entries key h f n) (g : Nat)
      (hg : Foremost (expanderOf hierarchy entries) entries key g entries.length) :
      valueAt? entries i = valueAt? entries g := resolved_iff.2 hno entries.length i g hh hg
  exact ⟨⟨f, hf, fun g hg => hg.unique hf⟩, hval, resolved_iff, Antitone.not_forgotten⟩

end

/-! ## A claimant that is forgotten -/

/-- The values of the three entries differ, and the last of them is the most specific one. -/
theorem bound_to_foremost_thrice : ∃ expansions, ofEntries shared thrice twoPairs = .ok expansions ∧
    ⟨⟨"east.x"⟩, 2⟩ ∈ expansions ∧ Antitone (expanderOf shared thrice) thrice ⟨"east.x"⟩ ∧
    ∀ f, Foremost (expanderOf shared thrice) thrice ⟨"east.x"⟩ f 3 →
      valueAt? thrice 2 = valueAt? thrice f := by
  have hclaims {i : Nat} (hi : i < 3) : Claims (expanderOf shared thrice) thrice i ⟨"east.x"⟩ :=
    claims_thrice.2 ⟨hi, rfl⟩
  have h₀ : Takes (expanderOf shared thrice) thrice ⟨"east.x"⟩ 0 :=
    .first (hclaims (by decide)) (by simp)
  have h₁ : Takes (expanderOf shared thrice) thrice ⟨"east.x"⟩ 1 :=
    .takeover h₀ (by decide) (fun m _ _ => by omega) (hclaims (by decide))
      ⟨_, _, rfl, rfl, by decide, by decide⟩
  have h₂ : Takes (expanderOf shared thrice) thrice ⟨"east.x"⟩ 2 :=
    .takeover h₁ (by decide) (fun m _ _ => by omega) (hclaims (by decide))
      ⟨_, _, rfl, rfl, by decide, by decide⟩
  obtain ⟨expansions, hok, hout⟩ := exists_isOutcome allExpand_thrice peaceful_thrice
  have hmem : ⟨⟨"east.x"⟩, 2⟩ ∈ expansions := hout.mem_iff.2 (holds_of_takes h₂)
  have hanti : Antitone (expanderOf shared thrice) thrice ⟨"east.x"⟩ := by
    intro i j hij _ hj he
    have := (claims_thrice.1 hj).1
    have hcases : i = 0 ∧ j = 1 ∨ i = 1 ∧ j = 2 ∨ i = 0 ∧ j = 2 := by omega
    rcases hcases with ⟨rfl, rfl⟩ | ⟨rfl, rfl⟩ | ⟨rfl, rfl⟩ <;> exact absurd he (by decide)
  obtain ⟨-, hval, -, hnone⟩ := bound_to_foremost hok hmem
  exact ⟨expansions, hok, hmem, hanti, hval (hnone hanti)⟩

/-- The pattern `east.x` binds the value that `@edge.x` has bound before. -/
def merged : List SourceEntry :=
  [⟨⟨[.node "edge", .literal "x"]⟩, ⟨.replicate 32 1⟩⟩,
    ⟨⟨[.literal "east", .literal "x"]⟩, ⟨.replicate 32 1⟩⟩,
    ⟨⟨[.node "zone", .literal "x"]⟩, ⟨.replicate 32 2⟩⟩]

theorem expand_merged : ∀ entry ∈ merged,
    (expanderOf shared merged).expand entry.pattern = .ok [⟨"east.x"⟩] := by
  intro entry he
  simp only [merged, List.mem_cons, List.not_mem_nil, or_false] at he
  rcases he with rfl | rfl | rfl <;> cbv

/-- The key goes from `@edge.x` to `@zone.x`, and that `east.x` claims it is forgotten. -/
theorem forgotten_loses : Hierarchy.build [("edge", ["east"]), ("zone", ["east"])] = .ok shared ∧
    ∃ expansions, ofEntries shared merged twoPairs = .ok expansions ∧ ⟨⟨"east.x"⟩, 2⟩ ∈ expansions ∧
      Foremost (expanderOf shared merged) merged ⟨"east.x"⟩ 1 3 ∧
      valueAt? merged 2 ≠ valueAt? merged 1 := by
  have hclaims {i : Nat} (hi : i < 3) : Claims (expanderOf shared merged) merged i ⟨"east.x"⟩ :=
    (claims_iff_of_all expand_merged).2 ⟨hi, rfl⟩
  have h₀ : Takes (expanderOf shared merged) merged ⟨"east.x"⟩ 0 :=
    .first (hclaims (by decide)) (by simp)
  have h₂ : Takes (expanderOf shared merged) merged ⟨"east.x"⟩ 2 := by
    refine .takeover h₀ (by decide) ?_ (hclaims (by decide)) ⟨_, _, rfl, rfl, by decide, by decide⟩
    -- the claimant between them binds the same value
    rintro m hm hm2 - ⟨a, b, ha, hb, hv, -⟩
    obtain rfl : m = 1 := by omega
    cases ha; cases hb
    exact hv rfl
  have hp : Peaceful (expanderOf shared merged) merged twoPairs 3 := by
    rintro key i j hj hi hc ⟨a, b, ha, hb, hv, hno⟩
    have hij := hi.lt
    have hcases : i = 0 ∧ j = 1 ∨ i = 1 ∧ j = 2 ∨ i = 0 ∧ j = 2 := by omega
    rcases hcases with ⟨rfl, rfl⟩ | ⟨rfl, rfl⟩ | ⟨rfl, rfl⟩
    · cases ha; cases hb; exact hv rfl
    · cases ha; cases hb; exact absurd hno (by decide)
    · cases ha; cases hb; exact absurd hno (by decide)
  obtain ⟨expansions, hok, hout⟩ := exists_isOutcome (fun entry he => ⟨_, expand_merged entry he⟩) hp
  refine ⟨by cbv, expansions, hok, hout.mem_iff.2 (holds_of_takes h₂),
    ⟨hclaims (by decide), by decide, ?_⟩, by decide⟩
  intro m hm _
  have hcases : m = 0 ∨ m = 1 ∨ m = 2 := by omega
  rcases hcases with rfl | rfl | rfl <;> decide

end ConfigCompiler.Expansion
