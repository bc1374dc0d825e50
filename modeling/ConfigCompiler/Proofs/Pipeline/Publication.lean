import ConfigCompiler.Proofs.Kernel.Policy
import ConfigCompiler.Proofs.Pipeline.Meaning

/-!
# When a pipeline publishes

A pipeline of built-in passes publishes a compilation just if it expands, interns and indexes in this order,
the root can be expanded, and the check of the shape, if there is one, does not object
(`Run.publishes_iff`). That check is all that the pass `validate` does, so it can be left out of a run that
publishes (`Run.all_withoutCheck`), and with the default passes only it and `expand` can fail
(`Run.defaults_failure`).
-/

namespace ConfigCompiler

open Store (Sound)

/-! ## Failures of an expansion -/

/-- A pattern stands for no key, or two patterns conflict; that a text is no pattern is not among this. -/
def ExpandError.IsProper : ExpandError → Prop
  | ambiguousPattern .. => True
  | patternConflict .. => True
  | malformed _ => False

theorem Expander.isProper_of_paths {x : Expander} {pattern : Pattern} {segments : List Segment}
    {paths : List (List String)} {e : ExpandError} (h : x.paths pattern paths segments = .error e) :
    e.IsProper := by
  induction segments generalizing paths with
  | nil => cases h
  | cons segment segments ih =>
    rw [Expander.paths] at h
    split at h
    · cases h
      trivial
    · exact ih h

theorem Expander.isProper_of_expand {x : Expander} {pattern : Pattern} {e : ExpandError}
    (h : x.expand pattern = .error e) : e.IsProper := by
  unfold Expander.expand at h
  cases hp : x.paths pattern [[]] pattern.segments with
  | error e' =>
    rw [hp] at h
    cases h
    exact isProper_of_paths hp
  | ok paths =>
    rw [hp] at h
    cases h

theorem Expansion.isProper_of_ofEntries {hierarchy : Hierarchy} {entries : List SourceEntry}
    {overrides : Overrides} {e : ExpandError} (h : ofEntries hierarchy entries overrides = .error e) :
    e.IsProper := by
  have hpeace : Peaceful (expanderOf hierarchy entries) entries overrides 0 := fun hj => by omega
  have hall := claimAll_cases (List.drop_zero (l := entries))
    (holderAt_zero (expanderOf hierarchy entries) entries) hpeace
  rw [ofEntries] at h
  rcases hall with ⟨holders, hok, -⟩ | ⟨e', entry, -, hx, herr⟩ | ⟨key, i, j, a, b, -, -, -, -, -, herr⟩
  · simp only [hok] at h
    cases h
  · simp only [herr] at h
    cases h
    exact Expander.isProper_of_expand hx
  · simp only [herr] at h
    cases h
    trivial

/-- All keys of an outcome have values. -/
theorem Expansion.exists_valued {hierarchy : Hierarchy} {entries : List SourceEntry} {overrides : Overrides}
    {xs : List (Key × Option Digest)} (h : outcome hierarchy entries overrides = some xs) :
    ∃ es : List (Key × Digest), xs = es.map fun e => (e.1, some e.2) := by
  rcases ofEntries_spec hierarchy entries overrides with ⟨-, -, ys, hys, hout⟩ | ⟨-, e, herr⟩
  · obtain ⟨es, hes⟩ := hout.valued_eq
    simp only [outcome, hys] at h
    cases h
    exact ⟨es, hes⟩
  · simp only [outcome, herr] at h
    cases h

/-- If all keys are patterns, they are expanded, or the expansion itself fails. -/
theorem Action.isProper_of_expansions {q : Quantization} {given : Premises} {root : Entries Value}
    (hroot : ∀ e ∈ root, ∃ p, Pattern.parse e.1 = .ok p) {e : ExpandError}
    (h : expansions q given root = .error e) : e.IsProper := by
  obtain ⟨entries, hentries⟩ :
      ∃ entries, root.mapM (fun e => SourceEntry.ofText e.1 (e.2.digest q)) = .ok entries := by
    clear h
    induction root with
    | nil => exact ⟨[], rfl⟩
    | cons e root ih =>
      obtain ⟨p, hp⟩ := hroot e List.mem_cons_self
      obtain ⟨entries, hentries⟩ := ih fun e he => hroot e (List.mem_cons_of_mem _ he)
      refine ⟨⟨p, e.2.digest q⟩ :: entries, ?_⟩
      rw [List.mapM_cons, hentries, SourceEntry.ofText, hp]
      rfl
  have hexp : expansions q given root =
      (root.mapM fun e => SourceEntry.ofText e.1 (e.2.digest q)) >>= fun entries =>
        Expansion.ofEntries given.hierarchy entries given.overrides := rfl
  rw [hexp, hentries] at h
  exact Expansion.isProper_of_ofEntries h

theorem Action.patterns_of_expansions {q : Quantization} {given : Premises} {root : Entries Value}
    {xs : List Expansion} (h : expansions q given root = .ok xs) :
    ∀ e ∈ root, ∃ p, Pattern.parse e.1 = .ok p := by
  intro e he
  obtain ⟨entries, hentries, -⟩ := exists_sourceEntries h
  obtain ⟨i, hi⟩ := List.getElem?_of_mem he
  obtain ⟨a, -, ha⟩ := Store.exists_getElem? hentries hi
  cases hp : Pattern.parse e.1 with
  | ok p => exact ⟨p, rfl⟩
  | error err =>
    rw [SourceEntry.ofText, hp] at ha
    cases ha

/-! ## What is forecast -/

section
variable {H : Type} {q : Quantization} {given : Premises} {source : Value} {g : Setting}

/-- The root can be expanded. -/
theorem exists_expanded_iff : (∃ root xs, Expanded q given source root xs) ↔
    ∃ xs, ((source.sourceEntries? q).bind fun entries =>
      Expansion.outcome given.hierarchy entries given.overrides) = some xs := by
  constructor
  · intro ⟨root, xs, hsource, hx⟩
    rw [hsource, ← expansions_outline given root, hx]
    exact ⟨_, rfl⟩
  · intro ⟨ys, hys⟩
    cases source with
    | map root =>
      rw [← expansions_outline given root] at hys
      cases hx : Action.expansions q given root with
      | error e =>
        rw [hx] at hys
        cases hys
      | ok xs => exact ⟨root, xs, rfl, hx⟩
    | _ => cases hys

/-- The passes without the check of the shape. -/
def Pass.withoutCheck (passes : List (Pass H)) : List (Pass H) := passes.filter (·.name != "validate")

/-- The passes that make a compilation. -/
def Pass.essentials : List (Pass H) :=
  [⟨"expand", .expand, .expand⟩, ⟨"intern", .intern, .intern⟩, ⟨"index", .index, .index⟩]

theorem Outline.forecast_withoutCheck {passes : List (Pass H)} (hp : ∀ p ∈ passes, p ∈ Pass.builtins)
    (hv : "validate" ∈ passes.map Pass.name → g.source.validate = .ok ()) (o : Outline) :
    forecast g (Pass.withoutCheck passes) o = forecast g passes o := by
  induction passes generalizing o with
  | nil => rfl
  | cons p passes ih =>
    have hrest := ih (fun p hm => hp p (List.mem_cons_of_mem _ hm)) fun hm => hv (List.mem_cons_of_mem _ hm)
    have hhead := hp p List.mem_cons_self
    simp only [Pass.builtins, List.mem_cons, List.not_mem_nil, or_false] at hhead
    rcases hhead with rfl | rfl | rfl | rfl
    · have hok := hv List.mem_cons_self
      simp only [Pass.withoutCheck] at hrest
      simp [Pass.withoutCheck, forecast, act, hok, Except.toOption, hrest]
    all_goals
      simp only [Pass.withoutCheck] at hrest
      simp [Pass.withoutCheck, forecast, hrest]

/-- The names of the passes that are still needed for a publication. -/
def Outline.missing (o : Outline) : List String :=
  match o.index?, o.entries?, o.expansions? with
  | some _, _, _ => []
  | none, some _, _ => ["index"]
  | none, none, some _ => ["intern", "index"]
  | none, none, none => ["expand", "intern", "index"]

/-- A pass makes the first missing part at most. -/
theorem Outline.missing_act {p : Pass H} (hp : p ∈ Pass.builtins) {o o' : Outline}
    (h : o.act g p.action = some o') : o.missing.Sublist (p.name :: o'.missing) := by
  simp only [Pass.builtins, List.mem_cons, List.not_mem_nil, or_false] at hp
  rcases hp with rfl | rfl | rfl | rfl
  · obtain ⟨-, -, rfl⟩ := Option.map_eq_some_iff.1 h
    exact List.sublist_cons_self _ _
  · obtain ⟨xs, -, rfl⟩ := Option.map_eq_some_iff.1 h
    obtain ⟨expansions?, entries?, index?⟩ := o
    cases index? <;> cases entries? <;> cases expansions? <;> simp [missing]
  · obtain ⟨xs, hx, h⟩ := Option.bind_eq_some_iff.1 h
    obtain ⟨root, -, h⟩ := Option.bind_eq_some_iff.1 h
    obtain ⟨entries, -, rfl⟩ := Option.map_eq_some_iff.1 h
    obtain ⟨expansions?, entries?, index?⟩ := o
    cases hx
    cases index? <;> cases entries? <;> simp [missing]
  · obtain ⟨entries, he, rfl⟩ := Option.map_eq_some_iff.1 h
    obtain ⟨expansions?, entries?, index?⟩ := o
    cases he
    cases index? <;> simp [missing]

/-- What is missing is made by the passes to come, in its order. -/
theorem Outline.missing_sublist {passes : List (Pass H)} (hp : ∀ p ∈ passes, p ∈ Pass.builtins)
    {o : Outline} {x : List (Key × Digest) × PathIndex} (h : forecast g passes o = some x) :
    o.missing.Sublist (passes.map Pass.name) := by
  induction passes generalizing o with
  | nil =>
    obtain ⟨entries, -, hindex⟩ := Option.bind_eq_some_iff.1 h
    obtain ⟨index, hindex, -⟩ := Option.map_eq_some_iff.1 hindex
    simp [missing, hindex]
  | cons p passes ih =>
    obtain ⟨o', hact, hrest⟩ := Option.bind_eq_some_iff.1 h
    have htail := ih (fun p hm => hp p (List.mem_cons_of_mem _ hm)) hrest
    exact (missing_act (hp p List.mem_cons_self) hact).trans (htail.cons_cons p.name)

/-- No pass of a run that is forecast to publish objects to the configuration. -/
theorem Outline.act_of_forecast {passes : List (Pass H)} {o : Outline}
    {x : List (Key × Digest) × PathIndex} (h : forecast g passes o = some x) {p : Pass H}
    (hp : p ∈ passes) : ∃ o₁ o₂ : Outline, o₁.act g p.action = some o₂ := by
  induction passes generalizing o with
  | nil => cases hp
  | cons p' passes ih =>
    obtain ⟨o', hact, hrest⟩ := Option.bind_eq_some_iff.1 h
    rcases List.mem_cons.1 hp with rfl | hp
    · exact ⟨o, o', hact⟩
    · exact ih hrest hp

/-- What a root expands to can be interned and indexed. -/
theorem exists_forecast_essentials {xs : List (Key × Option Digest)}
    (h : ((g.source.sourceEntries? g.quantization).bind fun entries =>
      Expansion.outcome g.hierarchy entries g.overrides) = some xs) :
    ∃ x, forecast g (Pass.essentials : List (Pass H)) = some x := by
  obtain ⟨root, hroot⟩ := exists_asMap?_of_sourceEntries? h
  obtain ⟨entries, -, hentries⟩ := Option.bind_eq_some_iff.1 h
  obtain ⟨es, hes⟩ := Expansion.exists_valued hentries
  have hcollect := Outline.collect_eq_some_iff.2 hes
  simp only [forecast, Outline.forecast, Pass.essentials, Outline.act, h, Option.map_some,
    Option.bind_some, hroot, hcollect]
  exact ⟨_, rfl⟩

/-! ## Lists of passes -/

theorem Pass.mem_of_name {passes : List (Pass H)} (hp : ∀ p ∈ passes, p ∈ builtins) {p : Pass H}
    (hbuiltin : p ∈ builtins) (h : p.name ∈ passes.map name) : p ∈ passes := by
  obtain ⟨p', hm, hname⟩ := List.mem_map.1 h
  rwa [← eq_of_name_builtins (hp p' hm) hbuiltin hname]

theorem Pass.withoutCheck_eq {passes : List (Pass H)} (hp : ∀ p ∈ passes, p ∈ builtins)
    (hn : (passes.map name).Nodup) (h : ["expand", "intern", "index"].Sublist (passes.map name)) :
    withoutCheck passes = essentials := by
  have hnames : (withoutCheck passes).map name = (passes.map name).filter (· != "validate") := by
    rw [withoutCheck, List.filter_map]
    rfl
  have hsub : ["expand", "intern", "index"].Sublist ((withoutCheck passes).map name) := by
    rw [hnames]
    exact h.filter (· != "validate")
  have hmem : (withoutCheck passes).map name ⊆ ["expand", "intern", "index"] := by
    intro n hn
    obtain ⟨p, hmem, rfl⟩ := List.mem_map.1 hn
    obtain ⟨hpasses, hcheck⟩ := List.mem_filter.1 hmem
    have hbuiltin := hp p hpasses
    simp only [builtins, List.mem_cons, List.not_mem_nil, or_false] at hbuiltin
    rcases hbuiltin with rfl | rfl | rfl | rfl <;> simp at hcheck ⊢
  have hnodup : ((withoutCheck passes).map name).Nodup := hnames ▸ hn.filter _
  have heq := hsub.eq_of_length_le (List.subperm_of_subset hnodup hmem).length_le
  refine Store.eq_of_map_eq heq.symm ?_
  intro p hm p' hm' hname
  exact eq_of_name_builtins (hp p (List.mem_filter.1 hm).1) (List.mem_cons_of_mem _ hm') hname

/-! ## Runs -/

variable {s s' : Store} {handles : List Interned} {B : List UInt8 → Prop}

/-- The check of the shape hands on the store and the draft as they are. -/
theorem Action.run_validate (given : Premises) (s : Store) (d : Draft) : (validate : Action H).run given s d =
    match d.source.validate with
    | .ok _ => (s, .ok d)
    | .error e => (s.releaseAll d.nodes, .error (.validation e)) := by
  simp only [Action.run, Action.transform]
  cases d.source.validate <;> rfl

theorem Action.run_validate_ok {d d' : Draft} (h : (validate : Action H).run given s d = (s', .ok d')) :
    s' = s ∧ d' = d := by
  rw [run_validate] at h
  split at h <;> cases h
  exact ⟨rfl, rfl⟩

/-- A run without passes publishes its draft. -/
theorem Run.toEnd_of_nil {r : Run H} (hrest : r.rest = []) {fuel : Nat} {transitions : List Transition}
    {c : Compilation} (h : Run.toEnd given (fuel + 1) s r = (s', transitions, .ok c)) :
    Run.publish given s r.draft = (s', .ok c) := by
  simp only [Run.toEnd, Run.step, hrest] at h
  cases hpub : Run.publish given s r.draft with | mk s₁ result =>
  rw [hpub] at h
  cases result with
  | error e => cases h
  | ok c' =>
    cases h
    rfl

theorem Run.exists_toEnd_of_nil {r : Run H} (hrest : r.rest = []) (fuel : Nat) {c : Compilation}
    (h : Run.publish given s r.draft = (s', .ok c)) :
    ∃ transitions, Run.toEnd given (fuel + 1) s r = (s', transitions, .ok c) := by
  simp only [Run.toEnd, Run.step, hrest, h]
  exact ⟨_, rfl⟩

/-- A run that ends well has made its next step. -/
theorem Run.toEnd_of_cons {r : Run H} {p : Pass H} {rest : List (Pass H)} (hrest : r.rest = p :: rest)
    (hstep : p.action.IsStep) {fuel : Nat} {transitions : List Transition} {c : Compilation}
    (h : Run.toEnd given (fuel + 1) s r = (s', transitions, .ok c)) :
    ∃ s₁ d, p.action.run given s r.draft = (s₁, .ok d) ∧
      Run.toEnd given fuel s₁ ((r.enter p).proceed rest d) = (s', transitions, .ok c) := by
  simp only [Run.toEnd, Run.step_cons hrest hstep] at h
  cases hrun : p.action.run given s r.draft with | mk s₁ result =>
  rw [hrun] at h
  cases result with
  | error e => cases h
  | ok d => exact ⟨s₁, d, rfl, h⟩

/-- The check of the shape leaves no trace in what is published. -/
theorem Run.toEnd_withoutCheck {r r' : Run H} (hp : ∀ p ∈ r.rest, p ∈ Pass.builtins)
    (hrest : r'.rest = Pass.withoutCheck r.rest) (hdraft : r'.draft = r.draft) {fuel fuel' : Nat}
    (hfuel : r'.rest.length < fuel') {transitions : List Transition} {c : Compilation}
    (h : Run.toEnd given fuel s r = (s', transitions, .ok c)) :
    ∃ transitions', Run.toEnd given fuel' s r' = (s', transitions', .ok c) := by
  induction fuel generalizing s r r' fuel' with
  | zero => cases h
  | succ fuel ih =>
    cases hpasses : r.rest with
    | nil =>
      rw [hpasses] at hrest
      obtain ⟨fuel', rfl⟩ := Nat.exists_eq_succ_of_ne_zero (Nat.ne_of_gt (Nat.zero_lt_of_lt hfuel))
      exact Run.exists_toEnd_of_nil hrest fuel' (hdraft ▸ Run.toEnd_of_nil hpasses h)
    | cons p rest =>
      have hbuiltin := hp p (hpasses ▸ List.mem_cons_self)
      have hstep := isStep_builtins p hbuiltin
      have htail : ∀ p' ∈ rest, p' ∈ Pass.builtins := fun p' hm => hp p' (hpasses ▸ List.mem_cons_of_mem _ hm)
      rw [hpasses] at hrest
      obtain ⟨s₁, d, hrun, hend⟩ := Run.toEnd_of_cons hpasses hstep h
      by_cases hcheck : p.name = "validate"
      · have hv : p.action = .validate := by rw [eq_of_name_builtins hbuiltin List.mem_cons_self hcheck]
        obtain ⟨rfl, rfl⟩ := Action.run_validate_ok (hv ▸ hrun)
        refine ih (r := (r.enter p).proceed rest r.draft) htail ?_ hdraft hfuel hend
        rw [hrest]
        simp [Pass.withoutCheck, hcheck, Run.proceed]
      · have hrest' : r'.rest = p :: Pass.withoutCheck rest := by
          rw [hrest]
          simp [Pass.withoutCheck, hcheck]
        obtain ⟨fuel', rfl⟩ := Nat.exists_eq_succ_of_ne_zero (Nat.ne_of_gt (Nat.zero_lt_of_lt hfuel))
        simp only [Run.toEnd, Run.step_cons hrest' hstep, hdraft, hrun]
        refine ih (r := (r.enter p).proceed rest d) htail ?_ ?_ ?_ hend
        · rfl
        · rfl
        · rw [hrest', List.length_cons] at hfuel
          exact Nat.lt_of_succ_lt_succ hfuel

theorem Run.all_withoutCheck {passes : List (Pass H)} (hp : ∀ p ∈ passes, p ∈ Pass.builtins)
    {transitions : List Transition} {c : Compilation}
    (h : Run.all given s passes source = (s', transitions, .ok c)) :
    ∃ transitions', Run.all given s (Pass.withoutCheck passes) source = (s', transitions', .ok c) := by
  refine Run.toEnd_withoutCheck (r := .start passes source) hp ?_ ?_ ?_ h
  · rfl
  · rfl
  · exact Nat.lt_succ_self _

theorem Run.publishes_iff (hB : ¬ Digest.Collides B) (given : Premises) (hp : source.Proper)
    (hh : source.Hashed B q) (hs : Sound B q s handles) {passes : List (Pass H)}
    (hmem : ∀ p ∈ passes, p ∈ Pass.builtins) (hn : (passes.map Pass.name).Nodup) :
    (∃ c, (Run.all given s passes source).2.2 = .ok c) ↔
      ["expand", "intern", "index"].Sublist (passes.map Pass.name) ∧
      (∃ root xs, Expanded q given source root xs) ∧
      ("validate" ∈ passes.map Pass.name → source.validate = .ok ()) := by
  obtain ⟨s', transitions, result, hall, hends⟩ :=
    Run.all_spec hB (fun p hm => isStep_builtins p (hmem p hm)) given hp hh hs
  rw [hall, exists_expanded_iff]
  constructor
  · rintro ⟨c, hc⟩
    cases hc
    cases hends with
    | ok _ _ hx =>
      have hsub := Outline.missing_sublist hmem hx
      refine ⟨hsub, ?_, ?_⟩
      · have hexpand : ⟨"expand", .expand, .expand⟩ ∈ passes :=
          Pass.mem_of_name hmem (by simp [Pass.builtins]) (hsub.subset List.mem_cons_self)
        obtain ⟨o₁, o₂, hact⟩ := Outline.act_of_forecast hx hexpand
        obtain ⟨xs, hxs, -⟩ := Option.map_eq_some_iff.1 hact
        exact ⟨xs, hxs⟩
      · intro hname
        have hvalidate : ⟨"validate", .validate, .validate⟩ ∈ passes :=
          Pass.mem_of_name hmem List.mem_cons_self hname
        obtain ⟨o₁, o₂, hact⟩ := Outline.act_of_forecast hx hvalidate
        obtain ⟨u, hu, -⟩ := Option.map_eq_some_iff.1 hact
        cases hv : source.validate with
        | ok u => rfl
        | error e =>
          simp only [Premises.setting, hv] at hu
          cases hu
  · rintro ⟨hsub, ⟨xs, hxs⟩, hv⟩
    obtain ⟨x, hx⟩ : ∃ x, forecast (given.setting q source) passes = some x := by
      rw [forecast, ← Outline.forecast_withoutCheck hmem hv, Pass.withoutCheck_eq hmem hn hsub]
      exact exists_forecast_essentials hxs
    cases hends with
    | ok _ _ _ => exact ⟨_, rfl⟩
    | error _ hnone => cases hx.symm.trans hnone

/-- What is published is what the passes that make a compilation publish on their own. -/
theorem Run.all_essentials (hB : ¬ Digest.Collides B) (given : Premises) (hp : source.Proper)
    (hh : source.Hashed B q) (hs : Sound B q s handles) {passes : List (Pass H)}
    (hmem : ∀ p ∈ passes, p ∈ Pass.builtins) (hn : (passes.map Pass.name).Nodup) {c : Compilation}
    (h : (Run.all given s passes source).2.2 = .ok c) :
    (Run.all given s (Pass.essentials : List (Pass H)) source).2.2 = .ok c ∧
      ∃ x, forecast (given.setting q source) (Pass.essentials : List (Pass H)) = some x ∧ c.Shows x := by
  have hsub := ((Run.publishes_iff hB given hp hh hs hmem hn).1 ⟨c, h⟩).1
  cases hrun : Run.all given s passes source with | mk s' rest =>
  obtain ⟨transitions, result⟩ := rest
  rw [hrun] at h
  cases h
  obtain ⟨transitions', hall⟩ := Run.all_withoutCheck hmem hrun
  rw [Pass.withoutCheck_eq hmem hn hsub] at hall
  have hsteps : ∀ p ∈ (Pass.essentials : List (Pass H)), p.action.IsStep := fun p hm =>
    isStep_builtins p (List.mem_cons_of_mem _ hm)
  obtain ⟨s'', transitions'', result, hall', hends⟩ := Run.all_spec hB hsteps given hp hh hs
  cases hall.symm.trans hall'
  rw [hall]
  cases hends with
  | ok _ hshows hx => exact ⟨rfl, _, hx, hshows⟩

/-- A failure that the contents of a configuration give rise to, in the first pass or the second. -/
inductive Run.BlamesSource : PassFailure → Prop
  | shape (e : ValidationError) : BlamesSource ⟨"validate", 0, .validation e⟩
  | pattern (pattern segment : String) (reason : AmbiguityReason) :
    BlamesSource ⟨"expand", 1, .expand (.ambiguousPattern pattern segment reason)⟩
  | conflict (key first second : String) :
    BlamesSource ⟨"expand", 1, .expand (.patternConflict key first second)⟩

/-- An invalid configuration fails in the first pass. -/
theorem Run.all_builtins_of_invalid {e : ValidationError} (hv : source.validate = .error e) :
    (Run.all given s (Pass.builtins : List (Pass H)) source).2.2 = .error ⟨"validate", 0, .validation e⟩ := by
  have hrun : (Action.validate : Action H).run given s (.ofSource source) = (s, .error (.validation e)) := by
    simp only [Action.run_validate, Draft.ofSource, hv]
    rfl
  have hbuiltins : (Pass.builtins : List (Pass H)) = ⟨"validate", .validate, .validate⟩ :: Pass.essentials := rfl
  rw [Run.all, hbuiltins, Run.toEnd, Run.step_cons rfl .validate]
  simp only [Run.start, hrun]
  rfl

/-- A valid configuration that cannot be expanded fails in the second pass. -/
theorem Run.all_builtins_of_unexpanded {root : Entries Value} {e : ExpandError}
    (hv : (Value.map root).validate = .ok ()) (hx : Action.expansions s.quantization given root = .error e) :
    (Run.all given s (Pass.builtins : List (Pass H)) (.map root)).2.2 = .error ⟨"expand", 1, .expand e⟩ := by
  have hcheck : (Action.validate : Action H).run given s (.ofSource (.map root)) =
      (s, .ok (.ofSource (.map root))) := by
    simp only [Action.run_validate, Draft.ofSource, hv]
  have hrun : (Action.expand : Action H).run given s (.ofSource (.map root)) = (s, .error (.expand e)) := by
    have hroot : (Draft.ofSource (.map root)).root = .ok root := rfl
    simp only [Action.run, Action.transform, hroot, bind, Except.bind, hx]
    rfl
  have hbuiltins : (Pass.builtins : List (Pass H)) = ⟨"validate", .validate, .validate⟩ :: Pass.essentials := rfl
  rw [Run.all, hbuiltins, Run.toEnd, Run.step_cons rfl .validate]
  simp only [Run.start, hcheck]
  rw [List.length_cons, Run.toEnd, Run.step_cons rfl .expand]
  simp only [Run.proceed, hrun]
  rfl

theorem Run.defaults_failure (hB : ¬ Digest.Collides B) (given : Premises) (hp : source.Proper)
    (hh : source.Hashed B q) (hs : Sound B q s handles) {f : PassFailure}
    (h : (Run.all given s (Pass.builtins : List (Pass H)) source).2.2 = .error f) : Run.BlamesSource f := by
  cases hv : source.validate with
  | error e =>
    cases h.symm.trans (Run.all_builtins_of_invalid hv)
    exact .shape e
  | ok u =>
    cases source with
    | map root =>
      cases hx : Action.expansions q given root with
      | ok xs =>
        -- a valid root that can be expanded is published
        obtain ⟨c, hc⟩ := (Run.publishes_iff hB given hp hh hs (fun p hm => hm) (by simp [Pass.builtins])).2
          ⟨by simp [Pass.builtins], ⟨root, xs, rfl, hx⟩, fun _ => hv⟩
        cases h.symm.trans hc
      | error e =>
        rw [← Sound.quantization_eq hs] at hx
        cases h.symm.trans (Run.all_builtins_of_unexpanded hv hx)
        have hpatterns : ∀ e ∈ root, ∃ p, Pattern.parse e.1 = .ok p := fun e he =>
          (Value.checkRoot_ok_iff.1 hv e he).1
        cases e with
        | ambiguousPattern pattern segment reason => exact .pattern pattern segment reason
        | patternConflict key first second => exact .conflict key first second
        | malformed e => exact absurd (Action.isProper_of_expansions hpatterns hx) id
    | _ => cases hv

/--
Built-in passes, each listed once, publish just if the root is expanded, interned and indexed in this order
and the check of the shape, if it is listed, does not object; wherever it is listed, the same is published.
-/
theorem Run.publication (hB : ¬ Digest.Collides B) (given : Premises) (hp : source.Proper)
    (hh : source.Hashed B q) (hs : Sound B q s handles) {names : List String} (hn : names.Nodup)
    (hnames : ∀ name ∈ names, name ∈ (Pass.builtins : List (Pass H)).map Pass.name) :
    ∃ passes : List (Pass H), Catalog.resolve Pass.builtins names = .ok passes ∧
      ((∃ c, (Run.all given s passes source).2.2 = .ok c) ↔
        ["expand", "intern", "index"].Sublist names ∧
        (∃ root, source = .map root ∧ (∀ e ∈ root, ∃ p, Pattern.parse e.1 = .ok p) ∧
          ∃ xs, Action.expansions q given root = .ok xs) ∧
        ("validate" ∈ names → source.validate = .ok ())) ∧
      (∀ {names' : List String} {passes' : List (Pass H)} {s' : Store} {handles' : List Interned}
        {c c' : Compilation}, Catalog.resolve Pass.builtins names' = .ok passes' → Sound B q s' handles' →
        (Run.all given s passes source).2.2 = .ok c → (Run.all given s' passes' source).2.2 = .ok c' →
        outlineOf c'.entries.toList = outlineOf c.entries.toList ∧ (s' = s → c' = c)) ∧
      (names = Settings.defaultPasses → ∀ f, (Run.all given s passes source).2.2 = .error f →
        Run.BlamesSource f) := by
  obtain ⟨passes, hresolve⟩ : ∃ passes : List (Pass H), Catalog.resolve Pass.builtins names = .ok passes :=
    Catalog.exists_resolve hnames hn
  have hmap := Catalog.names_of_resolve hresolve
  obtain ⟨hmem, -⟩ := Catalog.resolve_spec hresolve
  have hiff := Run.publishes_iff hB given hp hh hs hmem (hmap ▸ hn)
  rw [hmap] at hiff
  refine ⟨passes, hresolve, ?_, ?_, ?_⟩
  · rw [hiff]
    refine and_congr Iff.rfl (and_congr ?_ Iff.rfl)
    constructor
    · intro ⟨root, xs, hsource, hx⟩
      exact ⟨root, hsource, Action.patterns_of_expansions hx, xs, hx⟩
    · intro ⟨root, hsource, _, xs, hx⟩
      exact ⟨root, xs, hsource, hx⟩
  · intro names' passes' s' handles' c c' hresolve' hs' hc hc'
    obtain ⟨hmem', hn'⟩ := Catalog.resolve_spec hresolve'
    obtain ⟨hall, x, hx, hshows⟩ := Run.all_essentials hB given hp hh hs hmem (hmap ▸ hn) hc
    obtain ⟨hall', x', hx', hshows'⟩ := Run.all_essentials hB given hp hh hs' hmem' hn' hc'
    cases hx.symm.trans hx'
    refine ⟨hshows'.entries.trans hshows.entries.symm, ?_⟩
    intro hstore
    rw [hstore] at hall'
    exact Except.ok.inj (hall'.symm.trans hall)
  · intro hdefault f hf
    rw [hdefault] at hresolve
    cases hresolve
    exact Run.defaults_failure hB given hp hh hs hf

end

/-- The check may come late, but not the expansion. -/
theorem Run.publication_tied :
    (∃ (passes : List (Pass Empty)) (c : Compilation),
      Catalog.resolve Pass.builtins ["expand", "intern", "validate", "index"] = .ok passes ∧
      (Run.all (tiedPremises tiedPair) (.empty .disabled) passes (.map tied)).2.2 = .ok c ∧
      Run.defaults Empty (tiedPremises tiedPair) .disabled tied = .ok c) ∧
    ∃ passes : List (Pass Empty), Catalog.resolve Pass.builtins ["intern", "expand", "index"] = .ok passes ∧
      ∀ c, (Run.all (tiedPremises tiedPair) (.empty .disabled) passes (.map tied)).2.2 ≠ .ok c := by
  have hstore : Sound ((Value.map tied).hashes .disabled) .disabled (.empty .disabled) [] :=
    ⟨[], Store.inv_empty _ _⟩
  have hvalid : (Value.map tied).validate = .ok () := rfl
  have hroot : ∃ root, Value.map tied = .map root ∧ (∀ e ∈ root, ∃ p, Pattern.parse e.1 = .ok p) ∧
      ∃ xs, Action.expansions .disabled (tiedPremises tiedPair) root = .ok xs := by
    obtain ⟨hedge, hzone⟩ := expand_edge_zone ((Value.int 1).digest .disabled) ((Value.int 2).digest .disabled)
    have hexpanded : ∃ root xs, Expanded .disabled (tiedPremises tiedPair) (.map tied) root xs :=
      exists_expanded_iff.2 ⟨_, Option.bind_eq_some_iff.2 ⟨_, sourceEntries?_tied,
        Expansion.outcome_pair hedge hzone (by decide) (by decide)⟩⟩
    obtain ⟨root, xs, hsource, hx⟩ := hexpanded
    exact ⟨root, hsource, Action.patterns_of_expansions hx, xs, hx⟩
  obtain ⟨late, hlate, hpublishes, hsame, -⟩ := Run.publication (H := Empty) not_collides_tied
    (tiedPremises tiedPair) proper_tied (Value.hashed_hashes _ _) hstore
    (show ["expand", "intern", "validate", "index"].Nodup by decide) (by decide)
  obtain ⟨usual, husual, hpublishes', -⟩ := Run.publication (H := Empty) not_collides_tied
    (tiedPremises tiedPair) proper_tied (Value.hashed_hashes _ _) hstore
    (show Settings.defaultPasses.Nodup by decide) (by decide)
  obtain ⟨early, hearly, hpublishes'', -⟩ := Run.publication (H := Empty) not_collides_tied
    (tiedPremises tiedPair) proper_tied (Value.hashed_hashes _ _) hstore
    (show ["intern", "expand", "index"].Nodup by decide) (by decide)
  refine ⟨?_, early, hearly, ?_⟩
  · obtain ⟨c, hc⟩ := hpublishes.2 ⟨by decide, hroot, fun _ => hvalid⟩
    obtain ⟨c', hc'⟩ := hpublishes'.2 ⟨by decide, hroot, fun _ => hvalid⟩
    cases (hsame husual hstore hc hc').2 rfl
    cases husual
    exact ⟨late, c, hlate, hc, hc'⟩
  · intro c hc
    exact absurd (hpublishes''.1 ⟨c, hc⟩).1 (by decide)

end ConfigCompiler
