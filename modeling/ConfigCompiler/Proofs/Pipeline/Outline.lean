import ConfigCompiler.Pipeline.Run
import ConfigCompiler.Proofs.Expansion.Order
import ConfigCompiler.Proofs.Interner.Interning

/-!
# What a run comes to

An outline is a draft without the identities of its nodes: keys, the digests of the values that are bound to
them, and the index. The steps of a compilation act on outlines (`Outline.act`), so the result of a run can
be told before it begins (`forecast`): whatever store a run works on, and whatever else happens to the
store between its steps, each step keeps the forecast (`Run.step_spec`), and the run ends as it says
(`Run.all_spec`).
-/

namespace ConfigCompiler

namespace Value

/-- The digest of the root value at a position. -/
def rootDigest? (q : Quantization) (source : Value) (origin : Nat) : Option Digest :=
  (source.asMap?.bind fun root => root[origin]?).map fun e => e.2.digest q

/-- The entries of the root with their patterns parsed; none if one is no pattern. -/
def sourceEntries? (q : Quantization) (source : Value) : Option (List SourceEntry) :=
  source.asMap?.bind fun root => (root.mapM fun e => SourceEntry.ofText e.1 (e.2.digest q)).toOption

end Value

/-- A draft without the identities of its nodes. -/
structure Outline where
  expansions? : Option (List (Key × Option Digest))
  entries? : Option (List (Key × Digest))
  index? : Option PathIndex

/-- The steps of a compilation, as opposed to actions that try a pipeline out. -/
inductive Action.IsStep {H : Type} : Action H → Prop
  | validate : IsStep .validate
  | expand : IsStep .expand
  | intern : IsStep .intern
  | index : IsStep .index

theorem isStep_builtins {H : Type} : ∀ p ∈ (Pass.builtins : List (Pass H)), p.action.IsStep := by
  intro p hp
  simp only [Pass.builtins, List.mem_cons, List.not_mem_nil, or_false] at hp
  rcases hp with rfl | rfl | rfl | rfl
  · exact .validate
  · exact .expand
  · exact .intern
  · exact .index

/-- What the outcome of a compilation depends on, besides its passes. -/
structure Setting where
  quantization : Quantization
  hierarchy : Hierarchy
  overrides : Overrides
  source : Value

namespace Outline

def empty : Outline := ⟨none, none, none⟩

/-- The keys with their values, if all of these are there. -/
def collect : List (Key × Option Digest) → Option (List (Key × Digest))
  | [] => some []
  | (_, none) :: _ => none
  | (key, some d) :: xs => (collect xs).map ((key, d) :: ·)

/-- What a step makes of an outline; other actions are not looked at. -/
def act {H : Type} (g : Setting) (o : Outline) : Action H → Option Outline
  | .validate => g.source.validate.toOption.map fun _ => o
  | .expand =>
    ((g.source.sourceEntries? g.quantization).bind fun entries =>
      Expansion.outcome g.hierarchy entries g.overrides).map fun xs => { o with expansions? := some xs }
  | .intern =>
    o.expansions?.bind fun xs => g.source.asMap?.bind fun _ =>
      (collect xs).map fun entries => { o with entries? := some entries }
  | .index => o.entries?.map fun entries => { o with index? := some (.build (entries.map Prod.fst)) }
  | _ => some o

/-- The entries and the index of an outline after its last pass. -/
def publish (o : Outline) : Option (List (Key × Digest) × PathIndex) :=
  o.entries?.bind fun entries => o.index?.map (entries, ·)

/-- What the rest of a run comes to. -/
def forecast {H : Type} (g : Setting) : List (Pass H) → Outline → Option (List (Key × Digest) × PathIndex)
  | [], o => o.publish
  | pass :: passes, o => (o.act g pass.action).bind (forecast g passes)

end Outline

/-- The keys of entries with the digests of their nodes. -/
def outlineOf (entries : List (Key × Interned)) : List (Key × Digest) :=
  entries.map fun e => (e.1, e.2.digest)

/-- A draft without the identities of its nodes. -/
def Draft.outline (q : Quantization) (d : Draft) : Outline where
  expansions? := d.expansions?.map (·.map fun x => (x.key, d.source.rootDigest? q x.origin))
  entries? := d.entries?.map outlineOf
  index? := d.index?

section
variable {H : Type} {B : List UInt8 → Prop} {q : Quantization} {s : Store} {handles : List Interned}
open Store (Sound)

/-! ## Interning the origins -/

/-- The nodes of the origins so far are held, and have the digests of the origins. -/
def MemoOk (q : Quantization) (root : Entries Value) (handles : List Interned) (memo : Action.Memo) :
    Prop :=
  ∀ e ∈ memo, e.2 ∈ handles ∧ ∃ v, root[e.1]? = some v ∧ e.2.digest = v.2.digest q

theorem MemoOk.cons {root : Entries Value} {memo : Action.Memo} (h : MemoOk q root handles memo)
    (n : Interned) : MemoOk q root (n :: handles) memo := fun e he =>
  ⟨List.mem_cons_of_mem _ (h e he).1, (h e he).2⟩

theorem mem_of_lookup {memo : Action.Memo} {origin : Nat} {n : Interned}
    (h : memo.lookup origin = some n) : (origin, n) ∈ memo := by
  obtain ⟨before, after, rfl, -⟩ := List.lookup_eq_some_iff.1 h
  exact List.mem_append_right _ List.mem_cons_self

theorem originNode_spec (hB : ¬ Digest.Collides B) {root : Entries Value}
    (hroot : ∀ e ∈ root, e.2.Proper ∧ e.2.Hashed B q) {memo : Action.Memo}
    (hm : MemoOk q root handles memo) (hs : Sound B q s handles) (origin : Nat) :
    (∃ s' memo' n e, Action.originNode s root memo origin = (s', .ok (memo', n)) ∧
      root[origin]? = some e ∧ n.digest = e.2.digest q ∧ Sound B q s' (n :: handles) ∧
      MemoOk q root (n :: handles) memo') ∨
    root[origin]? = none ∧ ∃ e, Action.originNode s root memo origin = (s, .error e) := by
  unfold Action.originNode
  cases hl : memo.lookup origin with
  | some n =>
    obtain ⟨hn, e, he, hd⟩ := hm _ (mem_of_lookup hl)
    exact .inl ⟨_, _, _, e, rfl, he, hd, hs.retain hn, hm.cons n⟩
  | none =>
    cases he : root[origin]? with
    | none => exact .inr ⟨rfl, _, rfl⟩
    | some e =>
      obtain ⟨hp, hh⟩ := hroot e (List.mem_of_getElem? he)
      obtain ⟨s', n, hi, hs', hd⟩ := Store.intern_ok hB hp hh hs
      simp only [hi]
      refine .inl ⟨_, _, _, e, rfl, rfl, hd, hs', fun p hmem => ?_⟩
      rcases List.mem_cons.1 hmem with rfl | hmem
      · exact ⟨List.mem_cons_self, e, he, hd⟩
      · exact hm.cons n p hmem

theorem internAll_spec (hB : ¬ Digest.Collides B) {root : Entries Value}
    (hroot : ∀ e ∈ root, e.2.Proper ∧ e.2.Hashed B q) {memo : Action.Memo}
    (hm : MemoOk q root handles memo) (hs : Sound B q s handles) (xs : List Expansion) :
    (∃ s' entries, Action.internAll root xs s memo = (s', .ok entries) ∧
      Sound B q s' (entries.map Prod.snd ++ handles) ∧
      Outline.collect (xs.map fun x => (x.key, root[x.origin]?.map fun e => e.2.digest q)) =
        some (outlineOf entries)) ∨
    ∃ s' e, Action.internAll root xs s memo = (s', .error e) ∧ Sound B q s' handles ∧
      Outline.collect (xs.map fun x => (x.key, root[x.origin]?.map fun e => e.2.digest q)) = none := by
  induction xs generalizing s handles memo with
  | nil => exact .inl ⟨s, [], rfl, hs, rfl⟩
  | cons x xs ih =>
    simp only [Action.internAll, List.map_cons]
    rcases originNode_spec hB hroot hm hs x.origin with
      ⟨s₁, memo₁, n, e, h₁, he, hd, hs₁, hm₁⟩ | ⟨hnone, e, h₁⟩
    · simp only [h₁, he, Option.map_some, Outline.collect]
      rcases ih hm₁ hs₁ with ⟨s₂, entries, h₂, hs₂, hc⟩ | ⟨s₂, e₂, h₂, hs₂, hc⟩
      · refine .inl ⟨s₂, (x.key, n) :: entries, by simp only [h₂], hs₂.perm List.perm_middle, ?_⟩
        rw [hc, Option.map_some, ← hd]
        rfl
      · exact .inr ⟨_, e₂, by simp only [h₂], hs₂.release, by rw [hc]; rfl⟩
    · simp only [h₁, hnone, Option.map_none, Outline.collect]
      exact .inr ⟨_, _, rfl, hs, trivial⟩

/-! ## Steps -/

theorem mapM_ofText {root : Entries Value} {entries : List SourceEntry}
    (h : root.mapM (fun e => SourceEntry.ofText e.1 (e.2.digest q)) = .ok entries) :
    entries.map SourceEntry.value = root.map fun e => e.2.digest q := by
  induction root generalizing entries with
  | nil => cases h; rfl
  | cons e root ih =>
    rw [List.mapM_cons] at h
    cases he : SourceEntry.ofText e.1 (e.2.digest q) with
    | error err => rw [he] at h; cases h
    | ok a =>
      rw [he] at h
      cases hr : root.mapM (fun e => SourceEntry.ofText e.1 (e.2.digest q)) with
      | error err => simp only [bind, Except.bind, hr] at h; cases h
      | ok rest =>
        simp only [bind, Except.bind, hr, pure, Except.pure, Except.ok.injEq] at h
        subst h
        have hv : a.value = e.2.digest q := by
          unfold SourceEntry.ofText at he
          cases hp : Pattern.parse e.1 with
          | error err => rw [hp] at he; cases he
          | ok p => rw [hp] at he; cases he; rfl
        rw [List.map_cons, List.map_cons, ih hr, hv]

/-- Only a map has entries. -/
theorem exists_asMap?_of_sourceEntries? {α : Type} {source : Value} {f : List SourceEntry → Option α} {x : α}
    (h : (source.sourceEntries? q).bind f = some x) : ∃ root, source.asMap? = some root := by
  cases hmap : source.asMap? with
  | some root => exact ⟨root, rfl⟩
  | none =>
    rw [Value.sourceEntries?, hmap] at h
    cases h

/-- What the step `expand` adds to an outline. -/
theorem expansions_outline (given : Premises) (root : Entries Value) :
    (Action.expansions q given root).toOption.map
        (·.map fun x => (x.key, (Value.map root).rootDigest? q x.origin)) =
      ((Value.map root).sourceEntries? q).bind fun entries =>
        Expansion.outcome given.hierarchy entries given.overrides := by
  have hexp : Action.expansions q given root =
      (root.mapM fun e => SourceEntry.ofText e.1 (e.2.digest q)) >>= fun entries =>
        Expansion.ofEntries given.hierarchy entries given.overrides := rfl
  rw [hexp]
  simp only [Value.sourceEntries?, Value.asMap?, Option.bind_some]
  cases hm : root.mapM fun e => SourceEntry.ofText e.1 (e.2.digest q) with
  | error e => rfl
  | ok entries =>
    simp only [bind, Except.bind, Except.toOption, Option.bind_some, Expansion.outcome]
    congr 1
    funext xs
    refine List.map_congr_left fun x _ => ?_
    have hv := congrArg (·[x.origin]?) (mapM_ofText hm)
    simp only [List.getElem?_map] at hv
    rw [hv]
    rfl

/-- The setting in which a run of passes over a configuration goes. -/
def Premises.setting (given : Premises) (q : Quantization) (source : Value) : Setting :=
  ⟨q, given.hierarchy, given.overrides, source⟩

theorem Sound.quantization_eq (h : Sound B q s handles) : s.quantization = q := by
  obtain ⟨live, h⟩ := h
  exact h.quantization

/-- The root of a draft is a map, or there is none. -/
theorem Draft.root_cases (d : Draft) :
    (∃ root, d.source = .map root ∧ d.root = .ok root) ∨ d.source.asMap? = none ∧ ∃ e, d.root = .error e := by
  cases hsource : d.source with
  | map root => exact .inl ⟨root, rfl, by rw [Draft.root, hsource]; rfl⟩
  | _ => exact .inr ⟨rfl, _, by rw [Draft.root, hsource]; rfl⟩

namespace Action

/-- An action does to a draft what it does to its outline; if it fails, the nodes of the draft are let go. -/
def Follows (B : List UInt8 → Prop) (q : Quantization) (handles : List Interned) (given : Premises) (s : Store)
    (d : Draft) (a : Action H) : Prop :=
  (∃ s' d', a.run given s d = (s', .ok d') ∧ d'.source = d.source ∧ Sound B q s' (d'.nodes ++ handles) ∧
    (d.outline q).act (given.setting q d.source) a = some (d'.outline q)) ∨
  ∃ s' e, a.run given s d = (s', .error e) ∧ Sound B q s' handles ∧
    (d.outline q).act (given.setting q d.source) a = none

section
variable {a : Action H} {given : Premises} {d : Draft} {e : PassError}

/-- A failure that leaves the store alone. -/
theorem Follows.of_error (hs : Sound B q s (d.nodes ++ handles)) (ht : a.transform given s d = (s, .error e))
    (hact : (d.outline q).act (given.setting q d.source) a = none) : a.Follows B q handles given s d :=
  .inr ⟨_, e, by simp only [Action.run, ht], hs.releaseAll, hact⟩

/-- A success that leaves the store and the nodes alone. -/
theorem Follows.of_ok (d' : Draft) (hs : Sound B q s (d.nodes ++ handles))
    (ht : a.transform given s d = (s, .ok d')) (hsource : d'.source = d.source) (hentries : d'.entries? = d.entries?)
    (hact : (d.outline q).act (given.setting q d.source) a = some (d'.outline q)) :
    a.Follows B q handles given s d := by
  refine .inl ⟨s, d', by simp only [Action.run, ht], hsource, ?_, hact⟩
  rwa [Draft.nodes, hentries]

theorem validate_follows (hs : Sound B q s (d.nodes ++ handles)) :
    (validate : Action H).Follows B q handles given s d := by
  cases hv : d.source.validate with
  | error e =>
    refine .of_error (e := .validation e) hs ?_ ?_
    · simp only [transform, hv]
      rfl
    · simp only [Outline.act, Premises.setting, hv]
      rfl
  | ok u =>
    refine .of_ok d hs ?_ rfl rfl ?_
    · simp only [transform, hv]
      rfl
    · simp only [Outline.act, Premises.setting, hv]
      rfl

theorem expand_follows (hs : Sound B q s (d.nodes ++ handles)) :
    (expand : Action H).Follows B q handles given s d := by
  have hq := Sound.quantization_eq hs
  rcases d.root_cases with ⟨root, hsource, hroot⟩ | ⟨hnone, e, hroot⟩
  · have hout := expansions_outline (q := q) given root
    cases hx : expansions q given root with
    | error e =>
      rw [hx] at hout
      refine .of_error (e := .expand e) hs ?_ ?_
      · simp only [transform, hroot, hq, bind, Except.bind, hx]
        rfl
      · simp only [Outline.act, Premises.setting, hsource]
        rw [← hout]
        rfl
    | ok xs =>
      rw [hx] at hout
      refine .of_ok { d with expansions? := some xs } hs ?_ rfl rfl ?_
      · simp only [transform, hroot, hq, bind, Except.bind, hx]
        rfl
      · simp only [Outline.act, Premises.setting, hsource]
        rw [← hout]
        simp only [Draft.outline, hsource]
        rfl
  · refine .of_error hs (e := e) ?_ ?_
    · simp only [transform, hroot]
      rfl
    · simp only [Outline.act, Premises.setting, Value.sourceEntries?, hnone]
      rfl

theorem intern_follows (hB : ¬ Digest.Collides B) (hp : d.source.Proper) (hh : d.source.Hashed B q)
    (hs : Sound B q s (d.nodes ++ handles)) : (intern : Action H).Follows B q handles given s d := by
  cases hx : d.expansions? with
  | none =>
    refine .of_error hs (e := .missingInput "expand") (by simp only [transform, hx]) ?_
    simp only [Outline.act, Draft.outline, hx]
    rfl
  | some xs =>
    rcases d.root_cases with ⟨root, hsource, hroot⟩ | ⟨hnone, e, hroot⟩
    · have hentries : ∀ e ∈ root, e.2.Proper ∧ e.2.Hashed B q := fun e he =>
        ⟨(hsource ▸ hp).entry he, (hsource ▸ hh).entry he⟩
      have hact : (d.outline q).act (given.setting q d.source) (intern : Action H) =
          (Outline.collect (xs.map fun x => (x.key, root[x.origin]?.map fun e => e.2.digest q))).map
            fun entries => { d.outline q with entries? := some entries } := by
        simp only [Outline.act, Draft.outline, Premises.setting, hx, hsource]
        rfl
      have hmemo : MemoOk q root (d.nodes ++ handles) [] := by rintro _ ⟨⟩
      rcases internAll_spec hB hentries hmemo hs xs with
        ⟨s', entries, hi, hs', hc⟩ | ⟨s', e, hi, hs', hc⟩
      · refine .inl ⟨s'.releaseAll d.nodes, { d with entries? := some entries }, ?_, rfl, ?_, ?_⟩
        · simp only [run, transform, hx, hroot, hi, withEntries]
        · exact Sound.releaseAll (hs'.perm (List.perm_append_comm_assoc ..))
        · rw [hact, hc]
          rfl
      · refine .inr ⟨s'.releaseAll d.nodes, e, ?_, hs'.releaseAll, by rw [hact, hc]; rfl⟩
        simp only [run, transform, hx, hroot, hi]
    · refine .of_error hs (e := e) (by simp only [transform, hx, hroot]) ?_
      simp only [Outline.act, Draft.outline, Premises.setting, hx, hnone]
      rfl

theorem index_follows (hs : Sound B q s (d.nodes ++ handles)) :
    (index : Action H).Follows B q handles given s d := by
  cases he : d.entries? with
  | none =>
    refine .of_error hs (e := .missingInput "intern") (by simp only [transform, he]) ?_
    simp only [Outline.act, Draft.outline, he]
    rfl
  | some entries =>
    refine .of_ok { d with index? := some (.build (entries.map Prod.fst)) } hs ?_ rfl rfl ?_
    · simp only [transform, he]
    · simp only [Outline.act, Draft.outline, he, outlineOf, Option.map_some, List.map_map]
      rfl

theorem IsStep.follows (ha : a.IsStep) (hB : ¬ Digest.Collides B) (given : Premises) (hp : d.source.Proper)
    (hh : d.source.Hashed B q) (hs : Sound B q s (d.nodes ++ handles)) : a.Follows B q handles given s d := by
  cases ha with
  | validate => exact validate_follows hs
  | expand => exact expand_follows hs
  | intern => exact intern_follows hB hp hh hs
  | index => exact index_follows hs

end

end Action

/-! ## Runs -/

/-- A compilation whose entries and index are known, but for the identities of the nodes. -/
structure Compilation.Shows (c : Compilation) (x : List (Key × Digest) × PathIndex) : Prop where
  entries : outlineOf c.entries.toList = x.1
  positions : c.positions = Compilation.positionsOf 0 c.entries.toList ∅
  index : c.index = x.2

theorem Draft.forecast_nil (d : Draft) (g : Setting) :
    Outline.forecast g ([] : List (Pass H)) (d.outline q) =
      (d.entries?.map outlineOf).bind fun entries => d.index?.map (entries, ·) := rfl

theorem Run.enter_draft (r : Run H) (p : Pass H) : (r.enter p).draft = r.draft := by
  simp only [Run.enter]
  split <;> rfl

/-- The next pass acts on the draft; if it fails, the run is over. -/
theorem Run.step_cons {r : Run H} {p : Pass H} {rest : List (Pass H)} (hrest : r.rest = p :: rest)
    (hp : p.action.IsStep) (given : Premises) : r.step given s =
      match p.action.run given s r.draft with
      | (s', .ok d) => (s', .next ((r.enter p).proceed rest d))
      | (s', .error e) =>
        (s', .done (⟨(r.enter p).phase, .failed, some p.name⟩ :: (r.enter p).transitions).reverse
          (.error ⟨p.name, (r.enter p).position, e⟩)) := by
  unfold Run.step
  simp only [hrest, Run.enter_draft]
  split
  · rename_i hook
    rw [hook] at hp
    cases hp
  · rfl

/-- A run that goes on comes to the same, and one that is over has come to what was forecast. -/
theorem Run.step_spec (hB : ¬ Digest.Collides B) {r : Run H} (hr : ∀ p ∈ r.rest, p.action.IsStep)
    (given : Premises) (hp : r.draft.source.Proper) (hh : r.draft.source.Hashed B q)
    (hs : Sound B q s (r.draft.nodes ++ handles)) :
    (∃ s' p r', r.step given s = (s', .next r') ∧ r.rest = p :: r'.rest ∧
      r'.draft.source = r.draft.source ∧ Sound B q s' (r'.draft.nodes ++ handles) ∧
      Outline.forecast (given.setting q r.draft.source) r'.rest (r'.draft.outline q) =
        Outline.forecast (given.setting q r.draft.source) r.rest (r.draft.outline q)) ∨
    (∃ s' tr c x, r.step given s = (s', .done tr (.ok c)) ∧ Sound B q s' (c.nodes ++ handles) ∧
      c.Shows x ∧ Outline.forecast (given.setting q r.draft.source) r.rest (r.draft.outline q) = some x) ∨
    ∃ s' tr e, r.step given s = (s', .done tr (.error e)) ∧ Sound B q s' handles ∧
      Outline.forecast (given.setting q r.draft.source) r.rest (r.draft.outline q) = none := by
  cases hrest : r.rest with
  | nil =>
    rw [Draft.forecast_nil]
    cases he : r.draft.entries? with
    | none =>
      have hnil : r.draft.nodes = [] := by rw [Draft.nodes, he]; rfl
      rw [hnil, List.nil_append] at hs
      exact .inr (.inr ⟨s, _, _, by simp only [Run.step, hrest, Run.publish, he]; rfl, hs, rfl⟩)
    | some entries =>
      have hnodes : r.draft.nodes = entries.map Prod.snd := by rw [Draft.nodes, he]; rfl
      cases hi : r.draft.index? with
      | none =>
        exact .inr (.inr ⟨_, _, _, by simp only [Run.step, hrest, Run.publish, he, hi]; rfl,
          hs.releaseAll, rfl⟩)
      | some index =>
        refine .inr (.inl ⟨s, _, .assemble entries index given.source given.passSet s.stats,
          (outlineOf entries, index), by simp only [Run.step, hrest, Run.publish, he, hi]; rfl,
          ?_, ⟨rfl, rfl, rfl⟩, rfl⟩)
        rwa [hnodes] at hs
  | cons p rest =>
    have hstep := hr p (by rw [hrest]; exact List.mem_cons_self)
    rw [Run.step_cons hrest hstep]
    rcases hstep.follows hB given hp hh hs with
      ⟨s', d', hrun, hsrc, hs', hact⟩ | ⟨s', e, hrun, hs', hact⟩
    · refine .inl ⟨s', p, (r.enter p).proceed rest d', by rw [hrun], rfl, hsrc, hs', ?_⟩
      simp only [Outline.forecast, hact, Option.bind_some]
      rfl
    · refine .inr (.inr ⟨s', _, _, by rw [hrun], hs', ?_⟩)
      simp only [Outline.forecast, hact, Option.bind_none]

/-- What is known when a run is over. -/
inductive Run.Ends (B : List UInt8 → Prop) (q : Quantization) (handles : List Interned)
    (foreseen : Option (List (Key × Digest) × PathIndex)) :
    Store → Except PassFailure Compilation → Prop
  | ok {s : Store} {c : Compilation} {x : List (Key × Digest) × PathIndex} (hs : Sound B q s (c.nodes ++ handles))
      (hc : c.Shows x) (hx : foreseen = some x) : Ends B q handles foreseen s (.ok c)
  | error {s : Store} {e : PassFailure} (hs : Sound B q s handles) (hx : foreseen = none) :
      Ends B q handles foreseen s (.error e)

theorem Run.toEnd_spec (hB : ¬ Digest.Collides B) {r : Run H} (hr : ∀ p ∈ r.rest, p.action.IsStep)
    (given : Premises) (hp : r.draft.source.Proper) (hh : r.draft.source.Hashed B q)
    (hs : Sound B q s (r.draft.nodes ++ handles)) {fuel : Nat} (hf : r.rest.length < fuel) :
    ∃ s' tr result, Run.toEnd given fuel s r = (s', tr, result) ∧ Run.Ends B q handles
      (Outline.forecast (given.setting q r.draft.source) r.rest (r.draft.outline q)) s' result := by
  induction fuel generalizing s r with
  | zero => omega
  | succ fuel ih =>
    simp only [Run.toEnd]
    rcases Run.step_spec hB hr given hp hh hs with
      ⟨s', p, r', hstep, hrest, hsrc, hs', hx⟩ | ⟨s', tr, c, x, hstep, hs', hc, hx⟩ |
      ⟨s', tr, e, hstep, hs', hx⟩
    · simp only [hstep]
      rw [← hx, ← hsrc]
      rw [hrest, List.length_cons] at hf
      refine ih (fun p' hp' => hr p' ?_) (hsrc ▸ hp) (hsrc ▸ hh) hs' (by omega)
      rw [hrest]
      exact List.mem_cons_of_mem _ hp'
    · simp only [hstep]
      exact ⟨_, _, _, rfl, .ok hs' hc hx⟩
    · simp only [hstep]
      exact ⟨_, _, _, rfl, .error hs' hx⟩

/-- What passes make of a raw configuration, told without running them. -/
def forecast (g : Setting) (passes : List (Pass H)) : Option (List (Key × Digest) × PathIndex) :=
  Outline.forecast g passes .empty

theorem Run.all_spec (hB : ¬ Digest.Collides B) {passes : List (Pass H)}
    (hr : ∀ p ∈ passes, p.action.IsStep) (given : Premises) {source : Value} (hp : source.Proper)
    (hh : source.Hashed B q) (hs : Sound B q s handles) :
    ∃ s' tr result, Run.all given s passes source = (s', tr, result) ∧
      Run.Ends B q handles (forecast (given.setting q source) passes) s' result :=
  Run.toEnd_spec (r := .start passes source) hB hr given hp hh hs (Nat.lt_succ_self _)

end

end ConfigCompiler
