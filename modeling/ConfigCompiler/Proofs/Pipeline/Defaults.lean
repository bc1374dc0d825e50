import ConfigCompiler.Proofs.Digest.Evaluation
import ConfigCompiler.Proofs.Pipeline.Order

/-!
# The default passes and the order of entries

The source digest of a root map leaves the order of its entries open, but the default passes do not. They
make the same of a root map in all orders just if it is not valid, or its patterns do not all expand, or all
its keys are decided, or every order conflicts (`Run.defaults_perm`). Ties go to the later entry:
`reversed_digest_ne` is about two orders of one map that are compiled to different values.
-/

namespace ConfigCompiler

/-! ## The default passes -/

theorem Outline.collect_eq_some_iff {xs : List (Key × Option Digest)} {entries : List (Key × Digest)} :
    Outline.collect xs = some entries ↔ xs = entries.map fun e => (e.1, some e.2) := by
  induction xs generalizing entries with
  | nil =>
    cases entries with
    | nil => simp [Outline.collect]
    | cons e entries => simp [Outline.collect]
  | cons x xs ih =>
    obtain ⟨key, v⟩ := x
    cases v with
    | none => cases entries <;> simp [Outline.collect]
    | some d =>
      rw [Outline.collect, Option.map_eq_some_iff]
      constructor
      · rintro ⟨rest, hrest, rfl⟩
        rw [ih.1 hrest]
        rfl
      · intro h
        cases entries with
        | nil => cases h
        | cons e rest =>
          obtain ⟨hx, hrest⟩ := List.cons.inj h
          cases e
          cases hx
          exact ⟨rest, ih.2 hrest, rfl⟩

/-- The default passes come to the outcome of an expansion of a valid configuration. -/
theorem forecast_builtins_eq_some_iff {H : Type} {g : Setting} {x : List (Key × Digest) × PathIndex} :
    forecast g (Pass.builtins : List (Pass H)) = some x ↔
      g.source.validate = .ok () ∧
      ((g.source.sourceEntries? g.quantization).bind fun entries =>
        Expansion.outcome g.hierarchy entries g.overrides) = some (x.1.map fun e => (e.1, some e.2)) ∧
      x.2 = .build (x.1.map Prod.fst) := by
  simp only [forecast, Outline.forecast, Pass.builtins, Outline.act]
  cases hv : g.source.validate with
  | error e => exact iff_of_false (fun h => by cases h) fun h => by cases h.1
  | ok u =>
    cases ho : (g.source.sourceEntries? g.quantization).bind fun entries =>
        Expansion.outcome g.hierarchy entries g.overrides with
    | none => exact iff_of_false (fun h => by cases h) fun h => by cases h.2.1
    | some xs =>
      obtain ⟨root, hroot⟩ := exists_asMap?_of_sourceEntries? ho
      have hc := @Outline.collect_eq_some_iff xs
      simp only [Except.toOption, Option.map_some, Option.bind_some, hroot, true_and,
        Option.some.injEq]
      cases hcol : Outline.collect xs with
      | none =>
        constructor
        · intro h
          cases h
        · intro h
          rw [hc.2 h.1] at hcol
          cases hcol
      | some entries =>
        simp only [Option.map_some, Option.bind_some, Outline.publish, Option.some.injEq]
        constructor
        · rintro rfl
          exact ⟨hc.1 hcol, rfl⟩
        · rintro ⟨hx, hi⟩
          rw [hc.2 hx] at hcol
          cases hcol
          exact Prod.ext rfl hi.symm

/-- What the default passes make of a root map, with an interner of its own. -/
def Run.defaults (H : Type) (given : Premises) (q : Quantization) (root : Entries Value) :
    Except PassFailure Compilation :=
  (Run.all given (.empty q) (Pass.builtins : List (Pass H)) (.map root)).2.2

/-- Two runs fail, or bind the same keys to values of the same digests, and so have one structural digest. -/
def Run.SameOutcome : (r r' : Except PassFailure Compilation) → Prop
  | .ok c, .ok c' => outlineOf c.entries.toList = outlineOf c'.entries.toList ∧ c.digest = c'.digest
  | .error _, .error _ => True
  | _, _ => False

/-- Different values of one key are declared. -/
def Setting.Declared (g : Setting) : Prop :=
  ∀ entries, g.source.sourceEntries? g.quantization = some entries →
    Expansion.Declared (Expansion.expanderOf g.hierarchy entries) entries g.overrides

def Setting.AllDecided (g : Setting) : Prop :=
  ∀ entries, g.source.sourceEntries? g.quantization = some entries →
    Expansion.AllDecided (Expansion.expanderOf g.hierarchy entries) entries g.overrides

/-- The claimants of some key are of two camps. -/
def Setting.Parted (g : Setting) : Prop :=
  ∃ entries key camp, g.source.sourceEntries? g.quantization = some entries ∧
    Expansion.Parted (Expansion.expanderOf g.hierarchy entries) entries g.overrides key camp

theorem Compilation.Shows.digest {c : Compilation} {x : List (Key × Digest) × PathIndex} (h : c.Shows x) :
    c.digest = Digest.ofFields "strata.compiled.v1"
      (.mapHeader x.1.length :: x.1.flatMap fun e => [.text e.1.text, .digest e.2]) := by
  have hsize : c.size = (outlineOf c.entries.toList).length := by simp [outlineOf, Compilation.size]
  rw [Compilation.digest, Compilation.fields, hsize, ← h.entries]
  congr 2
  rw [outlineOf, List.flatMap_map]

section
variable {H : Type} {q : Quantization} {given : Premises} {root root' : Entries Value}

theorem Run.defaults_spec {B : List UInt8 → Prop} (hB : ¬ Digest.Collides B) (given : Premises)
    (hv : (given.setting q (.map root)).Valid B) :
    (∃ c x, Run.defaults H given q root = .ok c ∧ c.Shows x ∧
      forecast (given.setting q (.map root)) (Pass.builtins : List (Pass H)) = some x) ∨
    ∃ e, Run.defaults H given q root = .error e ∧
      forecast (given.setting q (.map root)) (Pass.builtins : List (Pass H)) = none := by
  obtain ⟨s', tr, result, hrun, hends⟩ := Run.all_spec hB isStep_builtins given hv.proper hv.hashed
    (⟨[], Store.inv_empty B q⟩ : Store.Sound B q (.empty q) [])
  have hdef : Run.defaults H given q root = result := congrArg (fun r => r.2.2) hrun
  rw [hdef]
  cases hends with
  | ok hs hc hx => exact .inl ⟨_, _, rfl, hc, hx⟩
  | error hs hx => exact .inr ⟨_, rfl, hx⟩

theorem Run.sameOutcome_iff {B : List UInt8 → Prop} (hB : ¬ Digest.Collides B)
    (hv : (given.setting q (.map root)).Valid B) (hv' : (given.setting q (.map root')).Valid B) :
    Run.SameOutcome (Run.defaults H given q root) (Run.defaults H given q root') ↔
      forecast (given.setting q (.map root)) (Pass.builtins : List (Pass H)) =
        forecast (given.setting q (.map root')) (Pass.builtins : List (Pass H)) := by
  rcases Run.defaults_spec (H := H) hB given hv with ⟨c, x, hr, hc, hx⟩ | ⟨e, hr, hx⟩ <;>
    rcases Run.defaults_spec (H := H) hB given hv' with ⟨c', x', hr', hc', hx'⟩ | ⟨e', hr', hx'⟩ <;>
    rw [hr, hr', hx, hx']
  · constructor
    · rintro ⟨hentries, -⟩
      have hfst : x.1 = x'.1 := hc.entries.symm.trans (hentries.trans hc'.entries)
      have hsnd : x.2 = x'.2 := by
        rw [(forecast_builtins_eq_some_iff.1 hx).2.2, (forecast_builtins_eq_some_iff.1 hx').2.2, hfst]
      rw [Prod.ext hfst hsnd]
    · intro h
      cases h
      exact ⟨hc.entries.trans hc'.entries.symm, hc.digest.trans hc'.digest.symm⟩
  · exact iff_of_false id fun h => by cases h
  · exact iff_of_false id fun h => by cases h
  · exact iff_of_true trivial rfl

theorem Setting.Valid.perm {B : List UInt8 → Prop} (hv : (given.setting q (.map root)).Valid B)
    (hp : root.Perm root') : (given.setting q (.map root')).Valid B :=
  ⟨hv.proper.perm hp, hv.hashed.perm hv.proper.fits.2.1 hp⟩

theorem Setting.alike_perm (hn : (root.map (·.1)).Nodup) (hp : root.Perm root') :
    (given.setting q (.map root)).Alike (given.setting q (.map root')) :=
  ⟨rfl, fun _ => rfl, rfl, Value.digest_perm hn hp⟩

/-- All keys of an outcome have values. -/
theorem Expansion.IsOutcome.valued_eq {x : Expander} {entries : List SourceEntry}
    {expansions : List Expansion} (h : IsOutcome x entries expansions) :
    ∃ es : List (Key × Digest), valued entries expansions = es.map fun e => (e.1, some e.2) := by
  have hall : ∀ e ∈ valued entries expansions, ∃ d, e.2 = some d := by
    rintro ⟨key, v⟩ he
    obtain ⟨i, a, -, -, rfl⟩ := h.mem_valued.1 he
    exact ⟨_, rfl⟩
  revert hall
  generalize valued entries expansions = xs
  intro hall
  induction xs with
  | nil => exact ⟨[], rfl⟩
  | cons x xs ih =>
    obtain ⟨es, rfl⟩ := ih fun e he => hall e (List.mem_cons_of_mem _ he)
    obtain ⟨d, hd⟩ := hall x List.mem_cons_self
    exact ⟨(x.1, d) :: es, by rw [List.map_cons, ← hd]⟩

theorem Expansion.exists_of_outcome {h : Hierarchy} {entries : List SourceEntry} {overrides : Overrides}
    {xs : List (Key × Option Digest)} (ho : outcome h entries overrides = some xs) :
    AllExpand (expanderOf h entries) entries ∧
      ∃ es : List (Key × Digest), xs = es.map fun e => (e.1, some e.2) := by
  rcases ofEntries_spec h entries overrides with ⟨hall, -, ys, hok, hys⟩ | ⟨-, e, herr⟩
  · rw [outcome, hok] at ho
    cases ho
    exact ⟨hall, hys.valued_eq⟩
  · rw [outcome, herr] at ho
    cases ho

/-- What the default passes make of a valid root map is the outcome of its expansion. -/
theorem forecast_builtins_of_valid {g : Setting} (hvalid : g.source.validate = .ok ())
    {entries : List SourceEntry} (hs : g.source.sourceEntries? g.quantization = some entries) :
    (forecast g (Pass.builtins : List (Pass H))).map (fun x => x.1.map fun e => (e.1, some e.2)) =
      Expansion.outcome g.hierarchy entries g.overrides := by
  cases hx : forecast g (Pass.builtins : List (Pass H)) with
  | some x =>
    obtain ⟨-, hout, -⟩ := forecast_builtins_eq_some_iff.1 hx
    rw [hs, Option.bind_some] at hout
    exact hout.symm
  | none =>
    cases ho : Expansion.outcome g.hierarchy entries g.overrides with
    | none => rfl
    | some xs =>
      obtain ⟨-, es, rfl⟩ := Expansion.exists_of_outcome ho
      have hsome : forecast g (Pass.builtins : List (Pass H)) = some (es, .build (es.map Prod.fst)) :=
        forecast_builtins_eq_some_iff.2 ⟨hvalid, by rw [hs, Option.bind_some, ho], rfl⟩
      cases hx.symm.trans hsome

/-- A root map whose expansion fails is not compiled. -/
theorem Run.exists_error {B : List UInt8 → Prop} (hB : ¬ Digest.Collides B)
    (hv : (given.setting q (.map root)).Valid B) {entries : List SourceEntry}
    (hs : (Value.map root).sourceEntries? q = some entries)
    (ho : Expansion.outcome given.hierarchy entries given.overrides = none) :
    ∃ e, Run.defaults H given q root = .error e := by
  rcases Run.defaults_spec (H := H) hB given hv with ⟨c, x, -, -, hx⟩ | ⟨e, hr, -⟩
  · obtain ⟨-, hout, -⟩ := forecast_builtins_eq_some_iff.1 hx
    have hnone : ((Value.map root).sourceEntries? q).bind (fun entries =>
        Expansion.outcome given.hierarchy entries given.overrides) = none := by rw [hs, Option.bind_some, ho]
    cases hnone.symm.trans hout
  · exact ⟨e, hr⟩

section
variable {B : List UInt8 → Prop}

theorem Value.validate_perm (hB : ¬ Digest.Collides B) (hv : (given.setting q (.map root)).Valid B)
    (hperm : root.Perm root') : (Value.map root).validate = .ok () ↔ (Value.map root').validate = .ok () :=
  Value.validate_congr hB hv.proper (hv.perm hperm).proper hv.hashed (hv.perm hperm).hashed
    (Value.digest_perm hv.proper.fits.2.1 hperm)

/-- The default passes make the same of a valid root map in all orders just if the order does not matter. -/
theorem Run.sameOutcome_perm_iff (hB : ¬ Digest.Collides B) (hv : (given.setting q (.map root)).Valid B) :
    (∀ {root'}, root.Perm root' →
        Run.SameOutcome (Run.defaults H given q root) (Run.defaults H given q root')) ↔
      ((Value.map root).validate = .ok () → (given.setting q (.map root)).OrderFree) := by
  constructor
  · intro hsame hvalid entries hs
    refine Expansion.outcome_perm_iff.1 fun entries' hp => ?_
    obtain ⟨root', hperm, hs'⟩ := Value.exists_perm_root hs hp
    have hf := (Run.sameOutcome_iff hB hv (hv.perm hperm)).1 (hsame hperm)
    have hvalid' := (Value.validate_perm hB hv hperm).1 hvalid
    have h := forecast_builtins_of_valid (H := H) (g := given.setting q (.map root)) hvalid hs
    have h' := forecast_builtins_of_valid (H := H) (g := given.setting q (.map root')) hvalid' hs'
    exact h'.symm.trans ((congrArg _ hf.symm).trans h)
  · intro hfree root' hperm
    refine (Run.sameOutcome_iff hB hv (hv.perm hperm)).2 ?_
    by_cases hvalid : (Value.map root).validate = .ok ()
    · exact forecast_congr hB (Setting.alike_perm hv.proper.fits.2.1 hperm) hv (hv.perm hperm)
        (hfree hvalid) isStep_builtins
    · have hinvalid {r : Entries Value} (hr : (Value.map r).validate ≠ .ok ()) :
          forecast (given.setting q (.map r)) (Pass.builtins : List (Pass H)) = none := by
        refine Option.eq_none_iff_forall_not_mem.2 fun x hx => hr ?_
        exact (forecast_builtins_eq_some_iff.1 hx).1
      rw [hinvalid hvalid, hinvalid fun h => hvalid ((Value.validate_perm hB hv hperm).2 h)]

/-- A root map with a key whose claimants are of two camps is compiled in no order. -/
theorem Run.exists_error_of_parted (hB : ¬ Digest.Collides B) (hv : (given.setting q (.map root)).Valid B)
    (hp : (given.setting q (.map root)).Parted) (hperm : root.Perm root') :
    ∃ e, Run.defaults H given q root' = .error e := by
  obtain ⟨entries, key, camp, hs, hparted⟩ := hp
  obtain ⟨entries', hs', hp'⟩ := Value.sourceEntries?_perm (hperm.map _) hs
  refine Run.exists_error hB (hv.perm hperm) hs' (Expansion.outcome_eq_none_iff.2 fun _ => ?_)
  exact (hparted.doomed entries' hp').congr (Expansion.alike_perm given.hierarchy hp')

/-- A root map with undeclared claimants of different values fails in some order. -/
theorem Run.exists_perm_error (hB : ¬ Digest.Collides B) (hv : (given.setting q (.map root)).Valid B)
    (hno : ¬ (given.setting q (.map root)).Declared) :
    ∃ root' e, root.Perm root' ∧ Run.defaults H given q root' = .error e := by
  simp only [Setting.Declared, Classical.not_forall] at hno
  obtain ⟨entries, hs, hno⟩ := hno
  obtain ⟨entries', hp, hnone⟩ := Expansion.exists_perm_none hno
  obtain ⟨root', hperm, hs'⟩ := Value.exists_perm_root hs hp
  obtain ⟨e, hr⟩ := Run.exists_error (H := H) hB (hv.perm hperm) hs' hnone
  exact ⟨root', e, hperm, hr⟩

/-- Where declared entries decide not every key, some other order is compiled to other values. -/
theorem Run.exists_perm_ne (hB : ¬ Digest.Collides B) (hv : (given.setting q (.map root)).Valid B)
    {c : Compilation} (hr : Run.defaults H given q root = .ok c)
    (hd : (given.setting q (.map root)).Declared) (hno : ¬ (given.setting q (.map root)).AllDecided) :
    ∃ root' c', root.Perm root' ∧ Run.defaults H given q root' = .ok c' ∧
      outlineOf c'.entries.toList ≠ outlineOf c.entries.toList := by
  obtain ⟨x, hc, hx⟩ : ∃ x, c.Shows x ∧ forecast (given.setting q (.map root))
      (Pass.builtins : List (Pass H)) = some x := by
    rcases Run.defaults_spec (H := H) hB given hv with ⟨c', x, hr', hc, hx⟩ | ⟨e, hr', hx⟩
    · cases hr.symm.trans hr'
      exact ⟨x, hc, hx⟩
    · cases hr.symm.trans hr'
  obtain ⟨hvalid, hout, -⟩ := forecast_builtins_eq_some_iff.1 hx
  obtain ⟨entries, hs, hout⟩ := Option.bind_eq_some_iff.1 hout
  obtain ⟨hall, -⟩ := Expansion.exists_of_outcome hout
  have hdecl := hd entries hs
  simp only [Setting.AllDecided, Expansion.AllDecided, Classical.not_forall] at hno
  obtain ⟨entries₀, hs₀, key, a, ha, hno⟩ := hno
  obtain rfl : entries = entries₀ := Option.some.inj (hs.symm.trans hs₀)
  obtain ⟨entries', hp, hne⟩ := Expansion.exists_perm_ne hall hdecl ha hno
  obtain ⟨root', hperm, hs'⟩ := Value.exists_perm_root hs hp
  have hvalid' := (Value.validate_perm hB hv hperm).1 hvalid
  have hf' := forecast_builtins_of_valid (H := H) (g := given.setting q (.map root')) hvalid' hs'
  rcases Run.defaults_spec (H := H) hB given (hv.perm hperm) with ⟨c', x', hr', hc', hx'⟩ | ⟨e, -, hx'⟩
  · refine ⟨root', c', hperm, hr', fun he => hne ?_⟩
    have hsame : x'.1 = x.1 := hc'.entries.symm.trans (he.trans hc.entries)
    rw [hx', Option.map_some, hsame] at hf'
    exact hout.trans hf'
  · obtain ⟨ys, -, hsome⟩ := (hdecl.perm hp).outcome_eq
      ((Expansion.allExpand_congr (Expansion.alike_perm given.hierarchy hp) hp).1 hall)
    rw [hx'] at hf'
    cases hf'.trans hsome

end

/--
The default passes make the same of a root map in all orders just if the order of its entries does not matter.
They fail in every order if the claimants of some key are of two camps, and in some order if different values
of some key are undeclared. If all are declared and some key is not decided, another order binds some key to
another value.
-/
theorem Run.defaults_perm (given : Premises) (hp : (Value.map root).Proper) :
    Digest.Collides ((Value.map root).hashes q) ∨
    ((∀ {root'}, root.Perm root' →
        Run.SameOutcome (Run.defaults H given q root) (Run.defaults H given q root')) ↔
      ((Value.map root).validate = .ok () → (given.setting q (.map root)).OrderFree)) ∧
    ((given.setting q (.map root)).Parted → ∀ {root'}, root.Perm root' →
      ∃ e, Run.defaults H given q root' = .error e) ∧
    (¬ (given.setting q (.map root)).Declared →
      ∃ root' e, root.Perm root' ∧ Run.defaults H given q root' = .error e) ∧
    (∀ {c}, Run.defaults H given q root = .ok c → (given.setting q (.map root)).Declared →
      ¬ (given.setting q (.map root)).AllDecided →
      ∃ root' c', root.Perm root' ∧ Run.defaults H given q root' = .ok c' ∧
        outlineOf c'.entries.toList ≠ outlineOf c.entries.toList) := by
  refine Classical.or_iff_not_imp_left.2 fun hB => ?_
  have hv : (given.setting q (.map root)).Valid ((Value.map root).hashes q) :=
    ⟨hp, Value.hashed_hashes q _⟩
  exact ⟨Run.sameOutcome_perm_iff hB hv, fun hparted _ => Run.exists_error_of_parted hB hv hparted,
    Run.exists_perm_error hB hv, fun hr hd hno => Run.exists_perm_ne hB hv hr hd hno⟩

end

/-! ## A tie -/

/-- Two patterns for the key `east.x`, neither of them more specific. -/
def tied : Entries Value := [("@edge.x", .int 1), ("@zone.x", .int 2)]

def tiedPair : Overrides := .ofPairs [("@edge.x", "@zone.x")]

def tiedPremises (overrides : Overrides) : Premises :=
  ⟨Expansion.shared, overrides, (Value.map tied).digest .disabled, default⟩

theorem proper_tied : (Value.map tied).Proper := by
  intro u hu
  simp only [Value.parts, tied, Value.entryParts, List.append_nil, List.singleton_append,
    List.mem_cons, List.not_mem_nil, or_false] at hu
  rcases hu with rfl | rfl | rfl
  · exact ⟨by decide, by decide, by decide⟩
  · trivial
  · trivial

theorem int_digest_ne : (Value.int 1).digest .disabled ≠ (Value.int 2).digest .disabled := by
  simp only [Value.digest, Digest.ofValueFields, Digest.ofFields_eq]
  decide +kernel

theorem encoded_tied : (Value.map tied).encoded .disabled = Digest.encode Digest.valueDomain
    (Digest.mapFields [("@edge.x", (Value.int 1).digest .disabled),
      ("@zone.x", (Value.int 2).digest .disabled)]) := by
  rw [Value.encoded, Value.fields, Entries.sorted, List.mergeSort_of_pairwise (by simp [tied])]
  rfl

theorem not_collides_tied : ¬ Digest.Collides ((Value.map tied).hashes .disabled) := by
  have hnodup : ([(Value.map tied).encoded .disabled, (Value.int 1).encoded .disabled,
      (Value.int 2).encoded .disabled].map Digest.ofBytes).Nodup := by
    rw [encoded_tied]
    simp only [Value.digest, Digest.ofValueFields, Digest.ofFields_eq, List.map, Digest.ofBytes_eq]
    decide +kernel
  refine fun h => Digest.not_collides_of_nodup hnodup (h.mono ?_)
  rintro _ ⟨u, hu, rfl⟩
  simp only [Value.parts, tied, Value.entryParts, List.append_nil, List.singleton_append, List.mem_cons,
    List.not_mem_nil, or_false] at hu ⊢
  rcases hu with rfl | rfl | rfl
  · exact .inl rfl
  · exact .inr (.inl rfl)
  · exact .inr (.inr rfl)

theorem valid_tied (given : Premises) :
    (given.setting .disabled (.map tied)).Valid ((Value.map tied).hashes .disabled) :=
  ⟨proper_tied, Value.hashed_hashes _ _⟩

theorem tied_reverse : tied.Perm tied.reverse := (List.reverse_perm tied).symm

section
open Expansion

/-- The entry of a pattern for the key `x` of all that is below a node. -/
def belowNode (node : String) (d : Digest) : SourceEntry := ⟨⟨[.node node, .literal "x"]⟩, d⟩

theorem ofText_edge (d : Digest) : SourceEntry.ofText "@edge.x" d = .ok (belowNode "edge" d) := by
  have h : Pattern.parse "@edge.x" = .ok ⟨[.node "edge", .literal "x"]⟩ := by cbv
  rw [SourceEntry.ofText, h]
  rfl

theorem ofText_zone (d : Digest) : SourceEntry.ofText "@zone.x" d = .ok (belowNode "zone" d) := by
  have h : Pattern.parse "@zone.x" = .ok ⟨[.node "zone", .literal "x"]⟩ := by cbv
  rw [SourceEntry.ofText, h]
  rfl

theorem sourceEntries?_tied : (Value.map tied).sourceEntries? .disabled =
    some [belowNode "edge" ((Value.int 1).digest .disabled),
      belowNode "zone" ((Value.int 2).digest .disabled)] :=
  Value.sourceEntries?_eq_some_iff.2 (.cons (ofText_edge _) (.cons (ofText_zone _) .nil))

theorem sourceEntries?_tied_reverse : (Value.map tied.reverse).sourceEntries? .disabled =
    some [belowNode "zone" ((Value.int 2).digest .disabled),
      belowNode "edge" ((Value.int 1).digest .disabled)] :=
  Value.sourceEntries?_eq_some_iff.2 (.cons (ofText_zone _) (.cons (ofText_edge _) .nil))

theorem expand_edge_zone (d e : Digest) :
    let x := expanderOf shared [belowNode "edge" d, belowNode "zone" e]
    x.expand (belowNode "edge" d).pattern = .ok [⟨"east.x"⟩] ∧
      x.expand (belowNode "zone" e).pattern = .ok [⟨"east.x"⟩] := ⟨by cbv, by cbv⟩

theorem expand_zone_edge (d e : Digest) :
    let x := expanderOf shared [belowNode "zone" e, belowNode "edge" d]
    x.expand (belowNode "zone" e).pattern = .ok [⟨"east.x"⟩] ∧
      x.expand (belowNode "edge" d).pattern = .ok [⟨"east.x"⟩] := ⟨by cbv, by cbv⟩

end

/-- A valid root map of one key is compiled to the outcome of its expansion. -/
theorem Run.defaults_singleton {B : List UInt8 → Prop} (hB : ¬ Digest.Collides B) {H : Type}
    {q : Quantization} {given : Premises} {root : Entries Value}
    (hv : (given.setting q (.map root)).Valid B) (hok : (Value.map root).validate = .ok ())
    {entries : List SourceEntry} (hs : (Value.map root).sourceEntries? q = some entries) {key : Key}
    {d : Digest} (ho : Expansion.outcome given.hierarchy entries given.overrides = some [(key, some d)]) :
    ∃ c, Run.defaults H given q root = .ok c ∧ outlineOf c.entries.toList = [(key, d)] ∧
      c.digest = Digest.ofFields "strata.compiled.v1" [.mapHeader 1, .text key.text, .digest d] := by
  have hx : forecast (given.setting q (.map root)) (Pass.builtins : List (Pass H)) =
      some ([(key, d)], .build [key]) :=
    forecast_builtins_eq_some_iff.2 ⟨hok, Option.bind_eq_some_iff.2 ⟨entries, hs, ho⟩, rfl⟩
  rcases Run.defaults_spec (H := H) hB given hv with ⟨c, x, hr, hc, hx'⟩ | ⟨e, -, hx'⟩
  · cases hx.symm.trans hx'
    exact ⟨c, hr, hc.entries, hc.digest⟩
  · cases hx.symm.trans hx'

/-- The tied patterns fail in both orders if they are undeclared; if they are declared the order shows. -/
theorem Run.defaults_perm_tied : (Value.map tied).Proper ∧
    Run.SameOutcome (Run.defaults Empty (tiedPremises .none) .disabled tied)
      (Run.defaults Empty (tiedPremises .none) .disabled tied.reverse) ∧
    (∃ e, Run.defaults Empty (tiedPremises .none) .disabled tied.reverse = .error e) ∧
    (∃ root' e, tied.Perm root' ∧ Run.defaults Empty (tiedPremises .none) .disabled root' = .error e) ∧
    ∃ root' c', tied.Perm root' ∧
      Run.defaults Empty (tiedPremises tiedPair) .disabled root' = .ok c' ∧
      outlineOf c'.entries.toList ≠ [(⟨"east.x"⟩, (Value.int 2).digest .disabled)] := by
  obtain ⟨hsame, hfail, hsome, -⟩ := (Run.defaults_perm (H := Empty) (q := .disabled)
    (tiedPremises .none) proper_tied).resolve_left not_collides_tied
  obtain ⟨-, -, -, hshows⟩ := (Run.defaults_perm (H := Empty) (q := .disabled)
    (tiedPremises tiedPair) proper_tied).resolve_left not_collides_tied
  obtain ⟨hedge, hzone⟩ := expand_edge_zone ((Value.int 1).digest .disabled)
    ((Value.int 2).digest .disabled)
  obtain ⟨ha, hb⟩ := Expansion.claimants_pair hedge hzone
  refine ⟨proper_tied, hsame.2 ?_ tied_reverse, ?_, ?_, ?_⟩
  · exact fun _ entries _ => Expansion.orderFree_none _ entries
  · exact hfail ⟨_, _, _, sourceEntries?_tied, Expansion.parted_none ha hb int_digest_ne⟩ tied_reverse
  · refine hsome fun hd => ?_
    cases hd _ sourceEntries?_tied _ _ _ ha hb int_digest_ne
  · obtain ⟨c, hr, hc, -⟩ := Run.defaults_singleton (H := Empty) not_collides_tied
      (valid_tied (tiedPremises tiedPair)) (by rfl) sourceEntries?_tied
      (Expansion.outcome_pair hedge hzone (by decide) (by decide))
    have heast : outlineOf c.entries.toList = [(⟨"east.x"⟩, (Value.int 2).digest .disabled)] := hc
    rw [← heast]
    refine hshows hr (fun entries hs => ?_) fun hall => ?_
    · cases sourceEntries?_tied.symm.trans hs
      exact Expansion.declared_pair (by decide)
    · exact Expansion.not_allDecided_pair ha hb int_digest_ne (by decide) (hall _ sourceEntries?_tied)

/-- Two orders of one map, with one digest, are compiled to different values. -/
theorem reversed_digest_ne : tied.Perm tied.reverse ∧
    (Value.map tied).digest .disabled = (Value.map tied.reverse).digest .disabled ∧
    ∃ c c', Run.defaults Empty (tiedPremises tiedPair) .disabled tied = .ok c ∧
      Run.defaults Empty (tiedPremises tiedPair) .disabled tied.reverse = .ok c' ∧
      c.digest ≠ c'.digest := by
  obtain ⟨c, hr, -, hd⟩ := Run.defaults_singleton (H := Empty) not_collides_tied
    (valid_tied (tiedPremises tiedPair)) (by rfl) sourceEntries?_tied
    (Expansion.outcome_pair (expand_edge_zone _ _).1 (expand_edge_zone _ _).2 (by decide) (by decide))
  obtain ⟨c', hr', -, hd'⟩ := Run.defaults_singleton (H := Empty) not_collides_tied
    ((valid_tied (tiedPremises tiedPair)).perm tied_reverse) (by rfl) sourceEntries?_tied_reverse
    (Expansion.outcome_pair (expand_zone_edge _ _).1 (expand_zone_edge _ _).2 (by decide) (by decide))
  refine ⟨tied_reverse, Value.digest_perm (by decide) tied_reverse, c, c', hr, hr', ?_⟩
  rw [hd, hd']
  simp only [Value.digest, Digest.ofValueFields, Digest.ofFields_eq]
  decide +kernel

end ConfigCompiler
