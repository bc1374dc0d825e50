import ConfigCompiler.Proofs.Binary64.Range
import ConfigCompiler.Proofs.Digest.Evaluation
import ConfigCompiler.Proofs.Kernel.Policy
import ConfigCompiler.Proofs.Pipeline.Meaning

/-!
# The floats of a compilation

Each float inside a node stands for a float at the same place of the value (`Represents.float_mem_iff`), and
the floats of a valid value are finite at any depth (`Value.isFinite_of_validate`). So the floats of what the
default passes make are those that stand for finite ones (`Kernel.floats_of_defaults`). They are no NaNs; but
where buckets are wide enough, one of them may be infinite (`Kernel.infinite_of_wide`).
-/

namespace ConfigCompiler

open Store (Represents)

/-! ## Floats of values and nodes -/

theorem exists_mem_map_iff {α β : Type} {f : α → β} {P : β → Prop} {xs : List α} :
    (∃ y ∈ xs.map f, P y) ↔ ∃ x ∈ xs, P (f x) := by simp

/-- A float inside a node is the node itself, or inside one of its children. -/
theorem Interned.float_mem_iff {n : Interned} {y : Binary64} : .float y ∈ n.toValue.parts ↔
    n.shape = .float y ∨ ∃ c ∈ n.shape.children, .float y ∈ c.toValue.parts := by
  cases n with | node id d shape =>
  cases shape with
  | seq items =>
    simp [Interned.toValue, Interned.shapeToValue, Interned.shape, Shape.children, Value.parts,
      Value.itemParts_eq_flatMap, Interned.itemsToValues_eq]
  | map entries =>
    simp only [Interned.toValue, Interned.shapeToValue, Interned.shape, Shape.children, Value.parts,
      Value.entryParts_eq_flatMap, Interned.entriesToValues_eq, List.mem_cons, reduceCtorEq, false_or,
      List.mem_flatMap, exists_mem_map_iff]
  | _ => simp [Interned.toValue, Interned.shapeToValue, Interned.shape, Shape.children, Value.parts, eq_comm]

/-- What holds of related elements holds of some element of each of two related lists, or of none. -/
theorem exists_mem_iff_of_forall₂ {α β : Type} {R : α → β → Prop} {P : α → Prop} {Q : β → Prop}
    {xs : List α} {ys : List β} (h : List.Forall₂ R xs ys)
    (hPQ : ∀ x ∈ xs, ∀ {y}, R x y → (Q y ↔ P x)) : (∃ y ∈ ys, Q y) ↔ ∃ x ∈ xs, P x := by
  induction h with
  | nil => simp
  | @cons x y xs ys hr _ ih =>
    simp only [List.mem_cons, exists_eq_or_imp]
    rw [hPQ x List.mem_cons_self hr, ih fun x hx => hPQ x (List.mem_cons_of_mem _ hx)]

/-- The floats inside a node are those that stand for the floats inside its value. -/
theorem Store.Represents.float_mem_iff {q : Quantization} {v : Value} {n : Interned} {y : Binary64}
    (h : Represents q v n) :
    .float y ∈ n.toValue.parts ↔ ∃ x, .float x ∈ v.parts ∧ q.apply x = y := by
  induction v using Value.induction_scalar q generalizing n with
  | scalar v shape hshape =>
    cases h with
    | scalar _ hs =>
      rw [Interned.float_mem_iff, ← Option.some.inj (hshape.symm.trans hs)]
      cases v <;> cases hshape <;> simp [Shape.children, Value.parts]
    | seq _ _ _ => cases hshape
    | map _ _ _ => cases hshape
  | seq items ih =>
    cases h with
    | scalar _ hs => cases hs
    | @seq _ _ ns _ hs hns =>
      have hall := exists_mem_iff_of_forall₂ hns fun v hv _ hr => ih v hv hr
      rw [Interned.float_mem_iff, hs]
      simp only [Shape.children, reduceCtorEq, false_or, hall, Value.parts,
        Value.itemParts_eq_flatMap, List.mem_cons, List.mem_flatMap]
      constructor
      · rintro ⟨v, hv, x, hx, hy⟩
        exact ⟨x, ⟨v, hv, hx⟩, hy⟩
      · rintro ⟨x, ⟨v, hv, hx⟩, hy⟩
        exact ⟨v, hv, x, hx, hy⟩
  | map entries ih =>
    cases h with
    | scalar _ hs => cases hs
    | @map _ _ ns _ hs hns =>
      have hall : (∃ c ∈ ns, .float y ∈ c.toValue.parts) ↔
          ∃ v ∈ entries.map (·.2), ∃ x, .float x ∈ v.parts ∧ q.apply x = y :=
        exists_mem_iff_of_forall₂ hns fun v hv _ hr => by
          obtain ⟨e, he, rfl⟩ := List.mem_map.1 hv
          exact ih e he hr
      have hperm (c : Interned) : c ∈ (Shape.map (Store.keyed entries ns)).children ↔ c ∈ ns :=
        (Store.keyed_children hns).mem_iff
      rw [Interned.float_mem_iff, hs]
      simp only [hperm, hall, reduceCtorEq, false_or, Value.parts, Value.entryParts_eq_flatMap,
        List.mem_cons, List.mem_flatMap, exists_mem_map_iff]
      constructor
      · rintro ⟨e, he, x, hx, hy⟩
        exact ⟨x, ⟨e, he, hx⟩, hy⟩
      · rintro ⟨x, ⟨e, he, hx⟩, hy⟩
        exact ⟨e, he, x, hx, hy⟩

/-! ## Floats of valid values -/

theorem Value.isFinite_of_checkAt {v : Value} {path : String} {depth : Nat}
    (h : checkAt path depth v = .ok ()) {x : Binary64} (hx : .float x ∈ v.parts) : x.isFinite = true := by
  induction v using Value.induction generalizing path depth with
  | float y =>
    obtain rfl : x = y := by simpa [parts] using hx
    exact (checkAt_float_ok_iff.1 h).2
  | seq items ih =>
    simp only [parts, itemParts_eq_flatMap, List.mem_cons, reduceCtorEq, List.mem_flatMap, false_or] at hx
    obtain ⟨w, hw, hx⟩ := hx
    obtain ⟨i, hi⟩ := List.getElem?_of_mem hw
    exact ih w hw ((checkAt_seq_ok_iff.1 h).2 hi) hx
  | map entries ih =>
    simp only [parts, entryParts_eq_flatMap, List.mem_cons, reduceCtorEq, List.mem_flatMap, false_or] at hx
    obtain ⟨e, he, hx⟩ := hx
    exact ih e he ((checkAt_map_ok_iff.1 h).2 e he).2 hx
  | _ => simp [parts] at hx

theorem Value.isFinite_of_validate {v : Value} (h : v.validate = .ok ()) {x : Binary64}
    (hx : .float x ∈ v.parts) : x.isFinite = true := by
  cases v with
  | map entries =>
    have hroot : checkRoot entries = .ok () := h
    simp only [parts, entryParts_eq_flatMap, List.mem_cons, reduceCtorEq, List.mem_flatMap,
      false_or] at hx
    obtain ⟨e, he, hx⟩ := hx
    exact isFinite_of_checkAt (checkRoot_ok_iff.1 hroot e he).2 hx
  | _ => cases h

/-! ## One float -/

/-- A root map of one float. -/
def lone (x : Binary64) : Entries Value := [("a", .float x)]

def lonePremises : Premises := ⟨.empty, .none, default, default⟩

theorem parts_lone {x : Binary64} {v : Value} :
    v ∈ (Value.map (lone x)).parts ↔ v = .map (lone x) ∨ v = .float x := by
  simp [lone, Value.parts, Value.entryParts]

theorem proper_lone (x : Binary64) : (Value.map (lone x)).Proper := by
  intro v hv
  rcases parts_lone.1 hv with rfl | rfl
  · exact ⟨by simp [lone], by simp [lone], by simp [lone, show "a".utf8ByteSize = 1 from rfl]⟩
  · trivial

theorem encoded_lone (q : Quantization) (x : Binary64) : (Value.map (lone x)).encoded q =
    Digest.encode Digest.valueDomain (Digest.mapFields [("a", (Value.float x).digest q)]) := by
  rw [Value.encoded, Value.fields, Entries.sorted, List.mergeSort_of_pairwise (by simp [lone])]
  rfl

theorem not_collides_lone {q : Quantization} {x : Binary64}
    (hne : Digest.ofFields Digest.valueDomain (Digest.mapFields [("a", (Value.float x).digest q)]) ≠
      (Value.float x).digest q) :
    ¬ Digest.Collides ((Value.map (lone x)).hashes q) := by
  have hmap : Digest.ofBytes ((Value.map (lone x)).encoded q) ≠ Digest.ofBytes ((Value.float x).encoded q) := by
    rw [encoded_lone]
    rwa [Value.digest_eq_ofValueFields] at hne
  rintro ⟨_, _, ⟨u, hu, rfl⟩, ⟨v, hv, rfl⟩, huv, heq⟩
  rcases parts_lone.1 hu with rfl | rfl <;> rcases parts_lone.1 hv with rfl | rfl
  · exact huv rfl
  · exact hmap heq
  · exact hmap heq.symm
  · exact huv rfl

theorem sourceEntries?_lone (q : Quantization) (x : Binary64) : (Value.map (lone x)).sourceEntries? q =
    some [⟨⟨[.literal "a"]⟩, (Value.float x).digest q⟩] := by
  have hparse : Pattern.parse "a" = .ok ⟨[.literal "a"]⟩ := by cbv
  refine Value.sourceEntries?_eq_some_iff.2 (.cons ?_ .nil)
  rw [SourceEntry.ofText, hparse]
  rfl

theorem outcome_lone (overrides : Overrides) (d : Digest) :
    Expansion.outcome .empty [⟨⟨[.literal "a"]⟩, d⟩] overrides = some [(⟨"a"⟩, some d)] := by
  refine Expansion.outcome_singleton (List.forall_mem_singleton.2 (by cbv)) ?_ (List.cons_ne_nil _ _) ?_
  · rintro _ e f ⟨he, -⟩ ⟨hf, -⟩ hne
    rw [List.mem_singleton.1 he, List.mem_singleton.1 hf] at hne
    exact absurd rfl hne
  · intro i e _ he
    rw [List.mem_singleton.1 (List.mem_of_getElem? he)]

/-- What a kernel with the default passes compiles the map to. -/
theorem Kernel.exists_lone {H : Type} {g : Settings} (hg : g.check = .ok ())
    (hd : g.passes = Settings.defaultPasses) {x : Binary64}
    (hB : ¬ Digest.Collides ((Value.map (lone x)).hashes g.quantization))
    (hx : (Value.map (lone x)).validate = .ok ()) :
    ∃ (k : Kernel H) (s : Store) (transitions : List Transition) (c : Compilation) (n : Interned),
      Kernel.new g .empty = .ok k ∧
      Run.all lonePremises (.empty g.quantization) k.pipeline (.map (lone x)) =
        (s, transitions, .ok c) ∧
      c.entries.toList = [(⟨"a"⟩, n)] ∧ Represents g.quantization (.float x) n := by
  have hs : Store.Sound (fun _ => True) g.quantization (.empty g.quantization) [] := ⟨[], Store.inv_empty _ _⟩
  obtain ⟨k, hk, hpipeline⟩ : ∃ k : Kernel H, Kernel.new g .empty = .ok k ∧ k.pipeline = Pass.builtins := by
    unfold Kernel.new
    rw [hg, hd]
    exact ⟨_, rfl, rfl⟩
  have hvalid : (lonePremises.setting g.quantization (.map (lone x))).Valid
      ((Value.map (lone x)).hashes g.quantization) := ⟨proper_lone x, Value.hashed_hashes _ _⟩
  obtain ⟨c, hc, hentries, -⟩ := Run.defaults_singleton (H := H) hB hvalid hx
    (sourceEntries?_lone g.quantization x) (outcome_lone _ _)
  cases hrun : Run.all lonePremises (.empty g.quantization)
    (Pass.builtins : List (Pass H)) (.map (lone x)) with | mk s rest =>
  obtain ⟨transitions, result⟩ := rest
  obtain rfl : result = .ok c := (congrArg (fun r => r.2.2) hrun).symm.trans hc
  obtain ⟨⟨key, n⟩, hone, hpair⟩ := List.map_eq_singleton_iff.1 hentries
  obtain ⟨rfl, -⟩ := Prod.mk.inj hpair
  obtain ⟨hs', hc'⟩ := Run.all_traced isStep_builtins (proper_lone x) hs hrun
  obtain ⟨root, hroot, hmeans⟩ := hc'.means (proper_lone x) hs'
  cases hroot
  obtain ⟨r, hr, hnode⟩ := hmeans.value (hone ▸ List.mem_singleton_self _)
  rw [List.mem_singleton.1 hr.1] at hnode
  exact ⟨k, s, transitions, c, n, hk, hpipeline ▸ hrun, hone, hnode.represents⟩

/-! ## Compilations -/

theorem Run.validate_of_all {H : Type} {p : Pass H} {rest : List (Pass H)} (hp : p.action = .validate)
    {given : Premises} {s s' : Store} {source : Value} {transitions : List Transition} {c : Compilation}
    (h : Run.all given s (p :: rest) source = (s', transitions, .ok c)) : source.validate = .ok () := by
  have hstep := Run.step_cons (s := s) (r := Run.start (p :: rest) source) rfl (hp ▸ .validate) given
  rw [Run.all, List.length_cons, Run.toEnd, hstep, hp] at h
  cases hv : source.validate with
  | ok u => rfl
  | error e =>
    have hfail : (Action.validate : Action H).run given s (.ofSource source) =
        (s.releaseAll (Draft.ofSource source).nodes, .error (.validation e)) := by
      simp only [Action.run, Action.transform, Draft.ofSource, hv]
      rfl
    have hdraft : (Run.start (p :: rest) source).draft = .ofSource source := rfl
    rw [hdraft, hfail] at h
    cases h

/--
Whatever checked settings a kernel with the default passes has, and whatever hierarchy: the floats of a
compiled configuration are those that stand for the floats of its values, which are all finite. None of them is
a NaN, and those are infinite whose products of bucket and width are too large. There are none of these where
the width is below `2 ^ 961`, or where floats are not bucketed.
-/
theorem Kernel.floats_of_defaults {H : Type} {g : Settings} {hierarchy : Hierarchy} {k : Kernel H}
    (hk : Kernel.new g hierarchy = .ok k) (hd : g.passes = Settings.defaultPasses) {given : Premises}
    {s s' : Store} {handles : List Interned} (hs : Store.Sound (fun _ => True) g.quantization s handles)
    {source : Value} (hp : source.Proper) {transitions : List Transition} {c : Compilation}
    (h : Run.all given s k.pipeline source = (s', transitions, .ok c)) :
    ∃ root, source = .map root ∧
      (∀ key n, (key, n) ∈ c.entries.toList → ∃ r, Stands given.hierarchy root r key ∧
        ∀ y, .float y ∈ n.toValue.parts ↔ ∃ x, .float x ∈ r.2.parts ∧ g.quantization.apply x = y) ∧
      (∀ x, .float x ∈ source.parts → x.isFinite = true ∧ (g.quantization.apply x).isNaN = false ∧
        ((g.quantization.apply x).isFinite = true ↔ ¬ g.quantization.Overflows x)) ∧
      ((∀ width, g.epsilon? = some width → width.units < 2 ^ 961 * Binary64.unitsPerOne) →
        ∀ key n y, (key, n) ∈ c.entries.toList → .float y ∈ n.toValue.parts → y.isFinite = true) := by
  obtain ⟨hcheck, hresolve, -⟩ := Kernel.new_spec hk
  have hpipeline : k.pipeline = Pass.builtins := by
    rw [hd] at hresolve
    exact (Except.ok.inj hresolve).symm
  rw [hpipeline] at h
  obtain ⟨hs', hc⟩ := Run.all_traced isStep_builtins hp hs h
  obtain ⟨root, rfl, hmeans⟩ := hc.means hp hs'
  have hwidths (width : Binary64) (hw : g.quantization.epsilon? = some width) : width.isFinite = true :=
    Settings.isFinite_of_check hcheck hw
  have hraw (x : Binary64) (hx : .float x ∈ (Value.map root).parts) : x.isFinite = true :=
    Value.isFinite_of_validate (Run.validate_of_all rfl h) hx
  have hentries (key : Key) (n : Interned) (hn : (key, n) ∈ c.entries.toList) :
      ∃ r, Stands given.hierarchy root r key ∧
        ∀ y, .float y ∈ n.toValue.parts ↔ ∃ x, .float x ∈ r.2.parts ∧ g.quantization.apply x = y := by
    obtain ⟨r, hr, hnode⟩ := hmeans.value hn
    exact ⟨r, hr, fun _ => hnode.represents.float_mem_iff⟩
  refine ⟨root, rfl, hentries, fun x hx => ⟨hraw x hx, Quantization.apply_spec hwidths (hraw x hx)⟩, ?_⟩
  intro hnarrow key n y hn hy
  obtain ⟨r, hr, hfloats⟩ := hentries key n hn
  obtain ⟨x, hx, rfl⟩ := (hfloats y).1 hy
  refine (Quantization.apply_spec hwidths (hraw x (Value.parts_subset_map hr.1 hx))).2.2 ?_
  exact Quantization.not_overflows_of_narrow (Nat.le_refl 961) fun width hw =>
    hnarrow width (Settings.epsilon?_quantization ▸ hw)

/-- With buckets of width one half, `1.5` stands for `1.3`, and is finite. -/
theorem Kernel.floats_of_defaults_half :
    let g : Settings := { Settings.default with epsilon? := some ⟨0x3fe0000000000000⟩ }
    let source : Value := .map (lone ⟨0x3ff4cccccccccccd⟩)
    ∃ (k : Kernel Empty) (s : Store) (transitions : List Transition) (c : Compilation) (n : Interned),
      Kernel.new g .empty = .ok k ∧ g.passes = Settings.defaultPasses ∧ source.Proper ∧
      Store.Sound (fun _ => True) g.quantization (.empty g.quantization) [] ∧
      Run.all lonePremises (.empty g.quantization) k.pipeline source =
        (s, transitions, .ok c) ∧
      c.entries.toList = [(⟨"a"⟩, n)] ∧ .float ⟨0x3ff8000000000000⟩ ∈ n.toValue.parts ∧
      ∀ y, .float y ∈ n.toValue.parts → y.isFinite = true := by
  intro g source
  have hs : Store.Sound (fun _ => True) g.quantization (.empty g.quantization) [] := ⟨[], Store.inv_empty _ _⟩
  have hB : ¬ Digest.Collides (source.hashes g.quantization) :=
    not_collides_lone <| by
      simp only [Value.digest, Digest.ofValueFields, Digest.ofFields_eq]
      decide +kernel
  obtain ⟨k, s, transitions, c, n, hk, hrun, hc, -⟩ :=
    Kernel.exists_lone (H := Empty) (g := g) rfl rfl hB (by rfl)
  have hn : ((⟨"a"⟩ : Key), n) ∈ c.entries.toList := hc ▸ List.mem_singleton_self _
  obtain ⟨root, hroot, hfloats, -, hfinite⟩ := Kernel.floats_of_defaults hk rfl hs (proper_lone _) hrun
  cases hroot
  obtain ⟨r, hr, hy⟩ := hfloats _ n hn
  rw [List.mem_singleton.1 hr.1] at hy
  refine ⟨k, s, transitions, c, n, hk, rfl, proper_lone _, hs, hrun, hc, ?_, ?_⟩
  · exact (hy _).2 ⟨_, List.mem_singleton_self _, by decide +kernel⟩
  · refine fun y => hfinite (fun width hw => ?_) _ n y hn
    cases hw
    decide +kernel

/--
With buckets of width `1e308`, the float `1.7e308` is in the bucket of twice the width, which is infinite. So
a compiled configuration may have an infinite float, although all floats of its source are finite.
-/
theorem Kernel.infinite_of_wide :
    let g : Settings := { Settings.default with epsilon? := some ⟨0x7fe1ccf385ebc8a0⟩ }
    let source : Value := .map (lone ⟨0x7fee42d130773b76⟩)
    ∃ (k : Kernel Empty) (s : Store) (transitions : List Transition) (c : Compilation) (n : Interned)
        (y : Binary64),
      g.check = .ok () ∧ g.passes = Settings.defaultPasses ∧ Kernel.new g .empty = .ok k ∧
      Run.all lonePremises (.empty g.quantization) k.pipeline source =
        (s, transitions, .ok c) ∧
      (⟨"a"⟩, n) ∈ c.entries.toList ∧ .float y ∈ n.toValue.parts ∧ y.isInfinite = true := by
  intro g source
  have hB : ¬ Digest.Collides (source.hashes g.quantization) :=
    not_collides_lone <| by
      simp only [Value.digest, Digest.ofValueFields, Digest.ofFields_eq]
      decide +kernel
  obtain ⟨k, s, transitions, c, n, hk, hrun, hc, hn⟩ :=
    Kernel.exists_lone (H := Empty) (g := g) rfl rfl hB (by rfl)
  exact ⟨k, s, transitions, c, n, _, rfl, rfl, hk, hrun, hc ▸ List.mem_singleton_self _,
    hn.float_mem_iff.2 ⟨_, List.mem_singleton_self _, rfl⟩, by decide +kernel⟩

end ConfigCompiler
