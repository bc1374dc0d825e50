import ConfigCompiler.Proofs.Expansion.Overrides
import ConfigCompiler.Proofs.Kernel.Calls
import ConfigCompiler.Proofs.Kernel.Configured
import ConfigCompiler.Proofs.View.Params

/-!
# What a cache key stands for

The key of a request (`Request.key`, which every call ends up with: `Request.key_of_ofRequest`) stands for a
computation: the digest of the raw configuration, the pass list, the children of all nodes, the quantization,
the declared pairs without their order, and the view with its parameters (`Request.SameComputation`).

`Request.key_identifies`: requests for one computation have one key, in whatever order things were declared.
And if the keys of two requests have one id, they are for one computation, unless two different byte strings
that were hashed for the keys collide.
-/

namespace ConfigCompiler

/-! ## Policies -/

theorem Binary64.normalize_of_isWidth {x : Binary64} (h : Settings.isWidth x = true) : x.normalize = x := by
  simp only [Settings.isWidth, Bool.and_eq_true, Bool.not_eq_true'] at h
  unfold normalize
  rw [(isFinite_iff.1 h.1.1).1, h.2]
  rfl

/-- Widths of buckets are told apart. -/
theorem Digest.Field.quantization_inj {q q' : Quantization}
    (h : ∀ width, q.epsilon? = some width → Settings.isWidth width = true)
    (h' : ∀ width, q'.epsilon? = some width → Settings.isWidth width = true)
    (hb : (quantization q).bytes = (quantization q').bytes) : q = q' := by
  cases q with
  | disabled =>
    cases q' with
    | disabled => rfl
    | epsilon width => simp [bytes, absentBytes, floatBits] at hb
  | epsilon width =>
    cases q' with
    | disabled => simp [bytes, absentBytes, floatBits] at hb
    | epsilon width' =>
      simp only [bytes, floatBits, List.cons.injEq, true_and] at hb
      have hbits := wordBytes_inj hb
      rw [Binary64.normalize_of_isWidth (h width rfl), Binary64.normalize_of_isWidth (h' width' rfl)] at hbits
      cases width
      cases width'
      exact congrArg (fun bits => Quantization.epsilon ⟨bits⟩) hbits

/-- A pair is declared in one of its two orders. -/
def Settings.Declares (g : Settings) (a b : String) : Prop := (a, b) ∈ g.overridePairs ∨ (b, a) ∈ g.overridePairs

theorem Settings.declares_iff {g : Settings} {a b : String} : g.Declares a b ↔ g.overrides.allows a b = true :=
  Overrides.allows_ofPairs.symm

namespace Kernel

variable {H : Type} {k : Kernel H}

/-- The lengths of all that is configured fit into a word. -/
structure Fits (k : Kernel H) : Prop where
  hierarchy : k.hierarchy.Fits
  overrides : k.overrides.Fits
  length : k.pipeline.length < 2 ^ 64
  names : ∀ p ∈ k.pipeline, p.name.utf8ByteSize < 2 ^ 64

theorem Configured.proper (hk : k.Configured) (h : k.Fits) : k.hierarchy.Proper := by
  obtain ⟨declared, hb⟩ := hk.hierarchy
  exact ⟨Hierarchy.nodup_of_build hb, h.hierarchy.length, h.hierarchy.sized⟩

/-- A new kernel fits if what it is given does. -/
theorem fits_of_new {settings : Settings} {hierarchy : Hierarchy} (h : Kernel.new settings hierarchy = .ok k)
    (hh : hierarchy.Fits) (ho : settings.overrides.Fits) : k.Fits := by
  obtain ⟨-, hresolve, -⟩ := new_spec h
  obtain ⟨hmem, hlength⟩ := Catalog.resolve_builtins hresolve
  exact ⟨new_hierarchy h ▸ hh, new_overrides h ▸ ho, hlength, fun p hp => name_size_builtins (hmem p hp)⟩

theorem Configured.passSetFields_eq (hk : k.Configured) : k.passSetFields =
    .seqHeader k.settings.passes.length :: k.settings.passes.map .text ++
      [.digest k.hierarchy.digest, .quantization k.settings.quantization,
        .digest k.settings.overrides.digest] := by
  rw [passSetFields, ← hk.quantization, ← hk.overrides, ← hk.pipeline, List.length_map, List.map_map]
  rfl

end Kernel

/-! ## Keys of requests -/

namespace Request

variable {H H' : Type} {k : Kernel H} {k' : Kernel H'} {r r' : Request}

/-- The view that is asked for, and its parameters; none for a compilation. -/
def view? : Request → Option (String × Params)
  | compile _ => none
  | query name params _ _ => some (name, params)
  | queryCompiled name params _ => some (name, params)

/-- The name of the view and the digest of the parameters. -/
def viewId? (r : Request) : Option (String × Digest) := r.view?.map fun v => (v.1, v.2.digest)

/-- The key of what is asked for. -/
def key (k : Kernel H) (r : Request) : CacheKey := .derive (r.source k) k.passSet r.viewId?

/-- The key is what the answer of a call is for. -/
theorem key_of_ofRequest {t : Task H} (h : Task.ofRequest k r = .ok t) :
    ∃ kind, t.frames.getLast? = some (.expect kind (r.key k)) := by
  cases Task.opening_of_eq h with
  | compile hs =>
    subst hs
    exact ⟨.compiled, rfl⟩
  | queryUntil hs hv hfirst =>
    subst hs
    exact ⟨.view, rfl⟩
  | query hs hv =>
    subst hs
    exact ⟨.view, rfl⟩
  | queryCompiled hs hv =>
    subst hs
    exact ⟨.view, rfl⟩

/-- All that is hashed for the key. -/
def keyHashes (k : Kernel H) (r : Request) : List (List UInt8) :=
  CacheKey.encoded (r.source k) k.passSet r.viewId? ::
    Digest.encode "strata.overrides.v1" k.overrides.fields ::
    policyHashes k ++ r.view?.elim [] fun v => paramsHashes v.2

/-- The parameters were made by setting them, and all lengths fit into a word. -/
structure WellFormed (r : Request) : Prop where
  name : ∀ v ∈ r.view?, v.1.utf8ByteSize < 2 ^ 64
  made : ∀ v ∈ r.view?, v.2.Made
  proper : ∀ v ∈ r.view?, v.2.Proper

/-- Two requests ask for the same of the same, under the same settings. -/
structure SameComputation (k : Kernel H) (r : Request) (k' : Kernel H') (r' : Request) : Prop where
  source : r.source k = r'.source k'
  passes : k.settings.passes = k'.settings.passes
  kids : ∀ id, k.hierarchy.kids id = k'.hierarchy.kids id
  quantization : k.settings.quantization = k'.settings.quantization
  declares : ∀ a b, k.settings.Declares a b ↔ k'.settings.Declares a b
  view : r.view? = r'.view?

/-- Requests for one computation have one key. -/
theorem SameComputation.key_eq (h : SameComputation k r k' r') (hk : k.Configured) (hk' : k'.Configured) :
    r.key k = r'.key k' := by
  obtain ⟨declared, hb⟩ := hk.hierarchy
  obtain ⟨declared', hb'⟩ := hk'.hierarchy
  have hhierarchy : k.hierarchy.digest = k'.hierarchy.digest :=
    Hierarchy.digest_eq_of_kids_eq (Hierarchy.nodup_of_build hb) (Hierarchy.nodup_of_build hb') h.kids
  have hoverrides : k.settings.overrides.digest = k'.settings.overrides.digest := by
    refine Overrides.digest_eq_of_allows_eq (Overrides.normal_ofPairs _) (Overrides.normal_ofPairs _) ?_
    intro a b
    rw [Bool.eq_iff_iff, ← Settings.declares_iff, ← Settings.declares_iff, h.declares]
  have hpassSet : k.passSet = k'.passSet := by
    rw [Kernel.passSet, Kernel.passSet, hk.passSetFields_eq, hk'.passSetFields_eq, h.passes, hhierarchy,
      h.quantization, hoverrides]
  rw [key, key, viewId?, viewId?, h.source, hpassSet, h.view]

/-- The bytes that are hashed for a key satisfy `B`. -/
structure Hashed (B : List UInt8 → Prop) (k : Kernel H) (r : Request) : Prop where
  key : B (CacheKey.encoded (r.source k) k.passSet r.viewId?)
  passSet : B (Digest.encode "strata.pass-set.v1" k.passSetFields)
  hierarchy : B (Digest.encode Hierarchy.digestDomain k.hierarchy.fields)
  overrides : B (Digest.encode "strata.overrides.v1" k.overrides.fields)
  params : ∀ v ∈ r.view?, v.2.Hashed B

theorem hashed_of_keyHashes {B : List UInt8 → Prop} (h : ∀ b ∈ r.keyHashes k, B b) : r.Hashed B k where
  key := h _ List.mem_cons_self
  passSet := h _ (by simp [keyHashes, policyHashes])
  hierarchy := h _ (by simp [keyHashes, policyHashes])
  overrides := h _ (by simp [keyHashes])
  params v hv := by
    refine Kernel.hashed_of_paramsHashes fun b hb => h b ?_
    rw [keyHashes, Option.mem_def.1 hv]
    exact List.mem_cons_of_mem _ (List.mem_cons_of_mem _ (List.mem_append_right _ hb))

/-- Without collisions, views of one id are one view with the same parameters. -/
theorem view?_eq_of_viewId?_eq {B : List UInt8 → Prop} (hB : ¬ Digest.Collides B) (hr : r.WellFormed)
    (hr' : r'.WellFormed) (hh : ∀ v ∈ r.view?, v.2.Hashed B) (hh' : ∀ v ∈ r'.view?, v.2.Hashed B)
    (h : r.viewId? = r'.viewId?) : r.view? = r'.view? := by
  unfold viewId? at h
  cases hv : r.view? with
  | none =>
    rw [hv] at h
    exact (Option.map_eq_none_iff.1 h.symm).symm
  | some v =>
    cases hv' : r'.view? with
    | none =>
      rw [hv, hv'] at h
      cases h
    | some v' =>
      rw [hv, hv', Option.map_some, Option.map_some, Option.some.injEq, Prod.mk.injEq] at h
      have hparams := Params.eq_of_digest_eq hB (hr.made v hv) (hr'.made v' hv') (hr.proper v hv)
        (hr'.proper v' hv') (hh v hv) (hh' v' hv') h.2
      rw [Prod.ext h.1 hparams]

/-- Without collisions, requests whose keys have one id are for one computation. -/
theorem sameComputation_of_id_eq {B : List UInt8 → Prop} (hB : ¬ Digest.Collides B) (hk : k.Configured)
    (hk' : k'.Configured) (hf : k.Fits) (hf' : k'.Fits) (hr : r.WellFormed) (hr' : r'.WellFormed)
    (hh : r.Hashed B k) (hh' : r'.Hashed B k') (h : (r.key k).id = (r'.key k').id) :
    SameComputation k r k' r' := by
  have hname {r : Request} (hr : r.WellFormed) : ∀ v ∈ r.viewId?, v.1.utf8ByteSize < 2 ^ 64 := by
    intro v hv
    obtain ⟨w, hw, rfl⟩ := Option.map_eq_some_iff.1 hv
    exact hr.name w hw
  obtain ⟨hsource, hpassSet, hview⟩ := CacheKey.derive_inj hB (hname hr) (hname hr') hh.key hh'.key h
  have hsized {H : Type} {k : Kernel H} (hf : k.Fits) : ∀ f ∈ k.passSetFields, f.Sized := by
    intro f hm
    simp only [Kernel.passSetFields, List.cons_append, List.mem_cons, List.mem_append, List.mem_map,
      List.not_mem_nil, or_false] at hm
    rcases hm with rfl | ⟨p, hp, rfl⟩ | rfl | rfl | rfl
    · exact hf.length
    · exact hf.names p hp
    all_goals trivial
  have hbytes := Digest.ofFields_inj hB (hsized hf) (hsized hf') hh.passSet hh'.passSet hpassSet
  obtain ⟨hpasses, hhierarchy, hquantization, hoverrides⟩ :=
    policyFields_inj hf.length hf'.length hf.names hf'.names hbytes
  have hwidths {H : Type} {k : Kernel H} (hk : k.Configured) (width : Binary64)
      (hw : k.store.quantization.epsilon? = some width) : Settings.isWidth width = true := by
    rw [hk.quantization, Settings.epsilon?_quantization] at hw
    exact hk.epsilon width hw
  exact
    { source := hsource
      passes := hk.pipeline ▸ hk'.pipeline ▸ hpasses
      kids := Hierarchy.kids_eq_of_digest_eq hB (hk.proper hf) (hk'.proper hf') hh.hierarchy hh'.hierarchy
        hhierarchy
      quantization := by
        rw [← hk.quantization, ← hk'.quantization]
        exact Digest.Field.quantization_inj (hwidths hk) (hwidths hk') hquantization
      declares := by
        intro a b
        rw [Settings.declares_iff, Settings.declares_iff, ← hk.overrides, ← hk'.overrides,
          Overrides.allows_eq_of_digest_eq hB hf.overrides hf'.overrides hh.overrides hh'.overrides hoverrides]
      view := view?_eq_of_viewId?_eq hB hr hr' hh.params hh'.params hview }

/--
What cache keys stand for: the key of a request is that of the answer its call ends up with. Whatever two
kernels have become, keys of one id are for one computation, or byte strings hashed for them collide; and
requests for one computation have one key. For this the order does not matter in which parents were declared
or parameters were set, nor that of declared pairs.
-/
theorem key_identifies (hk : k.Reachable) (hk' : k'.Reachable) (hf : k.Fits) (hf' : k'.Fits)
    (hr : r.WellFormed) (hr' : r'.WellFormed) :
    (∀ t : Task H, Task.ofRequest k r = .ok t →
      ∃ kind, t.frames.getLast? = some (.expect kind (r.key k))) ∧
    ((r.key k).id = (r'.key k').id → SameComputation k r k' r' ∨
      Digest.Collides fun b => b ∈ r.keyHashes k ∨ b ∈ r'.keyHashes k') ∧
    (SameComputation k r k' r' → r.key k = r'.key k') ∧
    (∀ declared declared', Hierarchy.build declared = .ok k.hierarchy →
      Hierarchy.build declared' = .ok k'.hierarchy → declared.Perm declared' →
      ∀ id, k.hierarchy.kids id = k'.hierarchy.kids id) ∧
    ∀ p : Params, p.Made → ∀ sets others : List (String × Value), (sets.map (·.1)).Nodup →
      sets.Perm others → p.setAll sets = p.setAll others := by
  refine ⟨fun t => key_of_ofRequest, fun h => ?_, fun h => h.key_eq hk.configured hk'.configured, ?_, ?_⟩
  · refine Classical.or_iff_not_imp_right.2 fun hB => ?_
    exact sameComputation_of_id_eq hB hk.configured hk'.configured hf hf' hr hr'
      (hashed_of_keyHashes fun _ => .inl) (hashed_of_keyHashes fun _ => .inr) h
  · intro declared declared' hb hb' hp
    exact Hierarchy.kids_perm hb hb' hp
  · intro p hp sets others hn hperm
    exact hp.ordered.setAll_perm hn hperm

/-! ## Two orders of declarations -/

def zones : List (String × List String) := [("edge", ["east"]), ("zone", ["east", "west"])]

/-- The hierarchy of the zones. -/
def edgeFirst : Hierarchy := ⟨[("edge", ["east"]), ("zone", ["east", "west"]), ("east", []), ("west", [])]⟩

/-- The hierarchy of the zones in the other order. -/
def zoneFirst : Hierarchy := ⟨[("zone", ["east", "west"]), ("edge", ["east"]), ("east", []), ("west", [])]⟩

def below : List (String × Value) := [("prefix", .str "east"), ("depth", .int 1)]

/-- Settings with one declared pair. -/
def paired (a b : String) : Settings := { Settings.default with overridePairs := [(a, b)] }

/-- The request for the keys below `east`, with parameters set in an order. -/
def keysBelow (sets : List (String × Value)) : Request := .query "keys" (.setAll .empty sets) .null none

theorem wellFormed_keysBelow : (keysBelow below).WellFormed := by
  have hentries : (Params.setAll .empty below).entries = Entries.sorted below := by
    simp [below, Params.setAll, Params.set, Params.empty, Entries.insert, Entries.sorted, Value.canonical]
  have hmem : ∀ e ∈ (Params.setAll .empty below).entries, e ∈ below := fun e he =>
    (Entries.sorted_perm below).mem_iff.1 (hentries ▸ he)
  have hproper : (Params.setAll .empty below).Proper := by
    refine ⟨?_, fun e he => ?_, fun e he => ?_⟩
    · rw [Params.size, hentries, (Entries.sorted_perm below).length_eq]
      decide
    · have he := hmem e he
      simp only [below, List.mem_cons, List.not_mem_nil, or_false] at he
      rcases he with rfl | rfl <;> decide
    · have he := hmem e he
      simp only [below, List.mem_cons, List.not_mem_nil, or_false] at he
      rcases he with rfl | rfl <;> intro u hu <;> obtain rfl := List.mem_singleton.1 hu
      · exact (by decide : "east".utf8ByteSize < 2 ^ 64)
      · trivial
  refine ⟨?_, ?_, ?_⟩
  · rintro _ ⟨⟩
    decide
  · rintro _ ⟨⟩
    exact Params.Made.empty.setAll below
  · rintro _ ⟨⟩
    exact hproper

/-- Two kernels whose settings and hierarchies are declared in different orders have one key for requests. -/
theorem key_identifies_reordered : ∃ k k' : Kernel Empty,
    (∃ h, Hierarchy.build zones = .ok h ∧ Kernel.new (paired "a" "b") h = .ok k) ∧
    (∃ h, Hierarchy.build zones.reverse = .ok h ∧ Kernel.new (paired "b" "a") h = .ok k') ∧
    k.Reachable ∧ k'.Reachable ∧ k.Fits ∧ k'.Fits ∧ (keysBelow below).WellFormed ∧
    (keysBelow below.reverse).WellFormed ∧ (keysBelow below).key k = (keysBelow below.reverse).key k' ∧
    (((keysBelow below).key k).id = ((compile .null).key k').id →
      Digest.Collides fun b => b ∈ (keysBelow below).keyHashes k ∨ b ∈ (compile .null).keyHashes k') := by
  have hb : Hierarchy.build zones = .ok edgeFirst := by cbv
  have hb' : Hierarchy.build zones.reverse = .ok zoneFirst := by cbv
  obtain ⟨k, hk⟩ : ∃ k : Kernel Empty, Kernel.new (paired "a" "b") edgeFirst = .ok k := ⟨_, rfl⟩
  obtain ⟨k', hk'⟩ : ∃ k : Kernel Empty, Kernel.new (paired "b" "a") zoneFirst = .ok k := ⟨_, rfl⟩
  have hr : k.Reachable := .new hb hk
  have hr' : k'.Reachable := .new hb' hk'
  have hf : k.Fits :=
    Kernel.fits_of_new hk ⟨by decide, by unfold Hierarchy.Sized; decide⟩ ⟨by decide, by decide⟩
  have hf' : k'.Fits :=
    Kernel.fits_of_new hk' ⟨by decide, by unfold Hierarchy.Sized; decide⟩ ⟨by decide, by decide⟩
  have hw := wellFormed_keysBelow
  have hcompile : (compile .null).WellFormed := ⟨by simp [view?], by simp [view?], by simp [view?]⟩
  obtain ⟨-, hdiffer, -, hkids, hsets⟩ := key_identifies hr hr' hf hf' hw hcompile
  have hparams : Params.setAll .empty below = Params.setAll .empty below.reverse :=
    hsets _ .empty _ _ (by decide) (List.reverse_perm below).symm
  have hw' : (keysBelow below.reverse).WellFormed := by
    rw [keysBelow, ← hparams]
    exact hw
  obtain ⟨-, -, hs, -⟩ := Kernel.new_spec hk
  obtain ⟨-, -, hs', -⟩ := Kernel.new_spec hk'
  have hh : k.hierarchy = edgeFirst := Kernel.new_hierarchy hk
  have hh' : k'.hierarchy = zoneFirst := Kernel.new_hierarchy hk'
  have hsame : SameComputation k (keysBelow below) k' (keysBelow below.reverse) :=
    { source := by
        change Value.null.digest k.store.quantization = Value.null.digest k'.store.quantization
        rw [Kernel.new_store hk, Kernel.new_store hk']
        rfl
      passes := by rw [hs, hs']; rfl
      kids := hkids zones zones.reverse (hh ▸ hb) (hh' ▸ hb') (List.reverse_perm zones).symm
      quantization := by rw [hs, hs']; rfl
      declares := by
        intro a b
        rw [hs, hs']
        simp only [Settings.Declares, paired, List.mem_singleton, Prod.mk.injEq]
        rw [or_comm, @and_comm (b = "a"), @and_comm (a = "a")]
      view := congrArg (fun p => some ("keys", p)) hparams }
  refine ⟨k, k', ⟨_, hb, hk⟩, ⟨_, hb', hk'⟩, hr, hr', hf, hf', hw, hw', ?_, fun h => ?_⟩
  · exact (key_identifies hr hr' hf hf' hw hw').2.2.1 hsame
  · refine (hdiffer h).resolve_left fun hno => ?_
    cases hno.view

end Request

end ConfigCompiler
