import ConfigCompiler.Kernel.Task
import ConfigCompiler.Proofs.Kernel.Keys

/-!
# What is configured of a kernel

`Policy.Standard`: built-in passes and views, and no declared pairs. Kernels begin so when their settings
declare no pairs (`new_standard`), stay so with another pass list (`setPassList_standard`), and all that calls
see of them is then valid (`Policy.Standard.valid`).
-/

namespace ConfigCompiler

variable {H : Type}

/-! ## Catalogs -/

namespace Catalog

/-- The pipeline of a list of names has passes of the catalog, each once. -/
theorem resolveAfter_spec {c : Catalog (Pass H)} {resolved ps : List (Pass H)} {names : List String}
    (hc : ∀ p ∈ resolved, p ∈ c) (hn : (resolved.map Pass.name).Nodup)
    (h : c.resolveAfter resolved names = .ok ps) : (∀ p ∈ ps, p ∈ c) ∧ (ps.map Pass.name).Nodup := by
  induction names generalizing resolved with
  | nil =>
    cases h
    exact ⟨hc, hn⟩
  | cons name names ih =>
    rw [resolveAfter] at h
    split at h
    · cases h
    · rename_i hnew
      cases hf : c.find? name with
      | none =>
        rw [hf] at h
        cases h
      | some pass =>
        rw [hf] at h
        have hname : pass.name = name := by simpa [Named.name] using List.find?_some hf
        refine ih (fun p hp => ?_) ?_ h
        · rcases List.mem_append.1 hp with hp | hp
          · exact hc p hp
          · exact List.mem_singleton.1 hp ▸ List.mem_of_find?_eq_some hf
        · rw [List.map_append, List.map_singleton, List.nodup_append]
          refine ⟨hn, List.nodup_singleton _, fun a ha b hb hab => hnew ?_⟩
          obtain ⟨p, hp, rfl⟩ := List.mem_map.1 ha
          rw [List.mem_singleton.1 hb, hname] at hab
          exact List.any_eq_true.2 ⟨p, hp, by simpa using hab⟩

theorem resolve_spec {c : Catalog (Pass H)} {ps : List (Pass H)} {names : List String}
    (h : c.resolve names = .ok ps) : (∀ p ∈ ps, p ∈ c) ∧ (ps.map Pass.name).Nodup := by
  have hnil : ([].map (Pass.name : Pass H → String)).Nodup := List.nodup_nil
  exact resolveAfter_spec (by simp) hnil h

theorem resolve_builtins {ps : List (Pass H)} {names : List String}
    (h : Catalog.resolve (Pass.builtins : List (Pass H)) names = .ok ps) :
    (∀ p ∈ ps, p ∈ Pass.builtins) ∧ ps.length < 2 ^ 64 := by
  obtain ⟨hmem, hnodup⟩ := resolve_spec h
  refine ⟨hmem, ?_⟩
  have hsub := (List.subperm_of_subset (List.Nodup.of_map _ hnodup) hmem).length_le
  exact Nat.lt_of_le_of_lt hsub (by simp [Pass.builtins])

theorem names_of_resolveAfter {c : Catalog (Pass H)} {resolved ps : List (Pass H)} {names : List String}
    (h : c.resolveAfter resolved names = .ok ps) : ps.map Pass.name = resolved.map Pass.name ++ names := by
  induction names generalizing resolved with
  | nil =>
    cases h
    exact (List.append_nil _).symm
  | cons name names ih =>
    rw [resolveAfter] at h
    split at h
    · cases h
    · cases hf : c.find? name with
      | none =>
        rw [hf] at h
        cases h
      | some pass =>
        rw [hf] at h
        have hname : pass.name = name := by simpa [Named.name] using List.find?_some hf
        rw [ih h, List.map_append, List.map_singleton, hname, List.append_assoc, List.singleton_append]

theorem names_of_resolve {c : Catalog (Pass H)} {ps : List (Pass H)} {names : List String}
    (h : c.resolve names = .ok ps) : ps.map Pass.name = names :=
  names_of_resolveAfter h

theorem exists_resolveAfter {c : Catalog (Pass H)} {resolved : List (Pass H)} {names : List String}
    (hc : ∀ name ∈ names, name ∈ c.names) (hn : (resolved.map Pass.name ++ names).Nodup) :
    ∃ ps, c.resolveAfter resolved names = .ok ps := by
  induction names generalizing resolved with
  | nil => exact ⟨resolved, rfl⟩
  | cons name names ih =>
    have hnew : resolved.any (·.name == name) = false := by
      refine List.any_eq_false.2 ?_
      intro p hp heq
      have hmem : name ∈ resolved.map Pass.name := List.mem_map.2 ⟨p, hp, eq_of_beq heq⟩
      exact (List.nodup_append.1 hn).2.2 name hmem name List.mem_cons_self rfl
    obtain ⟨p, hp, hname⟩ := List.mem_map.1 (hc name List.mem_cons_self)
    cases hf : c.find? name with
    | none => exact absurd (beq_iff_eq.2 hname) (List.find?_eq_none.1 hf p hp)
    | some pass =>
      have hpass : pass.name = name := by simpa [Named.name] using List.find?_some hf
      rw [resolveAfter, if_neg (by simp [hnew])]
      simp only [hf]
      refine ih (fun n hn => hc n (List.mem_cons_of_mem _ hn)) ?_
      rwa [List.map_append, List.map_singleton, hpass, List.append_assoc, List.singleton_append]

/-- Names of the catalog, each listed once, have a pipeline. -/
theorem exists_resolve {c : Catalog (Pass H)} {names : List String} (hc : ∀ name ∈ names, name ∈ c.names)
    (hn : names.Nodup) : ∃ ps, c.resolve names = .ok ps :=
  exists_resolveAfter hc hn

theorem view_cases (c : Catalog View) (name : String) :
    (∃ v ∈ c, v.name = name ∧ c.view name = .ok v) ∨ ∃ e, c.view name = .error e := by
  unfold view
  cases hf : c.find? name with
  | none => exact .inr ⟨_, rfl⟩
  | some v =>
    exact .inl ⟨v, List.mem_of_find?_eq_some hf, by simpa [Named.name] using List.find?_some hf, rfl⟩

end Catalog

/-! ## Policies -/

namespace Kernel

/-- What new calls depend on. -/
structure Policy (H : Type) where
  hierarchy : Hierarchy
  overrides : Overrides
  passes : Catalog (Pass H)
  pipeline : List (Pass H)
  views : Catalog View

/-- Built-in passes and views, and no declared pairs. -/
structure Policy.Standard (p : Policy H) : Prop where
  hierarchy : p.hierarchy.Proper
  overrides : p.overrides = .none
  passes : p.passes = Pass.builtins
  pipeline : ∀ pass ∈ p.pipeline, pass ∈ Pass.builtins
  length : p.pipeline.length < 2 ^ 64
  views : p.views = View.builtins

def policy (k : Kernel H) : Policy H := ⟨k.hierarchy, k.overrides, k.passes, k.pipeline, k.views⟩

section
variable {k k' : Kernel H}

theorem release_policy (k : Kernel H) (p : Payload) : (k.release p).policy = k.policy := by
  unfold release
  split <;> rfl

theorem releaseAll_policy (k : Kernel H) (ps : List Payload) : (k.releaseAll ps).policy = k.policy := by
  induction ps generalizing k with
  | nil => rfl
  | cons p ps ih => exact (ih (k.release p)).trans (release_policy k p)

/-- What kernels begin with. -/
theorem new_spec {settings : Settings} {hierarchy : Hierarchy} (h : Kernel.new settings hierarchy = .ok k) :
    settings.check = .ok () ∧ Catalog.resolve Pass.builtins settings.passes = .ok k.pipeline ∧
      k.settings = settings ∧
      k.policy = ⟨hierarchy, settings.overrides, Pass.builtins, k.pipeline, View.builtins⟩ ∧
      k.cache = .empty settings.capacity ∧ k.store = .empty settings.quantization ∧ k.compilations = 0 := by
  unfold Kernel.new at h
  cases hc : settings.check with
  | error e => rw [hc] at h; cases h
  | ok u =>
    rw [hc] at h
    cases hr : Catalog.resolve (Pass.builtins : List (Pass H)) settings.passes with
    | error e => simp only [Except.mapError, bind, Except.bind, hr] at h; cases h
    | ok pipeline =>
      simp only [Except.mapError, bind, Except.bind, hr, pure, Except.pure, Except.ok.injEq] at h
      subst h
      exact ⟨rfl, rfl, rfl, rfl, rfl, rfl, rfl⟩

section
variable {settings : Settings} {hierarchy : Hierarchy} (h : Kernel.new settings hierarchy = .ok k)
include h

theorem new_hierarchy : k.hierarchy = hierarchy := by
  obtain ⟨-, -, -, hpolicy, -⟩ := new_spec h
  exact congrArg Policy.hierarchy hpolicy

theorem new_overrides : k.overrides = settings.overrides := by
  obtain ⟨-, -, -, hpolicy, -⟩ := new_spec h
  exact congrArg Policy.overrides hpolicy

theorem new_views : k.views = View.builtins := by
  obtain ⟨-, -, -, hpolicy, -⟩ := new_spec h
  exact congrArg Policy.views hpolicy

theorem new_cache : k.cache = .empty settings.capacity := by
  obtain ⟨-, -, -, -, hcache, -⟩ := new_spec h
  exact hcache

theorem new_store : k.store = .empty settings.quantization := by
  obtain ⟨-, -, -, -, -, hstore, -⟩ := new_spec h
  exact hstore

end

theorem new_standard {settings : Settings} {hierarchy : Hierarchy} (hh : hierarchy.Proper)
    (ho : settings.overridePairs = []) (h : Kernel.new settings hierarchy = .ok k) :
    k.policy.Standard ∧ k.cache = .empty settings.capacity ∧ k.store = .empty settings.quantization := by
  obtain ⟨-, hr, -, hpolicy, hcache, hstore, -⟩ := new_spec h
  obtain ⟨hp, hl⟩ := Catalog.resolve_builtins hr
  have hnone : settings.overrides = .none := by
    rw [Settings.overrides, ho]
    rfl
  refine ⟨?_, hcache, hstore⟩
  rw [hpolicy]
  exact ⟨hh, hnone, rfl, hp, hl, rfl⟩

/-- Another pass list is all that changes. -/
theorem setPassList_eq {names : List String} (h : k.setPassList names = .ok k') :
    ∃ pipeline, k.passes.resolve names = .ok pipeline ∧
      k' = { k with pipeline, settings := { k.settings with passes := names } } := by
  unfold setPassList at h
  cases hr : k.passes.resolve names with
  | error e => rw [hr] at h; cases h
  | ok pipeline =>
    rw [hr] at h
    simp only [bind, Except.bind, pure, Except.pure, Except.ok.injEq] at h
    exact ⟨pipeline, rfl, h.symm⟩

theorem setPassList_standard {names : List String} (hk : k.policy.Standard)
    (h : k.setPassList names = .ok k') : k'.policy.Standard := by
  obtain ⟨pipeline, hr, rfl⟩ := setPassList_eq h
  have hpasses : k.passes = Pass.builtins := hk.passes
  rw [hpasses] at hr
  obtain ⟨hp, hl⟩ := Catalog.resolve_builtins hr
  exact ⟨hk.hierarchy, hk.overrides, hk.passes, hp, hl, hk.views⟩

/-- What a call sees of a kernel is valid, if what is hashed for the pass set satisfies `B`. -/
theorem Policy.Standard.valid {B : List UInt8 → Prop} {q : Quantization} (hk : k.policy.Standard)
    (hq : k.store.quantization = q) (source : Digest)
    (hh : B (Digest.encode Hierarchy.digestDomain k.hierarchy.fields))
    (hp : B (Digest.encode "strata.pass-set.v1" k.passSetFields)) :
    (Snapshot.take k source).Valid B q := by
  have hfields : k.passSetFields = Snapshot.passSetFields q k.hierarchy k.pipeline := by
    have ho : k.overrides = .none := hk.overrides
    rw [passSetFields, Snapshot.passSetFields, hq, ho]
  exact
    { passSet := congrArg (Digest.ofFields "strata.pass-set.v1") hfields
      passes := hk.pipeline
      length := hk.length
      hierarchy := hk.hierarchy
      hashed := hfields ▸ hp
      hashedHierarchy := hh }

end

end Kernel

end ConfigCompiler
