import ConfigCompiler.Proofs.Kernel.Acts
import ConfigCompiler.Proofs.Kernel.Configured

/-!
# The pass list of a kernel

Kernels name their passes in the settings, know them in the catalog, and run them in the pipeline. Only adding
a pass and setting a list change any of these (`Shared.act_reconfigures`). A catalog that grows finds what it
found before (`Catalog.resolve_add`), so in every history the pipeline is what the pass list resolves to
(`Shared.pipeline_resolved`). The settings are otherwise those that the kernel began with. But a pass list
that is empty resolves, and then the settings do not pass the check that they passed at the beginning
(`Shared.emptied_fails_check`).
-/

namespace ConfigCompiler

variable {H : Type}

/-! ## Settings and catalogs -/

namespace Settings

/-- With another pass list, settings that pass the check pass it still, unless the list is empty. -/
theorem check_passes {g : Settings} (h : g.check = .ok ()) (names : List String) :
    { g with passes := names }.check = if names = [] then .error .emptyPassList else .ok () := by
  unfold check at h ⊢
  split at h
  · cases h
  · rename_i hwidth
    simp only [hwidth]
    by_cases hzero : g.capacity.isZero = true
    · rw [if_pos hzero] at h
      cases h
    · simp only [hzero, List.isEmpty_iff]
      rfl

theorem passes_ne_nil_of_check {g : Settings} (h : g.check = .ok ()) : g.passes ≠ [] := by
  intro hnil
  have hsame : { g with passes := [] } = g := by rw [← hnil]
  have hempty := check_passes h []
  rw [hsame, h] at hempty
  cases hempty

end Settings

namespace Catalog

/-- A catalog with one more item finds what it found before. -/
theorem find?_add {α : Type} [Named α] {c c' : Catalog α} {taken : String → KernelError} {x y : α}
    (h : c.add taken x = .ok c') {name : String} (hf : c.find? name = some y) : c'.find? name = some y := by
  unfold add at h
  split at h
  · cases h
  · cases h
    unfold find? at hf ⊢
    rw [List.find?_append, hf]
    rfl

theorem resolveAfter_add {c c' : Catalog (Pass H)} {taken : String → KernelError} {x : Pass H}
    (h : c.add taken x = .ok c') {names : List String} {resolved ps : List (Pass H)}
    (hr : c.resolveAfter resolved names = .ok ps) : c'.resolveAfter resolved names = .ok ps := by
  induction names generalizing resolved with
  | nil => exact hr
  | cons name names ih =>
    rw [resolveAfter] at hr ⊢
    split at hr
    · cases hr
    · rename_i hnew
      rw [if_neg hnew]
      cases hf : c.find? name with
      | none =>
        rw [hf] at hr
        cases hr
      | some pass =>
        rw [hf] at hr
        rw [find?_add h hf]
        exact ih hr

/-- A catalog with one more pass gives lists the pipelines that it gave them before. -/
theorem resolve_add {c c' : Catalog (Pass H)} {taken : String → KernelError} {x : Pass H}
    (h : c.add taken x = .ok c') {names : List String} {ps : List (Pass H)} (hr : c.resolve names = .ok ps) :
    c'.resolve names = .ok ps :=
  resolveAfter_add h hr

end Catalog

namespace Kernel

namespace Shared

variable {s : Shared H}

/-! ## What acts configure -/

/-- What an act makes of all that is configured. -/
inductive Reconfigures (k : Kernel H) : Act H → Kernel H → Prop
  | passAdded {pass : Pass H} {passes : Catalog (Pass H)} (hp : k.passes.addPass pass = .ok passes) :
      Reconfigures k (.registerPass pass) { k with passes }
  | viewAdded {view : View} {views : Catalog View} (hv : k.views.addView view = .ok views) :
      Reconfigures k (.registerView view) { k with views }
  | listed {names : List String} {pipeline : List (Pass H)} (hr : k.passes.resolve names = .ok pipeline) :
      Reconfigures k (.event (.setPassList names))
        { k with pipeline, settings := { k.settings with passes := names } }
  | replaced {hierarchy : Hierarchy} {k' : Kernel H}
      (hk : k'.config = ({ k with hierarchy } : Kernel H).config) :
      Reconfigures k (.event (.replaceHierarchy hierarchy)) k'
  | kept {a : Act H} {k' : Kernel H} (hk : k'.config = k.config)
      (ha : ∀ names, a = .event (.setPassList names) → ∃ e, k.passes.resolve names = .error e) :
      Reconfigures k a k'

theorem act_reconfigures (s : Shared H) (a : Act H) : Reconfigures s.kernel a (s.act a).kernel := by
  cases a with
  | registerPass pass =>
    simp only [act, registerPass]
    cases hp : s.kernel.passes.addPass pass with
    | ok passes => exact .passAdded hp
    | error e => exact .kept rfl (by simp)
  | registerView view =>
    simp only [act, registerView]
    cases hv : s.kernel.views.addView view with
    | ok views => exact .viewAdded hv
    | error e => exact .kept rfl (by simp)
  | event e =>
    cases e with
    | setPassList names =>
      simp only [act, next, setPassList]
      cases hr : s.kernel.passes.resolve names with
      | ok pipeline => exact .listed hr
      | error e =>
        refine .kept rfl ?_
        intro names' h
        cases h
        exact ⟨e, hr⟩
    | replaceHierarchy hierarchy =>
      refine .replaced ?_
      show (s.kernel.replaceHierarchy hierarchy).1.config = _
      exact config_invalidate _ _
    | invalidateSource source =>
      refine .kept ?_ (by simp)
      show (s.kernel.invalidateSource source).1.config = _
      exact config_invalidate _ _
    | call request =>
      refine .kept ?_ (by simp)
      simp only [act, next, call]
      split <;> rfl
    | step i =>
      refine .kept ?_ (by simp)
      simp only [act, next]
      split
      · exact config_step _ _
      · rfl
    | giveUp i =>
      refine .kept ?_ (by simp)
      simp only [act, next]
      split
      · exact config_giveUp _ _
      · rfl
    | drop i =>
      refine .kept ?_ (by simp)
      simp only [act, next]
      split
      · exact config_release _ _
      · rfl

/-- The pass list that an act sets. -/
def passList? (s : Shared H) : Act H → Option (List String)
  | .event (.setPassList names) => (s.kernel.passes.resolve names).toOption.map fun _ => names
  | _ => none

/-- The pass lists that a history of acts sets, the first one first. -/
def passLists : Shared H → List (Act H) → List (List String)
  | _, [] => []
  | s, a :: acts => (s.passList? a).toList ++ passLists (s.act a) acts

/-- An act sets no more than the pass list. -/
theorem settings_act (s : Shared H) (a : Act H) : (s.act a).kernel.settings =
    { s.kernel.settings with passes := (s.passList? a).getD s.kernel.settings.passes } := by
  have h := s.act_reconfigures a
  generalize (s.act a).kernel = k' at h
  cases h with
  | passAdded _ => rfl
  | viewAdded _ => rfl
  | listed hr => simp only [passList?, hr, Except.toOption, Option.map_some, Option.getD_some]
  | replaced hk => exact (sameConfig_of_eq hk).settings
  | kept hk ha =>
    have hsettings := (sameConfig_of_eq hk).settings
    have hnone : s.passList? a = none := by
      unfold passList?
      split
      · rename_i names
        obtain ⟨e, he⟩ := ha names rfl
        rw [he]
        rfl
      · rfl
    rw [hsettings, hnone, Option.getD_none]

theorem settings_play (s : Shared H) (acts : List (Act H)) : (s.play acts).kernel.settings =
    { s.kernel.settings with passes := (s.passLists acts).getLast?.getD s.kernel.settings.passes } := by
  induction acts generalizing s with
  | nil => rfl
  | cons a acts ih =>
    rw [play_cons, ih, settings_act, passLists, List.getLast?_append]
    cases (passLists (s.act a) acts).getLast? with
    | some names => rfl
    | none => cases s.passList? a <;> rfl

theorem resolved_act (h : s.kernel.passes.resolve s.kernel.settings.passes = .ok s.kernel.pipeline)
    (a : Act H) : (s.act a).kernel.passes.resolve (s.act a).kernel.settings.passes =
      .ok (s.act a).kernel.pipeline := by
  have hr := s.act_reconfigures a
  generalize (s.act a).kernel = k' at hr
  have hcongr {k : Kernel H} (hk : k'.config = k.config)
      (h : k.passes.resolve k.settings.passes = .ok k.pipeline) :
      k'.passes.resolve k'.settings.passes = .ok k'.pipeline := by
    have hsame := sameConfig_of_eq hk
    rw [hsame.passes, hsame.settings, hsame.pipeline]
    exact h
  cases hr with
  | passAdded hp => exact Catalog.resolve_add hp h
  | viewAdded _ => exact h
  | listed hr => exact hr
  | replaced hk => exact hcongr hk h
  | kept hk _ => exact hcongr hk h

theorem pipeline_resolved (h : s.kernel.passes.resolve s.kernel.settings.passes = .ok s.kernel.pipeline)
    (acts : List (Act H)) : (s.play acts).kernel.passes.resolve (s.play acts).kernel.settings.passes =
      .ok (s.play acts).kernel.pipeline := by
  induction acts generalizing s with
  | nil => exact h
  | cons a acts ih => exact ih (resolved_act h a)

/-- An act that sets no pass list and no hierarchy leaves what configurations are compiled by. -/
theorem act_keeps (s : Shared H) {a : Act H} (ha : s.passList? a = none) :
    (s.act a).kernel.settings = s.kernel.settings ∧ (s.act a).kernel.pipeline = s.kernel.pipeline ∧
      ((∀ hierarchy, a ≠ .event (.replaceHierarchy hierarchy)) →
        (s.act a).kernel.passSet = s.kernel.passSet) := by
  have h := s.act_reconfigures a
  generalize (s.act a).kernel = k' at h
  cases h with
  | passAdded _ => exact ⟨rfl, rfl, fun _ => rfl⟩
  | viewAdded _ => exact ⟨rfl, rfl, fun _ => rfl⟩
  | listed hr =>
    rw [passList?, hr] at ha
    cases ha
  | replaced hk =>
    have hsame := sameConfig_of_eq hk
    exact ⟨hsame.settings, hsame.pipeline, fun hno => absurd rfl (hno _)⟩
  | kept hk _ =>
    have hsame := sameConfig_of_eq hk
    exact ⟨hsame.settings, hsame.pipeline, fun _ => passSet_of_config_eq hk⟩

theorem passList?_of_refused {a : Act H}
    (ha : ∀ names k', a = .event (.setPassList names) → s.kernel.setPassList names ≠ .ok k') :
    s.passList? a = none := by
  unfold passList?
  split
  · rename_i names
    cases hr : s.kernel.passes.resolve names with
    | error e => rfl
    | ok pipeline =>
      obtain ⟨k', hk'⟩ : ∃ k', s.kernel.setPassList names = .ok k' := by
        unfold setPassList
        rw [hr]
        exact ⟨_, rfl⟩
      exact absurd hk' (ha names k' rfl)
  · rfl

/--
After every history, the settings are those that the kernel began with but for the pass list, which is the
last one that was set, and pass the check unless that one is empty. The pipeline has passes of the catalog by
the names of the pass list, each once. No act but one that sets a pass list or the hierarchy changes the pass
list, the pipeline or the digest that identifies them, whether it fails or not.
-/
theorem passList_follows {settings : Settings} {hierarchy : Hierarchy} {k : Kernel H}
    (hk : Kernel.new settings hierarchy = .ok k) (acts : List (Act H)) {s : Shared H}
    (hs : (start k).play acts = s) :
    s.kernel.settings =
      { settings with passes := (passLists (start k) acts).getLast?.getD settings.passes } ∧
    (s.kernel.settings.check =
      if (passLists (start k) acts).getLast? = some [] then .error .emptyPassList else .ok ()) ∧
    s.kernel.pipeline.map Pass.name = s.kernel.settings.passes ∧ s.kernel.settings.passes.Nodup ∧
    (∀ name ∈ s.kernel.settings.passes, name ∈ s.kernel.passes.names) ∧
    ∀ a, (∀ names k', a = .event (.setPassList names) → s.kernel.setPassList names ≠ .ok k') →
      (s.act a).kernel.settings = s.kernel.settings ∧ (s.act a).kernel.pipeline = s.kernel.pipeline ∧
        ((∀ hierarchy, a ≠ .event (.replaceHierarchy hierarchy)) →
          (s.act a).kernel.passSet = s.kernel.passSet) := by
  obtain ⟨hcheck, hresolve, hsettings, hpolicy, -⟩ := new_spec hk
  have hbuiltins : k.passes = Pass.builtins := congrArg Policy.passes hpolicy
  subst hs
  have hset : ((start k).play acts).kernel.settings =
      { settings with passes := (passLists (start k) acts).getLast?.getD settings.passes } := by
    rw [← hsettings]
    exact settings_play (start k) acts
  have hresolved : ((start k).play acts).kernel.passes.resolve ((start k).play acts).kernel.settings.passes =
      .ok ((start k).play acts).kernel.pipeline := by
    refine pipeline_resolved ?_ acts
    show k.passes.resolve k.settings.passes = .ok k.pipeline
    rw [hbuiltins, hsettings]
    exact hresolve
  have hnames := Catalog.names_of_resolve hresolved
  obtain ⟨hknown, hnodup⟩ := Catalog.resolve_spec hresolved
  refine ⟨hset, ?_, hnames, hnames ▸ hnodup, fun name hm => ?_,
    fun a ha => act_keeps _ (passList?_of_refused ha)⟩
  · rw [hset, Settings.check_passes hcheck]
    have hne : settings.passes ≠ [] := Settings.passes_ne_nil_of_check hcheck
    cases (passLists (start k) acts).getLast? with
    | none => simp [hne]
    | some names => simp
  · rw [← hnames] at hm
    obtain ⟨pass, hp, rfl⟩ := List.mem_map.1 hm
    exact List.mem_map.2 ⟨pass, hknown pass hp, rfl⟩

/-- A pass is added and listed, a list with an unknown name is refused, and a caller comes. -/
theorem passList_follows_added : ∃ k : Kernel Unit, Kernel.new .default ⟨[]⟩ = .ok k ∧
    ∃ s : Shared Unit, (start k).play [.registerPass ⟨"tag", .validate, .requireRoot⟩,
      .event (.setPassList ["validate", "tag"]), .event (.setPassList ["expand", "unknown"]),
      .event (.call (.compile .null)), .event (.step 0)] = s ∧
    s.kernel.settings = { Settings.default with passes := ["validate", "tag"] } ∧
    s.kernel.settings.check = .ok () ∧ s.kernel.pipeline.map Pass.name = ["validate", "tag"] ∧
    (s.act (.event (.setPassList ["tag", "tag"]))).kernel.passSet = s.kernel.passSet := by
  obtain ⟨k, hk⟩ : ∃ k : Kernel Unit, Kernel.new .default ⟨[]⟩ = .ok k := ⟨_, rfl⟩
  obtain ⟨hset, hcheck, hnames, -, -, hkept⟩ := passList_follows hk
    [.registerPass ⟨"tag", .validate, .requireRoot⟩, .event (.setPassList ["validate", "tag"]),
      .event (.setPassList ["expand", "unknown"]), .event (.call (.compile .null)), .event (.step 0)] rfl
  have hlists : passLists (start k) [.registerPass ⟨"tag", .validate, .requireRoot⟩,
      .event (.setPassList ["validate", "tag"]), .event (.setPassList ["expand", "unknown"]),
      .event (.call (.compile .null)), .event (.step 0)] = [["validate", "tag"]] := by
    cases hk
    rfl
  rw [hlists] at hset hcheck
  refine ⟨k, hk, _, rfl, hset, hcheck, hnames.trans (congrArg Settings.passes hset), ?_⟩
  -- a name that is listed twice is refused
  refine (hkept _ ?_).2.2 (by simp)
  intro names k' heq hok
  cases heq
  obtain ⟨pipeline, hr, -⟩ := setPassList_eq hok
  exact absurd (Catalog.names_of_resolve hr ▸ (Catalog.resolve_spec hr).2) (by decide)

/-- An empty pass list is set, and the settings fail the check that they passed. -/
theorem emptied_fails_check : ∃ k : Kernel Unit, Kernel.new .default ⟨[]⟩ = .ok k ∧
    Settings.default.check = .ok () ∧
    k.setPassList [] = .ok ((start k).act (.event (.setPassList []))).kernel ∧
    ((start k).act (.event (.setPassList []))).kernel.settings.check = .error .emptyPassList :=
  ⟨_, rfl, rfl, rfl, rfl⟩

end Shared

end Kernel

end ConfigCompiler
