import ConfigCompiler.Proofs.Binary64.Range
import ConfigCompiler.Proofs.Hierarchy.Digest
import ConfigCompiler.Proofs.Kernel.Turns

/-!
# What a kernel is configured with

`Kernel.Reachable`: what a kernel can become by its operations and by the steps of calls. Calls change nothing
that is configured (`Kernel.config_step`), so every kernel that can be reached is as its settings say
(`Kernel.Reachable.configured`).
-/

namespace ConfigCompiler

/-! ## Quantization -/

namespace Store

mutual

theorem quantization_release (s : Store) :
    (n : Interned) → (s.release n).quantization = s.quantization
  | .node id _ shape => by
    rw [release]
    split
    · exact quantization_releaseShape _ shape
    · rfl

theorem quantization_releaseShape (s : Store) :
    (shape : Shape Interned) → (s.releaseShape shape).quantization = s.quantization
  | .seq items => by rw [releaseShape, quantization_releaseAll]
  | .map entries => by rw [releaseShape, quantization_releaseEntries]
  | .null | .bool _ | .int _ | .float _ | .str _ => by rw [releaseShape]

theorem quantization_releaseAll (s : Store) :
    (ns : List Interned) → (s.releaseAll ns).quantization = s.quantization
  | [] => by rw [releaseAll]
  | n :: ns => by rw [releaseAll, quantization_releaseAll, quantization_release]

theorem quantization_releaseEntries (s : Store) :
    (es : List (String × Interned)) → (s.releaseEntries es).quantization = s.quantization
  | [] => by rw [releaseEntries]
  | (_, n) :: es => by rw [releaseEntries, quantization_releaseEntries, quantization_release]

end

theorem quantization_create (s : Store) (d : Digest) (shape : Shape Interned) :
    (s.create d shape).1.quantization = s.quantization := by
  unfold create
  dsimp only
  split <;> rfl

theorem quantization_resolve (s : Store) (d : Digest) (shape : Shape Interned) :
    (s.resolve d shape).1.quantization = s.quantization := by
  unfold resolve
  dsimp only
  split
  · unfold reuse
    split <;> exact quantization_releaseAll _ _
  · exact quantization_create _ d shape

mutual

theorem quantization_intern (s : Store) : (v : Value) → (s.intern v).1.quantization = s.quantization
  | .null | .bool _ | .int _ | .float _ | .str _ => by rw [intern, quantization_resolve]
  | .seq items => by
    have h := quantization_internItems s items
    rw [intern]
    split <;> rename_i heq <;> rw [heq] at h
    · exact h
    · rw [quantization_resolve]
      exact h
  | .map entries => by
    have h := quantization_internEntries s entries
    rw [intern]
    split <;> rename_i heq <;> rw [heq] at h
    · exact h
    · dsimp only
      rw [quantization_resolve]
      exact h

theorem quantization_internItems (s : Store) :
    (vs : List Value) → (s.internItems vs).1.quantization = s.quantization
  | [] => by rw [internItems]
  | v :: vs => by
    have h := quantization_intern s v
    rw [internItems]
    split <;> rename_i heq <;> rw [heq] at h
    · exact h
    · rename_i s' n
      have h' := quantization_internItems s' vs
      split <;> rename_i heq' <;> rw [heq'] at h'
      · rw [quantization_release]
        exact h'.trans h
      · exact h'.trans h

theorem quantization_internEntries (s : Store) :
    (es : List (String × Value)) → (s.internEntries es).1.quantization = s.quantization
  | [] => by rw [internEntries]
  | (_, v) :: es => by
    have h := quantization_intern s v
    rw [internEntries]
    split <;> rename_i heq <;> rw [heq] at h
    · exact h
    · rename_i s' n
      have h' := quantization_internEntries s' es
      split <;> rename_i heq' <;> rw [heq'] at h'
      · rw [quantization_release]
        exact h'.trans h
      · exact h'.trans h

end

end Store

namespace Action

variable {H : Type}

theorem quantization_originNode (s : Store) (root : Entries Value) (memo : Memo) (origin : Nat) :
    (originNode s root memo origin).1.quantization = s.quantization := by
  unfold originNode
  split
  · rfl
  · split
    · rfl
    · rename_i v _
      have h := s.quantization_intern v
      split <;> rename_i heq <;> rw [heq] at h <;> exact h

theorem quantization_internAll (root : Entries Value) (xs : List Expansion) (s : Store) (memo : Memo) :
    (internAll root xs s memo).1.quantization = s.quantization := by
  induction xs generalizing s memo with
  | nil => rw [internAll]
  | cons x xs ih =>
    have h := quantization_originNode s root memo x.origin
    rw [internAll]
    split <;> rename_i heq <;> rw [heq] at h
    · exact h
    · rename_i s' memo' n
      have h' := ih s' memo'
      split <;> rename_i heq' <;> rw [heq'] at h'
      · rw [Store.quantization_release]
        exact h'.trans h
      · exact h'.trans h

theorem quantization_transform (given : Premises) (s : Store) (d : Draft) (a : Action H) :
    (a.transform given s d).1.quantization = s.quantization := by
  cases a with
  | intern =>
    rw [transform]
    split
    · rfl
    · rfl
    · rename_i xs root _ _
      have h := quantization_internAll root xs s []
      split <;> rename_i heq <;> rw [heq] at h
      · exact h
      · exact (Store.quantization_releaseAll _ _).trans h
  | index =>
    rw [transform]
    split <;> rfl
  | unset part => cases part <;> first | rfl | exact Store.quantization_releaseAll _ _
  | _ => rfl

theorem quantization_run (given : Premises) (s : Store) (d : Draft) (a : Action H) :
    (a.run given s d).1.quantization = s.quantization := by
  have h := quantization_transform given s d a
  unfold run
  split <;> rename_i heq <;> rw [heq] at h
  · exact h
  · exact (Store.quantization_releaseAll _ _).trans h

end Action

theorem Run.quantization_step {H : Type} (given : Premises) (s : Store) (r : Run H) :
    (r.step given s).1.quantization = s.quantization := by
  unfold step
  split
  · have h : (publish given s r.draft).1.quantization = s.quantization := by
      unfold publish
      split
      · rfl
      · exact Store.quantization_releaseAll _ _
      · rfl
    split <;> rename_i heq <;> rw [heq] at h <;> exact h
  · rename_i pass rest _
    dsimp only
    split
    · rfl
    · have h := Action.quantization_run given s (r.enter pass).draft pass.action
      split <;> rename_i heq <;> rw [heq] at h <;> exact h

/-! ## Calls -/

namespace Kernel

variable {H : Type} {k k' : Kernel H}

/-- All that calls leave as it is. -/
def config (k : Kernel H) : Settings × Policy H × Quantization := (k.settings, k.policy, k.store.quantization)

theorem config_eq (hs : k'.settings = k.settings) (hp : k'.policy = k.policy)
    (hq : k'.store.quantization = k.store.quantization) : k'.config = k.config := by
  rw [config, config, hs, hp, hq]

/-- All that is configured, part by part. -/
structure SameConfig (k k' : Kernel H) : Prop where
  settings : k'.settings = k.settings
  hierarchy : k'.hierarchy = k.hierarchy
  overrides : k'.overrides = k.overrides
  passes : k'.passes = k.passes
  pipeline : k'.pipeline = k.pipeline
  views : k'.views = k.views
  quantization : k'.store.quantization = k.store.quantization

theorem sameConfig_of_eq (h : k'.config = k.config) : k.SameConfig k' := by
  obtain ⟨hs, hrest⟩ := Prod.mk.inj h
  obtain ⟨hp, hq⟩ := Prod.mk.inj hrest
  obtain ⟨hhierarchy, hoverrides, hpasses, hpipeline, hviews⟩ := Policy.mk.inj hp
  exact ⟨hs, hhierarchy, hoverrides, hpasses, hpipeline, hviews, hq⟩

/-- What is configured determines the digest of the pass set. -/
theorem passSet_of_config_eq (h : k'.config = k.config) : k'.passSet = k.passSet := by
  have hsame := sameConfig_of_eq h
  rw [passSet, passSet, passSetFields, passSetFields, hsame.hierarchy, hsame.overrides, hsame.pipeline,
    hsame.quantization]

theorem config_release (k : Kernel H) (p : Payload) : (k.release p).config = k.config := by
  unfold release
  split
  · exact config_eq rfl rfl (Store.quantization_releaseAll _ _)
  · rfl

theorem config_releaseAll (k : Kernel H) (ps : List Payload) : (k.releaseAll ps).config = k.config := by
  induction ps generalizing k with
  | nil => rfl
  | cons p ps ih => exact (ih (k.release p)).trans (config_release k p)

theorem config_invalidate (k : Kernel H) (doomed : CacheKey → Bool) :
    (k.invalidate doomed).1.config = k.config := config_releaseAll _ _

theorem config_record (k : Kernel H) (passes : List String) : (k.record passes).config = k.config := by
  unfold record
  dsimp only
  split <;> rfl

theorem config_produce (k : Kernel H) (t : Task H) (p : Production) :
    (Task.produce k t p).1.config = k.config := by
  cases p with
  | viewOfCached view params =>
    rw [Task.produce]
    split <;> rfl
  | _ => rfl

theorem config_ask (k : Kernel H) (t : Task H) (key : CacheKey) (deadline? : Option Deadline)
    (production : Production) : (Task.ask k t key deadline? production).1.config = k.config := by
  unfold Task.ask
  split
  · rfl
  · rfl
  · exact config_produce _ _ production

theorem config_wait (k : Kernel H) (t : Task H) (key : CacheKey) (flight : Nat)
    (deadline? : Option Deadline) (production : Production) :
    (Task.wait k t key flight deadline? production).1.config = k.config := by
  unfold Task.wait
  split <;> rfl

theorem config_run (k : Kernel H) (t : Task H) (r : Run H) : (Task.run k t r).1.config = k.config := by
  have h := r.quantization_step (t.snapshot.premises k) k.store
  unfold Task.run
  split <;> rename_i heq <;> rw [heq] at h
  · exact config_eq rfl rfl h
  · exact config_eq rfl rfl h
  · exact config_eq rfl rfl h
  · exact (config_record _ _).trans (config_eq rfl rfl h)

theorem quantization_retainAll (ns : List Interned) (s : Store) :
    (ns.foldl Store.retain s).quantization = s.quantization := by
  induction ns generalizing s with
  | nil => rfl
  | cons n ns ih => exact ih (s.retain n)

theorem config_materialize (k : Kernel H) (p : Payload) (key : CacheKey) (view : View) (params : Params) :
    (Task.materialize k p key view params).1.config = k.config := by
  unfold Task.materialize
  split
  · exact config_release k p
  · split
    · exact config_release k p
    · exact (config_release _ p).trans (config_eq rfl rfl (quantization_retainAll _ _))

theorem config_land (k : Kernel H) (key : CacheKey) (flight : Nat) (result : Except KernelError Payload) :
    (Task.land k key flight result).config = k.config := by
  unfold Task.land
  cases result <;> exact config_releaseAll _ _

theorem config_resume (k : Kernel H) (t : Task H) (result : Except KernelError Payload) (frame : Frame) :
    (Task.resume k t result frame).1.config = k.config := by
  cases frame with
  | land key flight => exact config_land k key flight result
  | expect kind key =>
    unfold Task.resume
    dsimp only
    split
    · rfl
    · split
      · rfl
      · exact config_release k _
  | materialize key view params =>
    unfold Task.resume
    dsimp only
    split
    · rfl
    · exact config_materialize k _ key view params
  | thenAsk key deadline? production =>
    unfold Task.resume
    dsimp only
    split
    · rfl
    · exact config_release k _

/-- Calls change nothing that is configured. -/
theorem config_step (k : Kernel H) (t : Task H) : (t.step k).1.config = k.config := by
  unfold Task.step
  split
  · exact config_ask k t _ _ _
  · exact config_wait k t _ _ _ _
  · exact config_run k t _
  · split
    · rfl
    · exact config_resume k _ _ _

theorem config_giveUp (k : Kernel H) (t : Task H) : (t.giveUp k).1.config = k.config := by
  obtain ⟨waiting, hk⟩ := t.giveUp_kernel k
  rw [hk]
  rfl

/-! ## Reachable kernels -/

/-- What kernels become by operations and by the steps of calls. -/
inductive Reachable : Kernel H → Prop
  | new {settings : Settings} {declared : List (String × List String)} {hierarchy : Hierarchy}
      {k : Kernel H} : Hierarchy.build declared = .ok hierarchy → Kernel.new settings hierarchy = .ok k →
      Reachable k
  | registerPass {k k' : Kernel H} {pass : Pass H} : Reachable k → k.registerPass pass = .ok k' → Reachable k'
  | registerView {k k' : Kernel H} {view : View} : Reachable k → k.registerView view = .ok k' → Reachable k'
  | setPassList {k k' : Kernel H} {names : List String} : Reachable k → k.setPassList names = .ok k' →
      Reachable k'
  | replaceHierarchy {k : Kernel H} {declared : List (String × List String)} {hierarchy : Hierarchy} :
      Reachable k → Hierarchy.build declared = .ok hierarchy → Reachable (k.replaceHierarchy hierarchy).1
  | invalidate {k : Kernel H} (doomed : CacheKey → Bool) : Reachable k → Reachable (k.invalidate doomed).1
  | release {k : Kernel H} (p : Payload) : Reachable k → Reachable (k.release p)
  | report {k : Kernel H} : Reachable k → Reachable k.report
  | step {k : Kernel H} (t : Task H) : Reachable k → Reachable (t.step k).1
  | giveUp {k : Kernel H} (t : Task H) : Reachable k → Reachable (t.giveUp k).1

/-- A kernel is as its settings say. -/
structure Configured (k : Kernel H) : Prop where
  hierarchy : ∃ declared, Hierarchy.build declared = .ok k.hierarchy
  overrides : k.overrides = k.settings.overrides
  pipeline : k.pipeline.map Pass.name = k.settings.passes
  quantization : k.store.quantization = k.settings.quantization
  epsilon : ∀ width, k.settings.epsilon? = some width → Settings.isWidth width = true

theorem Configured.congr (h : k.Configured) (he : k'.config = k.config) : k'.Configured := by
  have hsame := sameConfig_of_eq he
  constructor
  · rw [hsame.hierarchy]
    exact h.hierarchy
  · rw [hsame.overrides, hsame.settings]
    exact h.overrides
  · rw [hsame.pipeline, hsame.settings]
    exact h.pipeline
  · rw [hsame.quantization, hsame.settings]
    exact h.quantization
  · rw [hsame.settings]
    exact h.epsilon

theorem Reachable.configured (h : k.Reachable) : k.Configured := by
  induction h with
  | new hb hk =>
    obtain ⟨hcheck, hresolve, hs, hpolicy, -, hstore, -⟩ := new_spec hk
    exact
      { hierarchy := ⟨_, hb.trans (congrArg Except.ok (congrArg Policy.hierarchy hpolicy).symm)⟩
        overrides := hs ▸ congrArg Policy.overrides hpolicy
        pipeline := hs ▸ Catalog.names_of_resolve hresolve
        quantization := by rw [hstore, hs]; rfl
        epsilon := hs ▸ fun _ => Settings.isWidth_of_check hcheck }
  | @registerPass k _ pass _ hr ih =>
    unfold Kernel.registerPass at hr
    cases hp : k.passes.addPass pass with
    | error e => rw [hp] at hr; cases hr
    | ok passes =>
      rw [hp] at hr
      cases hr
      exact ⟨ih.hierarchy, ih.overrides, ih.pipeline, ih.quantization, ih.epsilon⟩
  | @registerView k _ view _ hr ih =>
    unfold Kernel.registerView at hr
    cases hp : k.views.addView view with
    | error e => rw [hp] at hr; cases hr
    | ok views =>
      rw [hp] at hr
      cases hr
      exact ⟨ih.hierarchy, ih.overrides, ih.pipeline, ih.quantization, ih.epsilon⟩
  | setPassList _ hr ih =>
    obtain ⟨pipeline, hresolve, rfl⟩ := setPassList_eq hr
    exact ⟨ih.hierarchy, ih.overrides, Catalog.names_of_resolve hresolve, ih.quantization, ih.epsilon⟩
  | @replaceHierarchy k _ hierarchy _ hb ih =>
    have hnew : ({ k with hierarchy } : Kernel H).Configured :=
      ⟨⟨_, hb⟩, ih.overrides, ih.pipeline, ih.quantization, ih.epsilon⟩
    exact hnew.congr (config_invalidate _ _)
  | invalidate doomed _ ih => exact ih.congr (config_invalidate _ doomed)
  | release p _ ih => exact ih.congr (config_release _ p)
  | report _ ih => exact ih.congr rfl
  | step t _ ih => exact ih.congr (config_step _ t)
  | giveUp t _ ih => exact ih.congr (config_giveUp _ t)

end Kernel

end ConfigCompiler
