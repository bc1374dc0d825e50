import ConfigCompiler.Proofs.Kernel.Shared

/-!
# What a cache does not change

Whatever calls a kernel has answered, and whatever its cache has kept, dropped or handed from one caller to
another, a call is answered as if there were no cache (`Transparent`): a compilation comes to what the passes
that the call saw make of the configuration from scratch, and a view shows what it shows of that. The kernel
of a history is transparent, and its calls come to their ends if they are let (`Shared.transparent`), unless
two byte strings that were hashed have one digest.
-/

namespace ConfigCompiler.Kernel

variable {H : Type}

/-- What the passes that a call saw make of a configuration, in an interner of their own. -/
def scratch (q : Quantization) (s : Snapshot H) (raw : Value) : Except PassFailure Compilation :=
  (Run.all ⟨s.hierarchy, .none, s.source, s.passSet⟩ (.empty q) s.passes raw).2.2

/-- A payload is the result of a view over a compilation from scratch. -/
def ShowsScratch (q : Quantization) (s : Snapshot H) (raw : Value) (name : String) (params : Params)
    (p : Payload) : Prop :=
  ∃ c r, ∃ v ∈ View.builtins, v.name = name ∧ scratch q s raw = .ok c ∧ p.content = .view r ∧
    View.SameAnswer (v.materialize c params) (.ok r)

/--
An answer is as if there were no cache; `P` is what has been hashed. Whoever has only a digest has an answer
for each configuration of that digest, unless one that they do not know collides.
-/
def Transparent (P : List UInt8 → Prop) (q : Quantization) (s : Snapshot H) :
    Request → Except KernelError Payload → Prop
  | .compile raw, .ok p => ∃ c c', p.content = .compiled c ∧ scratch q s raw = .ok c' ∧
      outlineOf c.entries.toList = outlineOf c'.entries.toList
  | .compile raw, .error _ => ∃ e, scratch q s raw = .error e
  | .query name params raw _, .ok p => ShowsScratch q s raw name params p
  | .queryCompiled name params source, .ok p => ∀ raw : Value, raw.Proper → raw.digest q = source →
      Digest.Collides (fun b => P b ∨ raw.hashes q b) ∨ ShowsScratch q s raw name params p
  | _, .error _ => True

section
variable {B P : List UInt8 → Prop} {q : Quantization} {s : Snapshot H} {raw : Value} {p : Payload}

/-- A compilation from scratch comes to what is foreseen. -/
theorem scratch_cases (hB : ¬ Digest.Collides B) (hv : s.Valid B q) (hr : s.Reads B q raw) :
    (∃ c x, scratch q s raw = .ok c ∧ c.Shows x ∧ s.forecast q raw = some x) ∨
    ∃ e, scratch q s raw = .error e ∧ s.forecast q raw = none := by
  have hempty : Store.Sound B q (.empty q) [] := ⟨[], Store.inv_empty B q⟩
  obtain ⟨store, tr, result, hrun, hends⟩ := Run.all_spec hB hv.isStep
    ⟨s.hierarchy, .none, s.source, s.passSet⟩ hr.proper hr.hashed hempty
  have hscratch : scratch q s raw = result := by rw [scratch, hrun]
  rw [hscratch]
  cases hends with
  | @ok c x hs hc hx => exact .inl ⟨_, x, rfl, hc, hx⟩
  | error hs hx => exact .inr ⟨_, rfl, hx⟩

theorem scratch_of_showsCompiled (hB : ¬ Digest.Collides B) (hv : s.Valid B q) (hr : s.Reads B q raw)
    (h : ShowsCompiled B q s p) : ∃ c c', p.content = .compiled c ∧ scratch q s raw = .ok c' ∧
      outlineOf c.entries.toList = outlineOf c'.entries.toList := by
  obtain ⟨c, x, raw', hc, hx, hr', hf⟩ := h
  rw [Snapshot.forecast_eq hB hv hv rfl rfl hr' hr] at hf
  rcases scratch_cases hB hv hr with ⟨c', x', hs, hx', hf'⟩ | ⟨e, -, hf'⟩
  · cases hf.symm.trans hf'
    exact ⟨c, c', hc, hs, hx.entries.trans hx'.entries.symm⟩
  · cases hf.symm.trans hf'

theorem showsScratch_of_showsView {v : View} {params : Params} (hB : ¬ Digest.Collides B) (hv : s.Valid B q)
    (hr : s.Reads B q raw) (hview : v ∈ View.builtins) (hp : params.Proper) (hh : params.Hashed B)
    (h : ShowsView B q s v params p) : ShowsScratch q s raw v.name params p := by
  obtain ⟨r, c, x, raw', hc, hx, hr', hf, hsame⟩ := h
  rw [Snapshot.forecast_eq hB hv hv rfl rfl hr' hr] at hf
  rcases scratch_cases hB hv hr with ⟨c', x', hs, hx', hf'⟩ | ⟨e, -, hf'⟩
  · cases hf.symm.trans hf'
    have halike := Params.alike_of_digest_eq hB hp hp hh hh rfl
    exact ⟨c', r, v, hview, rfl, hs, hc, (View.materialize_congr hx' hx halike hview).trans hsame⟩
  · cases hf.symm.trans hf'

theorem Call.Good.compile {dest : List CacheKey} {res : Except KernelError Payload} {kept : Bool}
    (hB : ¬ Digest.Collides B) (h : Call.Good B q dest ⟨.compile raw, s, .done res kept⟩) :
    Transparent P q s (.compile raw) res := by
  cases h with
  | refused _ e hr => exact absurd rfl (hr raw)
  | done _ hw hr hv hm =>
    cases hw
    cases res with
    | ok p => exact scratch_of_showsCompiled hB hv hr hm
    | error e =>
      rcases scratch_cases hB hv hr with ⟨c, x, -, -, hf⟩ | ⟨e, hs, -⟩
      · cases hm.symm.trans hf
      · exact ⟨e, hs⟩

theorem Call.Good.query {dest : List CacheKey} {name : String} {params : Params}
    {deadline? : Option Deadline} {kept : Bool} (hB : ¬ Digest.Collides B)
    (h : Call.Good B q dest ⟨.query name params raw deadline?, s, .done (.ok p) kept⟩) :
    ShowsScratch q s raw name params p := by
  cases h with
  | done _ hw hr hv hm =>
    cases hw with
    | query hview => exact showsScratch_of_showsView hB hv hr.2.2 hview hr.1 hr.2.1 hm

theorem Call.Good.queryCompiled {dest : List CacheKey} {name : String} {params : Params}
    {source : Digest} {kept : Bool} (hB : ¬ Digest.Collides B)
    (h : Call.Good B q dest ⟨.queryCompiled name params source, s, .done (.ok p) kept⟩)
    (hp : raw.Proper) (hh : raw.Hashed B q) (hd : raw.digest q = source) :
    ShowsScratch q s raw name params p := by
  cases h with
  | done _ hw hr hv hm =>
    cases hw with
    | queryCompiled hview =>
      exact showsScratch_of_showsView hB hv ⟨hp, hh, hd.trans hr.2.2.symm⟩ hview hr.1 hr.2.1 hm

end

namespace Shared

variable {q : Quantization} {s : Shared H}

/-- The calls that have been answered were answered as if there were no cache. -/
theorem transparent_of_kept
    (hs : ∀ {B}, ¬ Digest.Collides B → (∀ b ∈ s.hashed, B b) → s.Kept B q)
    (hB : ¬ Digest.Collides (· ∈ s.hashed)) {c : Call H} (hc : c ∈ s.calls)
    {res : Except KernelError Payload} {kept : Bool} (hstage : c.stage = .done res kept) :
    Transparent (· ∈ s.hashed) q c.began c.request res := by
  obtain ⟨dest, -, hgood⟩ := (hs hB fun _ hb => hb).inv
  obtain ⟨request, began, stage⟩ := c
  subst hstage
  have hg := hgood _ hc
  cases request with
  | compile raw => exact hg.compile hB
  | query name params raw deadline? =>
    cases res with
    | ok p => exact hg.query hB
    | error e => trivial
  | queryCompiled name params source =>
    cases res with
    | error e => trivial
    | ok p =>
      intro raw hp hd
      by_cases hcollides : Digest.Collides fun b => b ∈ s.hashed ∨ raw.hashes q b
      · exact .inl hcollides
      · obtain ⟨dest', -, hgood'⟩ := (hs hcollides fun _ hb => .inl hb).inv
        exact .inr ((hgood' _ hc).queryCompiled hcollides hp (fun u hu => .inr ⟨u, hu, rfl⟩) hd)

/--
Every history of a kernel without declared pairs answers each call as if there were no cache, for the passes
and the hierarchy that were there when the caller came, and can go on until all calls are answered.
-/
theorem transparent {settings : Settings} {hierarchy : Hierarchy} {k : Kernel H}
    (hk : Kernel.new settings hierarchy = .ok k) (ho : settings.overridePairs = [])
    (hp : hierarchy.Proper) {events : List Event} (he : ∀ e ∈ events, e.Fits) :
    let s := (start k).run events
    (Digest.Collides (· ∈ s.hashed) ∨ ∀ i c, s.calls[i]? = some c →
      (∃ before after, events = before ++ .call c.request :: after ∧
        ((start k).run before).calls.length = i ∧
        c.began = c.request.snapshot ((start k).run before).kernel) ∧
      ∀ res kept, c.stage = .done res kept →
        Transparent (· ∈ s.hashed) settings.quantization c.began c.request res) ∧
    ∃ steps : List Nat, Digest.Collides (· ∈ (s.run (steps.map .step)).hashed) ∨
      (s.run (steps.map .step)).Answered := by
  intro s
  have hs {B : List UInt8 → Prop} (hB : ¬ Digest.Collides B) (hh : ∀ b ∈ s.hashed, B b) :
      s.Kept B settings.quantization := (kept_start hp ho hk).run hB he hh
  refine ⟨?_, exists_answered hs⟩
  by_cases hB : Digest.Collides (· ∈ s.hashed)
  · exact .inl hB
  · refine .inr fun i c hc => ⟨?_, fun res kept hstage =>
      transparent_of_kept hs hB (List.mem_of_getElem? hc) hstage⟩
    rcases began_of_getElem? hc with ⟨c', hc', -⟩ | hbegan
    · cases hc'
    · exact hbegan

/-! ## A history -/

/-- Two entries for the keys `east.x` and `east.y`. -/
def regions : Entries Value := [("@edge.x", .int 1), ("east.y", .int 2)]

/-- Two callers who share a flight, one who gives up, and changes meanwhile. -/
def overlap : List Event :=
  [.call (.compile (.map regions)), .step 0, .call (.compile (.map regions.reverse)), .step 1,
    .call (.query "keys" .empty (.map regions) (some .distant)), .step 2, .replaceHierarchy ⟨[]⟩,
    .giveUp 2, .setPassList ["validate"], .invalidateSource default,
    .call (.queryCompiled "count" .empty default)]

theorem proper_regions : (Value.map regions).Proper ∧ (Value.map regions.reverse).Proper := by
  have hp : (Value.map regions).Proper := by
    intro u hu
    simp only [Value.parts, regions, Value.entryParts, List.append_nil, List.singleton_append,
      List.mem_cons, List.not_mem_nil, or_false] at hu
    rcases hu with rfl | rfl | rfl
    · exact ⟨by decide, by decide, by decide⟩
    · trivial
    · trivial
  exact ⟨hp, hp.perm (List.reverse_perm regions).symm⟩

theorem fits_overlap : ∀ e ∈ overlap, e.Fits := by
  have hparams : Params.empty.Proper := ⟨by decide, by simp [Params.empty], by simp [Params.empty]⟩
  have hempty : (⟨[]⟩ : Hierarchy).Proper := ⟨by decide, by decide, by simp⟩
  simp only [overlap, List.forall_mem_cons, Event.Fits, Request.Fits]
  exact ⟨proper_regions.1, trivial, proper_regions.2, trivial, ⟨hparams, proper_regions.1⟩, trivial,
    hempty, trivial, trivial, trivial, hparams, by simp⟩

/-- All four callers come to answers as if there were no cache. -/
theorem transparent_overlap : ∃ k : Kernel Empty, Kernel.new .default ⟨[("edge", ["east"]), ("east", [])]⟩ =
      .ok k ∧ Settings.default.overridePairs = [] ∧ (∀ e ∈ overlap, e.Fits) ∧ ∃ steps : List Nat,
    let s : Shared Empty := (start k).run (overlap ++ steps.map .step)
    Digest.Collides (· ∈ s.hashed) ∨ s.Answered ∧ ∀ (i : Nat) (c : Call Empty), s.calls[i]? = some c →
      ∀ res kept, c.stage = .done res kept →
        Transparent (· ∈ s.hashed) Settings.default.quantization c.began c.request res := by
  have hp : (⟨[("edge", ["east"]), ("east", [])]⟩ : Hierarchy).Proper := ⟨by decide, by decide, by decide⟩
  obtain ⟨k, hk⟩ : ∃ k : Kernel Empty, Kernel.new .default ⟨[("edge", ["east"]), ("east", [])]⟩ = .ok k :=
    ⟨_, rfl⟩
  refine ⟨k, hk, rfl, fits_overlap, ?_⟩
  obtain ⟨-, steps, hsteps⟩ := transparent hk rfl hp fits_overlap
  have hfits : ∀ e ∈ overlap ++ steps.map .step, e.Fits := by
    refine List.forall_mem_append.2 ⟨fits_overlap, fun e he => ?_⟩
    obtain ⟨i, -, rfl⟩ := List.mem_map.1 he
    trivial
  obtain ⟨hall, -⟩ := transparent hk rfl hp hfits
  have hrun : (start k).run (overlap ++ steps.map .step) = ((start k).run overlap).run (steps.map .step) :=
    List.foldl_append
  rw [← hrun] at hsteps
  rcases hsteps with hcollides | hanswered
  · exact ⟨steps, .inl hcollides⟩
  · exact ⟨steps, hall.imp_right fun h => ⟨hanswered, fun i c hc => (h i c hc).2⟩⟩

end Shared

end ConfigCompiler.Kernel
