import ConfigCompiler.Proofs.Cache.Admission
import ConfigCompiler.Proofs.Digest.Evaluation
import ConfigCompiler.Proofs.Kernel.Failures
import ConfigCompiler.Proofs.Kernel.Payloads

/-!
# Views over compilations that are no longer cached

A request for a view over a compilation that is cached asks for the view's result first. Only a caller who finds
neither this nor a production of it in flight looks for the compilation; without it, the call fails and no entry
changes (`step_refused`). If the result is cached, the caller is given it (`step_answered`), and if it is being
produced, the caller waits for it (`step_joined`), whether the compilation is there or not:
`queryCompiled_uncompiled`.
-/

namespace ConfigCompiler

variable {H : Type}

theorem Expansion.ofEntries_nil (hierarchy : Hierarchy) (overrides : Overrides) :
    Expansion.ofEntries hierarchy [] overrides = .ok [] := by
  simp [Expansion.ofEntries, Expansion.claimAll, pure, Except.pure, bind, Except.bind]

/-- An empty map is compiled by the built-in passes. -/
theorem Run.all_nil (given : Premises) (q : Quantization) : ∃ store transitions c,
    Run.all given (.empty q) (Pass.builtins : List (Pass H)) (.map []) = (store, transitions, .ok c) := by
  have hvalidate : (Action.validate : Action H).run given (.empty q) (.ofSource (.map [])) =
      (.empty q, .ok (.ofSource (.map []))) := rfl
  have hexpand : (Action.expand : Action H).run given (.empty q) (.ofSource (.map [])) =
      (.empty q, .ok { Draft.ofSource (.map []) with expansions? := some [] }) := by
    have hnil : Action.expansions (Store.empty q).quantization given [] = .ok [] :=
      Expansion.ofEntries_nil given.hierarchy given.overrides
    simp only [Action.run, Action.transform, Draft.root, Draft.ofSource, Value.root, Except.mapError, bind,
      Except.bind, hnil]
    rfl
  simp only [Run.all, Pass.builtins, List.length_cons, List.length_nil, Run.start, Run.toEnd, Run.step,
    Run.enter_draft, Run.proceed, hvalidate, hexpand]
  exact ⟨_, _, _, rfl⟩

/-- What a caller is given who was to be given the result of a view. -/
def Payload.asView (key : CacheKey) (p : Payload) : Except KernelError Payload :=
  if p.content.kind = .view then .ok p else .error (mismatch key p.content.kind .view)

namespace Kernel

section
variable {k : Kernel H} {snapshot : Snapshot H} {key : CacheKey} {v : View} {params : Params}

/-- Who finds neither the result, nor a production of it, nor the compilation, fails. -/
theorem step_refused (hview : k.cache.contains key = false) (hslot : ∀ f, (key, f) ∉ k.cache.slots)
    (hnone : k.cache.contains snapshot.compiledKey = false) :
    (Task.forView snapshot key none (.viewOfCached v params)).step k =
      ({ k with cache := k.cache.takeOff key }, .next ⟨snapshot, .answer (.error (.notCompiled snapshot.source)),
        [.land key k.cache.flights.size, .expect .view key]⟩) := by
  have hfind : k.cache.find? snapshot.compiledKey = none := by simpa [Cache.contains] using hnone
  have hget : (k.cache.takeOff key).get snapshot.compiledKey = (k.cache.takeOff key, none) := by
    rcases Cache.get_cases (k.cache.takeOff key) snapshot.compiledKey with ⟨e, he, -⟩ | ⟨-, hget⟩
    · cases hfind.symm.trans he
    · exact hget
  simp only [Task.step, Task.forView, Task.ask, Cache.enter_leads hview hslot, Task.produce, hget, Task.answer,
    Task.toward]

/-- A failed production gives back the slot that it took. -/
theorem foldl_handOn_takeOff (e : KernelError) (hslot : ∀ f, (key, f) ∉ k.cache.slots) {k' : Kernel H}
    (hk : k' = [Frame.land key k.cache.flights.size, .expect .view key].foldl (fun k frame => frame.handOn k e)
      { k with cache := k.cache.takeOff key }) :
    k'.cache.entries = k.cache.entries ∧ k'.cache.slots = k.cache.slots := by
  subst hk
  refine ⟨rfl, ?_⟩
  change ((key, k.cache.flights.size) :: k.cache.slots).filter (· ≠ (key, k.cache.flights.size)) = k.cache.slots
  rw [List.filter_cons_of_neg (by simp), List.filter_eq_self]
  intro slot hm
  have hne : slot ≠ (key, k.cache.flights.size) := fun heq => hslot _ (heq ▸ hm)
  simpa using hne

theorem step_answered {e : Cache.Entry CacheKey Payload} (hfind : k.cache.find? key = some e) :
    (Task.forView snapshot key none (.viewOfCached v params)).step k =
      (({ k with cache := k.cache.hit e } : Kernel H).retain e.value 1,
        .next ⟨snapshot, .answer (.ok e.value), [.expect .view key]⟩) := by
  simp only [Task.step, Task.forView, Task.ask, Cache.enter, hfind, Task.answer, Task.toward]

theorem step_joined (hfind : k.cache.find? key = none) {f : Nat} (hslot : k.cache.slots.lookup key = some f) :
    (Task.forView snapshot key none (.viewOfCached v params)).step k =
      ({ k with waiting := k.waiting.insert f (k.waiting.getD f 0 + 1) },
        .next ⟨snapshot, .wait key f none (.viewOfCached v params), [.expect .view key]⟩) := by
  simp only [Task.step, Task.forView, Task.ask, Cache.enter, hfind, hslot, Task.toward]

end

namespace Shared

variable {s : Shared H} {name : String} {v : View} {params : Params} {source : Digest}

/-- A caller who comes with a request for a registered view, and asks for its result. -/
theorem next_queryCompiled (hv : s.kernel.views.view name = .ok v) {key : CacheKey}
    (hkey : (Snapshot.take s.kernel source).viewKey name params = key) {kernel : Kernel H} {t : Task H}
    (hstep : (Task.forView (.take s.kernel source) key none (.viewOfCached v params)).step s.kernel =
      (kernel, .next t)) :
    ((s.next (.call (.queryCompiled name params source))).next (.step s.calls.length)).kernel = kernel ∧
      ((s.next (.call (.queryCompiled name params source))).next (.step s.calls.length)).calls[s.calls.length]? =
        some ⟨.queryCompiled name params source, .take s.kernel source, .going t⟩ := by
  have ht : Task.ofRequest s.kernel (.queryCompiled name params source) =
      .ok (Task.forView (.take s.kernel source) key none (.viewOfCached v params)) := by
    rw [← hkey]
    simp only [Task.ofRequest, hv]
    rfl
  obtain ⟨hkernel, hcalls⟩ := next_call_step ht
  rw [hstep] at hkernel hcalls
  refine ⟨hkernel, ?_⟩
  rw [hcalls]
  exact List.getElem?_concat_length

/-- Who holds a payload that is to be the result of a view is given it. -/
theorem answered_of_expect {i : Nat} {request : Request} {began snapshot : Snapshot H} {key : CacheKey} {p : Payload}
    (hi : s.calls[i]? = some ⟨request, began, .going ⟨snapshot, .answer (.ok p), [.expect .view key]⟩⟩) :
    ((s.next (.step i)).next (.step i)).calls[i]? = some ⟨request, began, .done (p.asView key) true⟩ ∧
      ((s.next (.step i)).next (.step i)).kernel.cache = s.kernel.cache := by
  have hlt := (List.getElem?_eq_some_iff.1 hi).1
  obtain ⟨kernel, hcache, hstep⟩ : ∃ kernel : Kernel H, kernel.cache = s.kernel.cache ∧
      Task.step s.kernel ⟨snapshot, .answer (.ok p), [.expect .view key]⟩ =
        (kernel, .next ⟨snapshot, .answer (p.asView key), []⟩) := by
    simp only [Task.step, Task.resume, Payload.asView]
    split
    · exact ⟨_, rfl, rfl⟩
    · exact ⟨_, release_cache s.kernel p, rfl⟩
  have hnext : (s.next (.step i)).calls[i]? =
      some ⟨request, began, .going ⟨snapshot, .answer (p.asView key), []⟩⟩ := by
    rw [next_step hi, hstep]
    exact List.getElem?_set_self hlt
  have hkernel : (s.next (.step i)).kernel = kernel := by rw [next_step hi, hstep]
  rw [next_step hnext]
  exact ⟨List.getElem?_set_self (List.getElem?_eq_some_iff.1 hnext).1, hkernel ▸ hcache⟩

/--
A caller asks for a registered view over a compilation that is not cached. If the view's result is neither cached
nor being produced, no entry changes and the call fails, saying that the source is not compiled, whatever else
goes on meanwhile. But if the result is cached, the caller is given it, and its entry is used; and if it is
being produced, the caller waits for it.
-/
theorem queryCompiled_uncompiled (s : Shared H) {name : String} {v : View} {params : Params} {source : Digest}
    (hv : s.kernel.views.view name = .ok v)
    (hnone : s.kernel.cache.contains (Snapshot.take s.kernel source).compiledKey = false) :
    let key := (Snapshot.take s.kernel source).viewKey name params
    let i := s.calls.length
    let s' := (s.next (.call (.queryCompiled name params source))).next (.step i)
    (s.kernel.cache.contains key = false → (∀ f, (key, f) ∉ s.kernel.cache.slots) →
      s'.kernel.cache.entries = s.kernel.cache.entries ∧
      (∀ acts, (∃ c, (s'.play acts).calls[i]? = some c ∧ c.stage.FailsWith (.notCompiled source)) ∧
        ((s'.play acts).next (.step i)).kernel.cache.entries = (s'.play acts).kernel.cache.entries) ∧
      let u := s'.play (List.replicate 3 (.event (.step i)))
      (∃ c, u.calls[i]? = some c ∧ c.stage = .done (.error (.notCompiled source)) true) ∧
        u.kernel.cache.entries = s.kernel.cache.entries ∧ u.kernel.cache.slots = s.kernel.cache.slots) ∧
    (∀ e, s.kernel.cache.find? key = some e →
      let u := (s'.next (.step i)).next (.step i)
      (∃ c, u.calls[i]? = some c ∧ c.stage = .done (e.value.asView key) true) ∧
        u.kernel.cache = s.kernel.cache.hit e) ∧
    ∀ f, s.kernel.cache.find? key = none → s.kernel.cache.slots.lookup key = some f →
      s'.kernel.cache = s.kernel.cache ∧ ∃ c t, s'.calls[i]? = some c ∧ c.stage = .going t ∧
        t.goal = .wait key f none (.viewOfCached v params) := by
  intro key i s'
  have hkey : (Snapshot.take s.kernel source).viewKey name params = key := rfl
  clear_value key
  refine ⟨fun hview hslot => ?_, fun e hfind => ?_, fun f hfind hslot => ?_⟩
  · obtain ⟨hkernel, hcall⟩ := next_queryCompiled hv hkey (step_refused hview hslot hnone)
    obtain ⟨hdone, hafter⟩ := failed_of_steps hcall rfl
    rw [hkernel] at hafter
    refine ⟨?_, fun acts => ?_, ⟨_, hdone, rfl⟩, foldl_handOn_takeOff _ hslot hafter⟩
    · exact (congrArg (fun k : Kernel H => k.cache.entries) hkernel).trans rfl
    · obtain ⟨c, hc, hfails⟩ := failsWith_play hcall rfl acts
      exact ⟨⟨c, hc, hfails⟩, entries_of_failsWith hc hfails⟩
  · obtain ⟨hkernel, hcall⟩ := next_queryCompiled hv hkey (step_answered (v := v) hfind)
    obtain ⟨hdone, hcache⟩ := answered_of_expect hcall
    exact ⟨⟨_, hdone, rfl⟩, hcache.trans (congrArg Kernel.cache hkernel)⟩
  · obtain ⟨hkernel, hcall⟩ := next_queryCompiled hv hkey (step_joined (v := v) hfind hslot)
    exact ⟨(congrArg Kernel.cache hkernel).trans rfl, _, _, hcall, rfl, rfl⟩

/-- The kernel has compiled nothing yet, so the call fails. -/
theorem queryCompiled_uncompiled_new : ∃ k : Kernel Empty, Kernel.new .default ⟨[]⟩ = .ok k ∧
    k.views.view "keys" = .ok .keys ∧
    k.cache.contains (Snapshot.take k (k.sourceDigest (.map []))).compiledKey = false ∧
    let s := ((start k).next (.call (.queryCompiled "keys" .empty (k.sourceDigest (.map []))))).next (.step 0)
    let u := s.play (List.replicate 3 (.event (.step 0)))
    ∃ c, u.calls[0]? = some c ∧ c.stage = .done (.error (.notCompiled (k.sourceDigest (.map [])))) true := by
  obtain ⟨k, hk⟩ : ∃ k : Kernel Empty, Kernel.new .default ⟨[]⟩ = .ok k := ⟨_, rfl⟩
  have hv : k.views.view "keys" = .ok .keys := by
    rw [new_views hk]
    rfl
  have hentries : ∀ key, k.cache.contains key = false := by
    intro key
    rw [new_cache hk]
    rfl
  have hslots : ∀ key f, (key, f) ∉ k.cache.slots := by
    intro key f
    rw [new_cache hk]
    exact List.not_mem_nil
  refine ⟨k, hk, hv, hentries _, ?_⟩
  exact ((queryCompiled_uncompiled (start k) hv (hentries _)).1 (hentries _) (hslots _)).2.2.1

/-! ## A result that outlives its compilation -/

/-- Calls see of a kernel only what is configured. -/
theorem take_of_config_eq {k k' : Kernel H} (h : k'.config = k.config) (source : Digest) :
    Snapshot.take k' source = Snapshot.take k source := by
  have hsame := sameConfig_of_eq h
  rw [Snapshot.take, Snapshot.take, passSet_of_config_eq h, hsame.hierarchy, hsame.pipeline]

/-- A view is made of the compilation that was asked for. -/
theorem step_materialized (k : Kernel H) (snapshot : Snapshot H) (key : CacheKey) (frames : List Frame)
    {p : Payload} {c : Compilation} (hc : p.content = .compiled c) {v : View} {params : Params} {r : View.Result}
    (hr : v.materialize c params = .ok r) : ∃ kernel made, made.content = .view r ∧ kernel.cache = k.cache ∧
      Task.step k ⟨snapshot, .answer (.ok p), .materialize key v params :: frames⟩ =
        (kernel, .next ⟨snapshot, .answer (.ok made), frames⟩) := by
  simp only [Task.step, Task.resume, Task.materialize, hc, hr]
  refine ⟨_, _, ?_, ?_, rfl⟩
  · rfl
  · exact release_cache _ p

/-- Without hooks, a caller's run goes on until it has a compilation, if it is to have one. -/
theorem answered_of_toEnd {fuel : Nat} {given : Premises} {r : Run Empty} {s : Shared Empty} {request : Request}
    {began snapshot : Snapshot Empty} {frames : List Frame}
    (hcalls : s.calls = [⟨request, began, .going ⟨snapshot, .run r, frames⟩⟩])
    (hgiven : snapshot.premises s.kernel = given) {store : Store} {transitions : List Transition} {c : Compilation}
    (h : r.toEnd given fuel s.kernel.store = (store, transitions, .ok c)) :
    ∃ n p, p.content = .compiled c ∧
      let u := s.play (List.replicate n (.event (.step 0)))
      u.calls = [⟨request, began, .going ⟨snapshot, .answer (.ok p), frames⟩⟩] ∧
        u.kernel.cache = s.kernel.cache ∧ u.kernel.config = s.kernel.config := by
  induction fuel generalizing r s with
  | zero => cases h
  | succ fuel ih =>
    have hconfig := config_step s.kernel ⟨snapshot, .run r, frames⟩
    rw [Run.toEnd] at h
    split at h
    · rename_i store' r' hstep
      have hnext : Task.step s.kernel ⟨snapshot, .run r, frames⟩ =
          ({ s.kernel with store := store' }, .next ⟨snapshot, .run r', frames⟩) := by
        simp only [Task.step, Task.run, hgiven, hstep, Task.toward]
      obtain ⟨hkernel, hcalls'⟩ := next_lone rfl hcalls hnext
      rw [hnext] at hconfig
      obtain ⟨n, p, hp, hanswer, hcache, hconfig'⟩ := ih hcalls' (by rw [hkernel]; exact hgiven)
        (by rw [hkernel]; exact h)
      rw [hkernel] at hcache hconfig'
      exact ⟨n + 1, p, hp, hanswer, hcache, hconfig'.trans hconfig⟩
    · rename_i hook r' hstep
      cases hook
    · rename_i result hstep
      cases h
      have hnext : ∃ kernel p, p.content = .compiled c ∧ kernel.cache = s.kernel.cache ∧
          Task.step s.kernel ⟨snapshot, .run r, frames⟩ = (kernel, .next ⟨snapshot, .answer (.ok p), frames⟩) := by
        simp only [Task.step, Task.run, hgiven, hstep]
        refine ⟨_, _, ?_, ?_, rfl⟩
        · rfl
        · exact record_cache _ _
      obtain ⟨kernel, p, hp, hcache, hnext⟩ := hnext
      obtain ⟨hkernel, hcalls'⟩ := next_lone rfl hcalls hnext
      rw [hnext] at hconfig
      refine ⟨1, p, hp, hcalls', ?_, ?_⟩
      · exact (congrArg Kernel.cache hkernel).trans hcache
      · exact (congrArg Kernel.config hkernel).trans hconfig

/-- Where there is room for one payload, the view takes the place of the compilation. -/
theorem kept_view {s : Shared Empty} {request : Request} {began snapshot : Snapshot Empty} {p : Payload}
    {c : Compilation} {v : View} {params : Params} {r : View.Result} {key₀ key key' : CacheKey} {f : Nat}
    (hcalls : s.calls = [⟨request, began, .going ⟨snapshot, .answer (.ok p),
      [.materialize key₀ v params, .land key f, .expect .view key']⟩⟩])
    (hp : p.content = .compiled c) (hr : v.materialize c params = .ok r)
    (hcapacity : s.kernel.cache.capacity = .entries 1) (hfresh : s.kernel.cache.isStale f = false) :
    let k := ((s.next (.step 0)).next (.step 0)).kernel
    k.config = s.kernel.config ∧ ∃ made, made.content = .view r ∧ k.cache.entries = [⟨key, made, 1⟩] := by
  -- the view is made
  obtain ⟨k₁, made, hview, hcache₁, hstep₁⟩ := step_materialized s.kernel snapshot key₀
    [.land key f, .expect .view key'] hp hr
  obtain ⟨hkernel₁, hcalls₁⟩ := next_lone rfl hcalls hstep₁
  -- and its flight lands
  have hstep₂ : Task.step k₁ ⟨snapshot, .answer (.ok made), [.land key f, .expect .view key']⟩ =
      (Task.land k₁ key f (.ok made), .next ⟨snapshot, .answer (.ok made), [.expect .view key']⟩) :=
    Task.step_land rfl rfl
  obtain ⟨hkernel₂, -⟩ := next_lone hkernel₁ hcalls₁ hstep₂
  rw [hkernel₂]
  refine ⟨?_, made, hview, ?_⟩
  · rw [← config_step s.kernel, hstep₁, ← config_step k₁, hstep₂]
  · rw [Task.land_cache, hcache₁, Cache.finish_of_fresh made hfresh]
    exact Cache.entries_insert_entries (c := s.kernel.cache.release key f) hcapacity key made

/-- With room for one payload. -/
def narrow : Settings := { Settings.default with capacity := .entries 1 }

theorem narrow_keys_ne {k : Kernel Empty} (hk : Kernel.new narrow ⟨[]⟩ = .ok k) {snapshot : Snapshot Empty}
    (h : Snapshot.take k (k.sourceDigest (.map [])) = snapshot) :
    snapshot.viewKey "count" .empty ≠ snapshot.compiledKey := by
  obtain ⟨-, hresolve, -⟩ := new_spec hk
  have hpipeline : k.pipeline = Pass.builtins := (Except.ok.inj hresolve).symm
  subst h
  refine fun heq => absurd (congrArg CacheKey.id heq) ?_
  simp only [Snapshot.viewKey, Snapshot.compiledKey, Snapshot.take, CacheKey.view, CacheKey.compiled, CacheKey.derive,
    passSet, passSetFields, sourceDigest, hpipeline, new_hierarchy hk, new_overrides hk, new_store hk, Hierarchy.digest,
    Overrides.digest, Params.digest, Value.digest, Digest.ofValueFields, Digest.ofFields_eq]
  decide +kernel

/-- A caller asks for a view, and is about to make it of the compilation that the caller has landed with. -/
theorem exists_ripe {k : Kernel Empty} (hk : Kernel.new narrow ⟨[]⟩ = .ok k) {snapshot : Snapshot Empty}
    (hsnapshot : Snapshot.take k (k.sourceDigest (.map [])) = snapshot) {key : CacheKey}
    (hkey : snapshot.viewKey "count" .empty = key) :
    ∃ acts p c, p.content = .compiled c ∧
      let request : Request := .query "count" .empty (.map []) none
      let s := (start k).play acts
      s.calls = [⟨request, request.snapshot k, .going ⟨snapshot, .answer (.ok p),
        [.materialize snapshot.compiledKey .count .empty, .land key 0, .expect .view key]⟩⟩] ∧
      s.kernel.config = k.config ∧ s.kernel.cache.capacity = .entries 1 ∧ s.kernel.cache.isStale 0 = false := by
  obtain ⟨-, hresolve, -, -, hcache, hstore, -⟩ := new_spec hk
  have hv : k.views.view "count" = .ok .count := by
    rw [new_views hk]
    rfl
  -- the caller leads two flights
  obtain ⟨hkernel, hcalls⟩ :=
    query_leads hcache hv .empty (.map []) hsnapshot hkey (hkey ▸ narrow_keys_ne hk hsnapshot)
  obtain ⟨asked, hasked⟩ : ∃ asked : List (Act Empty), (((start k).next
      (.call (.query "count" .empty (.map []) none))).next (.step 0)).next (.step 0) = (start k).play asked :=
    ⟨[.event (.call _), .event (.step 0), .event (.step 0)], rfl⟩
  rw [hasked] at hkernel hcalls
  -- the compilation is there
  have hpasses : snapshot.passes = Pass.builtins := by
    rw [← hsnapshot]
    exact (Except.ok.inj hresolve).symm
  have hempty : ((start k).play asked).kernel.store = .empty narrow.quantization := by
    rw [hkernel]
    exact hstore
  obtain ⟨store, transitions, c, hrun⟩ := Run.all_nil (H := Empty)
    (snapshot.premises ((start k).play asked).kernel) narrow.quantization
  rw [← hempty, ← hpasses] at hrun
  obtain ⟨n, p, hp, hcalls, hcache', hconfig⟩ := answered_of_toEnd hcalls rfl hrun
  -- and its flight lands
  obtain ⟨hkernel', hcalls⟩ := next_lone rfl hcalls (Task.step_land rfl rfl)
  refine ⟨asked ++ (List.replicate n (.event (.step 0)) ++ [.event (.step 0)]), p, c, hp, ?_⟩
  rw [play_append, play_append, play_cons, play_nil, act_event]
  refine ⟨hcalls, ?_, ?_, ?_⟩
  · rw [hkernel', config_land, hconfig, hkernel]
    rfl
  · rw [hkernel', Task.land_cache, (Cache.grows_finish ..).capacity, hcache', hkernel, hcache]
    rfl
  · rw [hkernel', Task.land_cache, Cache.isStale, Cache.finish_flights, hcache', hkernel, hcache]
    rfl

/--
A compilation and the result of a view over it do not fit in together: the result takes the compilation's place,
and is given out for it afterwards, although it was asked for over a cached compilation.
-/
theorem served_without_compilation : ∃ k : Kernel Empty, Kernel.new narrow ⟨[]⟩ = .ok k ∧ ∃ acts source,
    let s := (start k).play acts
    (∃ v, s.kernel.views.view "count" = .ok v) ∧
    s.kernel.cache.contains (Snapshot.take s.kernel source).compiledKey = false ∧
    let i := s.calls.length
    let s' := ((s.next (.call (.queryCompiled "count" .empty source))).next (.step i))
    ∃ c p, ((s'.next (.step i)).next (.step i)).calls[i]? = some c ∧ c.stage = .done (.ok p) true ∧
      p.content.kind = .view := by
  obtain ⟨k, hk⟩ : ∃ k : Kernel Empty, Kernel.new narrow ⟨[]⟩ = .ok k := ⟨_, rfl⟩
  obtain ⟨snapshot, hsnapshot⟩ : ∃ snapshot, Snapshot.take k (k.sourceDigest (.map [])) = snapshot := ⟨_, rfl⟩
  obtain ⟨key, hkey⟩ : ∃ key, snapshot.viewKey "count" .empty = key := ⟨_, rfl⟩
  obtain ⟨acts, p, c, hp, hcalls, hconfig, hcapacity, hfresh⟩ := exists_ripe hk hsnapshot hkey
  obtain ⟨r, hr⟩ : ∃ r, View.count.materialize c .empty = .ok r := ⟨_, rfl⟩
  obtain ⟨hconfig', made, hview, hentries⟩ := kept_view hcalls hp hr hcapacity hfresh
  refine ⟨k, hk, acts ++ [.event (.step 0), .event (.step 0)], k.sourceDigest (.map []), ?_⟩
  rw [play_append, play_cons, play_cons, play_nil, act_event, act_event]
  generalize (((start k).play acts).next (.step 0)).next (.step 0) = s at hconfig' hentries
  have hsame : Snapshot.take s.kernel (k.sourceDigest (.map [])) = snapshot :=
    (take_of_config_eq (hconfig'.trans hconfig) _).trans hsnapshot
  have hv : s.kernel.views.view "count" = .ok .count := by
    rw [(sameConfig_of_eq (hconfig'.trans hconfig)).views, new_views hk]
    rfl
  have hfind : s.kernel.cache.find? key = some ⟨key, made, 1⟩ := by simp [Cache.find?, hentries]
  refine ⟨⟨_, hv⟩, ?_, ?_⟩
  · have hne : key ≠ snapshot.compiledKey := hkey ▸ narrow_keys_ne hk hsnapshot
    simp [hsame, Cache.contains, Cache.find?, hentries, hne]
  · obtain ⟨-, hcall⟩ := next_queryCompiled hv (hsame ▸ hkey) (step_answered (v := .count) hfind)
    obtain ⟨hdone, -⟩ := answered_of_expect hcall
    have hkind : made.content.kind = .view := congrArg Payload.Content.kind hview
    exact ⟨_, made, hdone, by rw [Payload.asView, if_pos hkind], hkind⟩

end Shared

end Kernel

end ConfigCompiler
