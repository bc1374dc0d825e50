import ConfigCompiler.Proofs.Kernel.Shared

/-!
# All that can happen to a kernel

Besides the events of a history, passes and views may be added to a kernel at any time: `Shared.act`. Here the
kernels, catalogs and configurations may be any, and nothing is assumed about what is hashed. `Shared.Change`
lists what an act changes (`Shared.act_change`), and `Request.Opens` the tasks that calls begin with.
-/

namespace ConfigCompiler

variable {H : Type}

/-! ## Calls that begin -/

/-- The task that a request begins with, whatever the key of the view is. -/
inductive Request.Opens (k : Kernel H) : Request → Task H → Prop
  | compile (raw : Value) : Opens k (.compile raw)
      ⟨.take k (k.sourceDigest raw), .ask (Snapshot.take k (k.sourceDigest raw)).compiledKey none (.compile raw),
        [.expect .compiled (Snapshot.take k (k.sourceDigest raw)).compiledKey]⟩
  | query (name : String) (v : View) (params : Params) (raw : Value) (deadline? : Option Deadline)
      (key : CacheKey) :
      Opens k (.query name params raw deadline?)
        (.forView (.take k (k.sourceDigest raw)) key deadline? (.view v params raw))
  /-- With a deadline, the compilation is waited for first. -/
  | queryUntil (name : String) (v : View) (params : Params) (raw : Value) (deadline? : Option Deadline)
      (key : CacheKey) :
      Opens k (.query name params raw deadline?)
        ⟨.take k (k.sourceDigest raw),
          .ask (Snapshot.take k (k.sourceDigest raw)).compiledKey deadline? (.compile raw),
          [.expect .compiled (Snapshot.take k (k.sourceDigest raw)).compiledKey,
            .thenAsk key deadline? (.view v params raw), .expect .view key]⟩
  | queryCompiled (name : String) (v : View) (params : Params) (source : Digest) (key : CacheKey) :
      Opens k (.queryCompiled name params source) (.forView (.take k source) key none (.viewOfCached v params))

theorem Catalog.view_eq_error {c : Catalog View} {name : String} {e : KernelError}
    (h : c.view name = .error e) : e = .unknownView name := by
  unfold Catalog.view at h
  split at h
  · cases h
  · cases h
    rfl

theorem Request.opens_of_ok {k : Kernel H} {request : Request} {t : Task H}
    (h : Task.ofRequest k request = .ok t) : request.Opens k t := by
  cases Task.opening_of_eq h with
  | @compile raw s hs =>
    subst hs
    exact .compile raw
  | @queryUntil name v params raw deadline? s hs hv hfirst =>
    subst hs
    exact .queryUntil name v params raw deadline? _
  | @query name v params raw deadline? s hs hv =>
    subst hs
    exact .query name v params raw deadline? _
  | @queryCompiled name v params source s hs hv =>
    subst hs
    exact .queryCompiled name v params source _

theorem Request.error_of_refused {k : Kernel H} {request : Request} {e : KernelError}
    (h : Task.ofRequest k request = .error e) : ∃ name, e = .unknownView name := by
  cases Task.opening_of_eq h with
  | @refused name params raw deadline? e hv => exact ⟨name, Catalog.view_eq_error hv⟩
  | @refusedCompiled name params source e hv => exact ⟨name, Catalog.view_eq_error hv⟩

/-- No call leads a flight when it begins. -/
theorem Request.Opens.quiet {k : Kernel H} {request : Request} {t : Task H} (h : request.Opens k t) :
    Kernel.Quiet t.frames := by
  intro key flight hm
  cases h <;> simp [Task.forView] at hm

/-- A caller with a deadline asks for the compilation first. -/
theorem Task.ofRequest_until {k : Kernel H} {name : String} {v : View} {params : Params} {raw : Value}
    (deadline : Deadline) (hv : k.views.view name = .ok v)
    (hview : k.cache.contains ((Snapshot.take k (k.sourceDigest raw)).viewKey name params) = false) :
    ∃ t, Task.ofRequest k (.query name params raw (some deadline)) = .ok t ∧
      t.goal = .ask (Snapshot.take k (k.sourceDigest raw)).compiledKey (some deadline) (.compile raw) := by
  simp only [Task.ofRequest, hv, bind, Except.bind, Option.isSome_some, Bool.true_and, hview]
  exact ⟨_, rfl, rfl⟩

/-! ## Acts -/

namespace Kernel

inductive Act (H : Type) where
  | event (e : Event)
  | registerPass (pass : Pass H)
  | registerView (view : View)

namespace Shared

/-- One act; those that cannot happen now, or are refused, change nothing. -/
def act (s : Shared H) : Act H → Shared H
  | .event e => s.next e
  | .registerPass pass =>
    match s.kernel.registerPass pass with
    | .ok kernel => { s with kernel }
    | .error _ => s
  | .registerView view =>
    match s.kernel.registerView view with
    | .ok kernel => { s with kernel }
    | .error _ => s

def play (s : Shared H) (acts : List (Act H)) : Shared H := acts.foldl act s

@[simp] theorem act_event (s : Shared H) (e : Event) : s.act (.event e) = s.next e := rfl

@[simp] theorem play_nil (s : Shared H) : s.play [] = s := rfl

@[simp] theorem play_cons (s : Shared H) (a : Act H) (acts : List (Act H)) :
    s.play (a :: acts) = (s.act a).play acts := rfl

theorem play_append (s : Shared H) (acts acts' : List (Act H)) :
    s.play (acts ++ acts') = (s.play acts).play acts' := List.foldl_append

/-- What an act makes of a kernel and its calls. -/
inductive Change (s : Shared H) : Act H → Kernel H → List (Call H) → Prop
  /-- No call changes, and neither does the cache. -/
  | still {a : Act H} {kernel : Kernel H} (hk : s.kernel.Still kernel)
      (ha : ∀ {i request began t}, a = .event (.step i) → s.calls[i]? ≠ some ⟨request, began, .going t⟩) :
      Change s a kernel s.calls
  | began {request : Request} {t : Task H} (ht : request.Opens s.kernel t) :
      Change s (.event (.call request)) s.kernel
        (s.calls ++ [⟨request, request.snapshot s.kernel, .going t⟩])
  | refused {request : Request} (name : String) :
      Change s (.event (.call request)) s.kernel
        (s.calls ++ [⟨request, request.snapshot s.kernel, .done (.error (.unknownView name)) false⟩])
  | stepped {i : Nat} {request : Request} {began : Snapshot H} {t : Task H}
      (hi : s.calls[i]? = some ⟨request, began, .going t⟩) :
      Change s (.event (.step i)) (t.step s.kernel).1
        (s.calls.set i ⟨request, began, .ofProgress (t.step s.kernel).2⟩)
  | gaveUp {i : Nat} {request : Request} {began : Snapshot H} {t : Task H}
      (hi : s.calls[i]? = some ⟨request, began, .going t⟩) :
      Change s (.event (.giveUp i)) (t.giveUp s.kernel).1
        (s.calls.set i ⟨request, began, .going (t.giveUp s.kernel).2⟩)
  | dropped {i : Nat} {request : Request} {began : Snapshot H} {p : Payload}
      (hi : s.calls[i]? = some ⟨request, began, .done (.ok p) true⟩) :
      Change s (.event (.drop i)) (s.kernel.release p)
        (s.calls.set i ⟨request, began, .done (.ok p) false⟩)
  /-- Cached payloads are dropped. -/
  | invalidated {e : Event} {kernel : Kernel H} (doomed : CacheKey → Bool)
      (he : (∃ hierarchy, e = .replaceHierarchy hierarchy) ∨ ∃ source, e = .invalidateSource source)
      (hc : kernel.cache = (s.kernel.cache.invalidate doomed).1) : Change s (.event e) kernel s.calls

theorem act_change (s : Shared H) (a : Act H) : s.Change a (s.act a).kernel (s.act a).calls := by
  cases a with
  | event e =>
    cases e with
    | call request =>
      simp only [act, next, call]
      cases ht : Task.ofRequest s.kernel request with
      | ok t => exact .began (Request.opens_of_ok ht)
      | error e =>
        obtain ⟨name, rfl⟩ := Request.error_of_refused ht
        exact .refused name
    | step i =>
      simp only [act, next]
      split
      · exact .stepped ‹_›
      · rename_i hnone
        refine .still (.refl _) ?_
        rintro i request began t ⟨⟩
        exact hnone request began t
    | giveUp i =>
      simp only [act, next]
      split
      · exact .gaveUp ‹_›
      · exact .still (.refl _) (by rintro _ _ _ _ ⟨⟩)
    | drop i =>
      simp only [act, next]
      split
      · exact .dropped ‹_›
      · exact .still (.refl _) (by rintro _ _ _ _ ⟨⟩)
    | setPassList names =>
      simp only [act, next]
      split
      · rename_i kernel hk
        obtain ⟨pipeline, -, rfl⟩ := setPassList_eq hk
        exact .still (.of_eq rfl rfl) (by rintro _ _ _ _ ⟨⟩)
      · exact .still (.refl _) (by rintro _ _ _ _ ⟨⟩)
    | replaceHierarchy hierarchy =>
      refine .invalidated (fun _ => true) (.inl ⟨hierarchy, rfl⟩) ?_
      change (s.kernel.replaceHierarchy hierarchy).1.cache = _
      exact releaseAll_cache _ _
    | invalidateSource source =>
      refine .invalidated (·.source = source) (.inr ⟨source, rfl⟩) ?_
      change (s.kernel.invalidateSource source).1.cache = _
      exact releaseAll_cache _ _
  | registerPass pass =>
    simp only [act, registerPass]
    cases s.kernel.passes.addPass pass with
    | ok passes => exact .still (.of_eq rfl rfl) (by rintro _ _ _ _ ⟨⟩)
    | error e => exact .still (.refl _) (by rintro _ _ _ _ ⟨⟩)
  | registerView view =>
    simp only [act, registerView]
    cases s.kernel.views.addView view with
    | ok views => exact .still (.of_eq rfl rfl) (by rintro _ _ _ _ ⟨⟩)
    | error e => exact .still (.refl _) (by rintro _ _ _ _ ⟨⟩)

/-- A caller comes and makes a step. -/
theorem next_call_step {s : Shared H} {request : Request} {t : Task H}
    (ht : Task.ofRequest s.kernel request = .ok t) :
    ((s.next (.call request)).next (.step s.calls.length)).kernel = (t.step s.kernel).1 ∧
      ((s.next (.call request)).next (.step s.calls.length)).calls =
        s.calls ++ [⟨request, request.snapshot s.kernel, .ofProgress (t.step s.kernel).2⟩] := by
  have hcall : s.next (.call request) = ⟨s.kernel, s.calls ++ [⟨request, request.snapshot s.kernel, .going t⟩],
      request.hashes s.kernel ++ s.hashed⟩ := by
    simp only [next, call, ht]
  have hi : (s.next (.call request)).calls[s.calls.length]? =
      some ⟨request, request.snapshot s.kernel, .going t⟩ := by
    rw [hcall]
    exact List.getElem?_concat_length
  rw [next_step hi, hcall]
  refine ⟨rfl, ?_⟩
  rw [List.set_append_right _ _ (Nat.le_refl _), Nat.sub_self]
  rfl

/-- Who compiles what is neither cached nor in flight leads a flight. -/
theorem compile_leads (s : Shared H) (raw : Value) {key : CacheKey}
    (hkey : (Snapshot.take s.kernel (s.kernel.sourceDigest raw)).compiledKey = key)
    (hfind : s.kernel.cache.find? key = none) (hslot : s.kernel.cache.slots.lookup key = none) :
    let s' := (s.next (.call (.compile raw))).next (.step s.calls.length)
    s'.kernel = { s.kernel with cache := s.kernel.cache.takeOff key } ∧ ∃ c, s'.calls = s.calls ++ [c] := by
  obtain ⟨t, ht, hg⟩ : ∃ t, Task.ofRequest s.kernel (.compile raw) = .ok t ∧
      t.goal = .ask key none (.compile raw) := ⟨_, rfl, by rw [← hkey]⟩
  obtain ⟨hkernel, hcalls⟩ := next_call_step ht
  exact ⟨hkernel.trans (congrArg Prod.fst (Task.step_leads hg hfind hslot)), _, hcalls⟩

/-- A caller with a deadline waits for a compilation that is in flight, and no flight changes. -/
theorem query_waits (s : Shared H) {name : String} {v : View} (hv : s.kernel.views.view name = .ok v)
    (params : Params) (raw : Value) (deadline : Deadline) {key : CacheKey} {flight : Nat}
    (hkey : (Snapshot.take s.kernel (s.kernel.sourceDigest raw)).compiledKey = key)
    (hfind : ∀ key, s.kernel.cache.find? key = none) (hslot : s.kernel.cache.slots.lookup key = some flight) :
    let query : Request := .query name params raw (some deadline)
    ∃ t : Task H, t.goal = .wait key flight (some deadline) (.compile raw) ∧
      ((s.next (.call query)).next (.step s.calls.length)).kernel.cache.flights = s.kernel.cache.flights ∧
      ((s.next (.call query)).next (.step s.calls.length)).calls =
        s.calls ++ [⟨query, query.snapshot s.kernel, .going t⟩] := by
  intro query
  have hview : s.kernel.cache.contains
      ((Snapshot.take s.kernel (s.kernel.sourceDigest raw)).viewKey name params) = false := by
    rw [Cache.contains, hfind]
    rfl
  obtain ⟨t, ht, hg⟩ := Task.ofRequest_until deadline hv hview
  rw [hkey] at hg
  obtain ⟨hkernel, hcalls⟩ := next_call_step ht
  obtain ⟨hflights, hprogress⟩ := Task.step_joins hg (hfind key) hslot
  rw [hprogress] at hcalls
  exact ⟨_, rfl, by rw [hkernel, hflights], hcalls⟩

/-- A step of the only call. -/
theorem next_lone {s : Shared H} {request : Request} {began : Snapshot H} {t t' : Task H} {k k' : Kernel H}
    (hk : s.kernel = k) (h : s.calls = [⟨request, began, .going t⟩]) (hstep : t.step k = (k', .next t')) :
    (s.next (.step 0)).kernel = k' ∧ (s.next (.step 0)).calls = [⟨request, began, .going t'⟩] := by
  have hi : s.calls[0]? = some ⟨request, began, .going t⟩ := by rw [h]; rfl
  rw [next_step hi, h, hk, hstep]
  exact ⟨rfl, rfl⟩

/--
Who asks for a view of a kernel that has cached nothing leads two flights, of the view and of its compilation,
unless they have the same key.
-/
theorem query_leads {k : Kernel H} {capacity : Capacity} (hcache : k.cache = .empty capacity) {name : String}
    {v : View} (hv : k.views.view name = .ok v) (params : Params) (raw : Value) {snapshot : Snapshot H}
    (hsnapshot : Snapshot.take k (k.sourceDigest raw) = snapshot) {key : CacheKey}
    (hkey : snapshot.viewKey name params = key) (hne : key ≠ snapshot.compiledKey) :
    let s := (((start k).next (.call (.query name params raw none))).next (.step 0)).next (.step 0)
    s.kernel = { k with cache := (k.cache.takeOff key).takeOff snapshot.compiledKey } ∧
      s.calls = [⟨.query name params raw none, (Request.query name params raw none).snapshot k,
        .going ⟨snapshot, .run (.start snapshot.passes raw), [.land snapshot.compiledKey 1,
          .materialize snapshot.compiledKey v params, .land key 0, .expect .view key]⟩⟩] := by
  have ht : Task.ofRequest k (.query name params raw none) =
      .ok (.forView snapshot key none (.view v params raw)) := by
    subst hsnapshot hkey
    simp only [Task.ofRequest, hv]
    rfl
  have hcalled : (start k).next (.call (.query name params raw none)) = ⟨k,
      [⟨.query name params raw none, (Request.query name params raw none).snapshot k,
        .going (.forView snapshot key none (.view v params raw))⟩],
      (Request.query name params raw none).hashes k ++ []⟩ := by
    simp only [next, call, start, ht, List.nil_append]
  -- the view is neither cached nor in flight
  have hfind : k.cache.find? key = none := by rw [hcache]; rfl
  have hslot : k.cache.slots.lookup key = none := by rw [hcache]; rfl
  obtain ⟨hkernel, hcalls⟩ := next_lone (k := k) (congrArg Shared.kernel hcalled) (congrArg Shared.calls hcalled)
    (Task.step_leads_view rfl hfind hslot)
  -- neither is the compilation, which has another key
  have hfind' : (k.cache.takeOff key).find? snapshot.compiledKey = none := by
    rw [hcache]
    rfl
  have hslot' : (k.cache.takeOff key).slots.lookup snapshot.compiledKey = none := by
    rw [hcache]
    change List.lookup snapshot.compiledKey [(key, 0)] = none
    rw [List.lookup_cons, beq_eq_false_iff_ne.2 hne.symm]
    rfl
  obtain ⟨hkernel', hcalls'⟩ := next_lone hkernel hcalls (Task.step_leads rfl hfind' hslot')
  refine ⟨hkernel', ?_⟩
  rw [hcalls']
  simp only [hcache]
  rfl

/-- A change of one call. -/
theorem getElem?_set_cases {calls : List (Call H)} {i j : Nat} {c c' : Call H}
    (h : (calls.set i c)[j]? = some c') : (j = i ∧ c' = c) ∨ (j ≠ i ∧ calls[j]? = some c') := by
  rw [List.getElem?_set] at h
  split at h
  · rename_i hij
    split at h
    · cases h
      exact .inl ⟨hij.symm, rfl⟩
    · cases h
  · rename_i hij
    exact .inr ⟨fun hji => hij hji.symm, h⟩

/-- One call more. -/
theorem getElem?_append_cases {calls : List (Call H)} {j : Nat} {c c' : Call H}
    (h : (calls ++ [c])[j]? = some c') : c' = c ∨ calls[j]? = some c' := by
  rw [List.getElem?_append] at h
  split at h
  · exact .inr h
  · rw [List.getElem?_singleton] at h
    split at h
    · cases h
      exact .inl rfl
    · cases h

end Shared

end Kernel

end ConfigCompiler
