import ConfigCompiler.Proofs.Digest.Evaluation
import ConfigCompiler.Proofs.Kernel.Progress

/-!
# Invalidating a source

An invalidation compares the digests that the keys of the cached payloads name. These are those of the
configurations that the payloads are derived from (`Traced`), and so it drops all that is derived from a
configuration with the digest and nothing else.

The productions for the digest that are in flight are set adrift: what they land with is given to all who are to
have it and is not kept, whatever happens meanwhile (`Shared.Fleeting`). This holds for every flight that a call
leads, so also for that of a view whose compilation is running.
-/

namespace ConfigCompiler.Kernel

variable {H : Type}

namespace Shared

/-- A call leads the flight of a production for a source. -/
def Produces (s : Shared H) (source : Digest) (f : Nat) : Prop :=
  ∃ c ∈ s.calls, ∃ t, c.stage = .going t ∧ c.request.source s.kernel = source ∧ ∃ key, Frame.land key f ∈ t.frames

/-- A key that is compared with others: that of an entry or of a slot, or one that a call asks for. -/
inductive Compares (s : Shared H) (key : CacheKey) : Prop
  | entry {e : Cache.Entry CacheKey Payload} (he : e ∈ s.kernel.cache.entries) (hkey : e.key = key)
  | slot {f : Nat} (hs : (key, f) ∈ s.kernel.cache.slots)
  | asked {c : Call H} {t : Task H} {deadline? : Option Deadline} {production : Production} (hc : c ∈ s.calls)
      (ht : c.stage = .going t) (hg : t.goal = .ask key deadline? production)

/-- What a flight lands with is given to all who are to have it, and is not kept. -/
structure Fleeting (s : Shared H) (f : Nat) : Prop where
  /-- Nobody finds the flight who does not wait for it already. -/
  slotless : ∀ key, (key, f) ∉ s.kernel.cache.slots
  /-- When the flight lands, nothing else changes in the cache, and the leader goes on with the result. -/
  lands : ∀ {i request began t key res frames}, s.calls[i]? = some ⟨request, began, .going t⟩ →
    t.goal = .answer res → t.frames = .land key f :: frames →
    (s.next (.step i)).kernel.cache =
      { s.kernel.cache with flights := s.kernel.cache.flights.modify f (·.land res) } ∧
    (s.next (.step i)).kernel.cache.landing f = .landed res ∧
    (s.next (.step i)).calls = s.calls.set i ⟨request, began, .going ⟨t.snapshot, .answer res, frames⟩⟩
  /-- When it has landed, those who wait for it take the result with their next step. -/
  taken : ∀ {i request began t key deadline? production res}, s.calls[i]? = some ⟨request, began, .going t⟩ →
    t.goal = .wait key f deadline? production → s.kernel.cache.landing f = .landed res →
    (s.next (.step i)).kernel.cache = s.kernel.cache.coalesce ∧
    (s.next (.step i)).calls = s.calls.set i ⟨request, began, .going (t.answer res)⟩

section
variable {B : List UInt8 → Prop} {q : Quantization} {origins : List Value} {s : Shared H} {source : Digest} {f : Nat}
variable {key key' : CacheKey}

theorem fleeting_of_adrift (h : Adrift f s.kernel.cache) : s.Fleeting f where
  slotless := h.slotless
  lands {i request began t key res frames} hi hg ht := by
    have hcache : (Task.land s.kernel key f res).cache =
        { s.kernel.cache with flights := s.kernel.cache.flights.modify f (·.land res) } := by
      rw [Task.land_cache, Cache.finish_of_detached res (h.slotless key) h.stale]
    rw [next_step hi, Task.step_land hg ht]
    refine ⟨hcache, ?_, rfl⟩
    have hflights : (Task.land s.kernel key f res).cache.flights = s.kernel.cache.flights.modify f (·.land res) := by
      rw [hcache]
    rw [landing_modify s.kernel.cache f hflights h.lt, if_pos rfl]
  taken {i request began t key deadline? production res} hi hg hl := by
    have hstep : t.step s.kernel =
        (Task.stopWaiting { s.kernel with cache := s.kernel.cache.coalesce } f, .next (t.answer res)) := by
      simp only [Task.step, hg, Task.wait, hl]
    rw [next_step hi, hstep]
    exact ⟨rfl, rfl⟩

/-- All keys that are compared are made of parts whose bytes have been hashed. -/
theorem Compares.names (h : s.Compares key) (ht : Traced B q origins s.kernel s.calls) :
    ∃ source passSet view?, key.Names B source passSet view? := by
  cases h with
  | entry he hkey =>
    obtain ⟨-, hnames⟩ := ht.entries _ he
    exact hkey ▸ hnames
  | slot hs =>
    obtain ⟨c, hc, hled⟩ := List.mem_flatMap.1 (ht.manned.crewed.slots _ hs)
    have hsourced := ht.sourced c hc
    cases hstage : c.stage with
    | going t =>
      rw [hstage] at hled hsourced
      obtain ⟨view?, hnames⟩ := Task.Sourced.led hsourced hled
      exact ⟨_, _, view?, hnames⟩
    | done res kept =>
      rw [hstage] at hled
      cases hled
  | asked hc hstage hg =>
    have hsourced := ht.sourced _ hc
    rw [hstage] at hsourced
    have hgoal := hsourced.goal
    rw [hg] at hgoal
    obtain ⟨view?, hnames⟩ := Production.Seeks.names hgoal
    exact ⟨_, _, view?, hnames⟩

/-- Without collisions, keys are told apart by their ids. -/
theorem Compares.eq_of_id_eq (h : s.Compares key) (h' : s.Compares key') (ht : Traced B q origins s.kernel s.calls)
    (hB : ¬ Digest.Collides B) (hid : key.id = key'.id) : key = key' := by
  obtain ⟨_, _, _, hnames⟩ := h.names ht
  obtain ⟨_, _, _, hnames'⟩ := h'.names ht
  exact (hnames.inj hnames' hB hid).1

/-- An invalidation sets the flights of the productions for the source adrift. -/
theorem Produces.adrift (h : s.Produces source f) (ht : Traced B q origins s.kernel s.calls) :
    Adrift f (s.next (.invalidateSource source)).kernel.cache := by
  obtain ⟨c, hc, t, hstage, hsource, key, hland⟩ := h
  have hsourced := ht.sourced c hc
  rw [hstage] at hsourced
  obtain ⟨view?, hnames⟩ := hsourced.later _ hland
  have hkey : key.source = source := by
    rw [hnames.source_eq, ← hsourced.source s.kernel ht.quantization, hsource]
  have hled : (key, f) ∈ ledBy s.calls := by
    refine List.mem_flatMap.2 ⟨c, hc, ?_⟩
    rw [hstage]
    exact List.mem_filterMap.2 ⟨_, hland, rfl⟩
  change Adrift f (s.kernel.invalidate (·.source = source)).1.cache
  rw [invalidate_cache]
  exact ht.manned.crewed.adrift hled (by simpa using hkey)

/-- When all calls have been answered, all flights have landed. -/
theorem landed_of_answered (h : s.Answered) (hm : Manned s.kernel s.calls) (hf : f < s.kernel.cache.flights.size) :
    s.kernel.Ended f := by
  have hnone : ledBy s.calls = [] := by
    refine List.flatMap_eq_nil_iff.2 fun c hc => ?_
    obtain ⟨res, kept, hstage⟩ := h c hc
    rw [hstage]
    rfl
  refine (hm.crewed.landed f hf).resolve_left ?_
  rw [hnone]
  exact List.not_mem_nil

theorem run_steps (s : Shared H) (steps : List Nat) :
    s.run (steps.map .step) = s.play (steps.map fun i => .event (.step i)) := by
  induction steps generalizing s with
  | nil => rfl
  | cons i steps ih => exact ih (s.next (.step i))

/-- The invalidated entries are those whose payloads are derived from a configuration with the digest. -/
theorem isFrom_eq_of_traced (ht : Traced B q origins s.kernel s.calls) (source : Digest)
    {e : Cache.Entry CacheKey Payload} (he : e ∈ s.kernel.cache.entries) :
    e.value.isFrom q origins source = decide (e.key.source = source) :=
  Payload.isFrom_eq (ht.entries e he).1 source

end

/--
What an invalidation drops are just the payloads that are derived from a configuration with the digest, and it
says how many there were; all others stay as they are and in their order. Each production for the digest that is
in flight, under whatever key, ends without leaving an entry: what its flight lands with is given to its leader
and to those who wait for it, and all of them come to be answered.

Keys are told apart by their ids, as no byte strings collide that have been hashed.
-/
theorem invalidateSource_exact {settings : Settings} {hierarchy : Hierarchy} {k : Kernel H}
    (hk : Kernel.new settings hierarchy = .ok k) {acts : List (Act H)} (ha : ∀ a ∈ acts, a.Sized) (source : Digest) :
    let s := (start k).play acts
    let s' := s.next (.invalidateSource source)
    let origins := (start k).origins [] acts
    let isFrom (e : Cache.Entry CacheKey Payload) := e.value.isFrom settings.quantization origins source
    Digest.Collides (· ∈ s.hashed) ∨
      (∀ key key', s.Compares key → s.Compares key' → key.id = key'.id → key = key') ∧
      (∀ e ∈ s.kernel.cache.entries, ∃ raw, origins[e.value.id]? = some raw ∧
        raw.digest settings.quantization = e.key.source) ∧
      s'.kernel.cache.entries = s.kernel.cache.entries.filter (!isFrom ·) ∧
      (s.kernel.invalidateSource source).2 = s.kernel.cache.entries.countP isFrom ∧
      ∀ f, s.Produces source f → ∀ more : List (Act H),
        (s'.play more).Fleeting f ∧ ((∀ a ∈ more, a.Sized) → ∃ steps : List Nat,
          let u := (s'.play more).run (steps.map .step)
          Digest.Collides (· ∈ u.hashed) ∨ u.Answered ∧ u.kernel.Ended f) := by
  intro s s' origins isFrom
  have ht : Traced (· ∈ s.hashed) settings.quantization origins s.kernel s.calls :=
    traced_play (traced_start hk) ha fun b hb => hb
  have hruns : s.Runs settings.quantization := (runs_start hk).play ha
  have hisFrom : ∀ e ∈ s.kernel.cache.entries, isFrom e = decide (e.key.source = source) :=
    fun e he => isFrom_eq_of_traced ht source he
  clear_value s origins
  refine Classical.or_iff_not_imp_left.2 fun hB => ⟨?_, ?_, ?_, ?_, ?_⟩
  · intro key key' h h'
    exact h.eq_of_id_eq h' ht hB
  · intro e he
    exact Payload.isFrom_iff.1 (ht.entries e he).1
  · have hcache : s'.kernel.cache = (s.kernel.cache.invalidate (·.source = source)).1 :=
      invalidate_cache s.kernel (·.source = source)
    rw [hcache, Cache.invalidate_entries]
    exact List.filter_congr fun e he => by rw [hisFrom e he]
  · change (s.kernel.cache.invalidate (·.source = source)).2.length = _
    rw [Cache.invalidate_dropped, List.length_map, ← List.countP_eq_length_filter]
    exact List.countP_congr fun e he => by rw [hisFrom e he]
  · intro f hf more
    have hadrift : Adrift f (s'.play more).kernel.cache := adrift_play (hf.adrift ht) more
    refine ⟨fleeting_of_adrift hadrift, fun hmore => ?_⟩
    have hruns' : (s'.play more).Runs settings.quantization :=
      (hruns.act (a := .event (.invalidateSource source)) trivial).play hmore
    obtain ⟨steps, hsteps⟩ := hruns'.exists_answered
    refine ⟨steps, hsteps.imp_right fun hanswered => ⟨hanswered, ?_⟩⟩
    have hmanned : Manned (s'.play more).kernel (s'.play more).calls :=
      manned_play ((s.act_change (.event (.invalidateSource source))).manned ht.manned) more
    rw [run_steps] at hanswered ⊢
    exact landed_of_answered hanswered (manned_play hmanned _) (adrift_play hadrift _).lt

/-- A caller asks for a view, and the compilation that is to be viewed has come to a pass that calls the kernel. -/
def enclosing : List (Act Unit) :=
  [.registerPass ⟨"spy", .validate, .hook ()⟩, .event (.setPassList ["spy"]),
    .event (.call (.query "count" .empty (.map []) none))] ++ List.replicate 3 (.event (.step 0))

/-- The only call leads the flight of a view, and that of its compilation, which is running. -/
def encloses (s : Shared Unit) : Bool :=
  match s.calls with
  | [⟨_, _, .going ⟨_, .run _, [.land _ 1, .materialize _ _ _, .land _ 0, .expect _ _]⟩⟩] => true
  | _ => false

/-- The pass is the only one of the kernel that the caller finds. -/
theorem exists_spied {k : Kernel Unit} (hk : Kernel.new .default ⟨[]⟩ = .ok k) : ∃ k' : Kernel Unit,
    (start k).play [.registerPass ⟨"spy", .validate, .hook ()⟩, .event (.setPassList ["spy"])] = start k' ∧
      k'.pipeline = [⟨"spy", .validate, .hook ()⟩] ∧ k'.hierarchy = ⟨[]⟩ ∧ k'.overrides = .ofPairs [] ∧
      k'.views = View.builtins ∧ k'.cache = .empty .default ∧ k'.store = .empty .disabled := by
  cases hk
  exact ⟨_, rfl, rfl, rfl, rfl, rfl, rfl, rfl⟩

/-- A run whose first pass calls the kernel stops there. -/
theorem step_spied (k : Kernel Unit) (snapshot : Snapshot Unit) (raw : Value) (frames : List Frame) :
    ∃ r, Task.step k ⟨snapshot, .run (.start [⟨"spy", .validate, .hook ()⟩] raw), frames⟩ =
      (k, .hook "spy" () ⟨snapshot, .run r, frames⟩) := ⟨_, rfl⟩

theorem encloses_enclosing {k : Kernel Unit} (hk : Kernel.new .default ⟨[]⟩ = .ok k) :
    encloses ((start k).play enclosing) = true := by
  obtain ⟨k', hplay, hpipeline, hhierarchy, hoverrides, hviews, hcache, hstore⟩ := exists_spied hk
  have hv : k'.views.view "count" = .ok .count := by
    rw [hviews]
    rfl
  have hne : (Snapshot.take k' (k'.sourceDigest (.map []))).viewKey "count" .empty ≠
      (Snapshot.take k' (k'.sourceDigest (.map []))).compiledKey := by
    refine fun heq => absurd (congrArg CacheKey.id heq) ?_
    simp only [Snapshot.viewKey, Snapshot.compiledKey, Snapshot.take, CacheKey.view, CacheKey.compiled,
      CacheKey.derive, passSet, passSetFields, sourceDigest, hpipeline, hhierarchy, hoverrides, hstore,
      Hierarchy.digest, Overrides.digest, Params.digest, Value.digest, Digest.ofValueFields, Digest.ofFields_eq]
    decide +kernel
  -- the caller leads two flights
  obtain ⟨hkernel, hcalls⟩ := query_leads hcache hv .empty (.map []) rfl rfl hne
  have hacts : (start k).play enclosing = ((((start k').next
      (.call (.query "count" .empty (.map []) none))).next (.step 0)).next (.step 0)).next (.step 0) := by
    have hsplit : enclosing = [.registerPass ⟨"spy", .validate, .hook ()⟩, .event (.setPassList ["spy"])] ++
        .event (.call (.query "count" .empty (.map []) none)) :: List.replicate 3 (.event (.step 0)) := rfl
    rw [hsplit, play_append, hplay]
    simp only [List.replicate, play_cons, play_nil, act_event]
  -- and its run comes to the pass
  have hpasses : (Snapshot.take k' (k'.sourceDigest (.map []))).passes = [⟨"spy", .validate, .hook ()⟩] := hpipeline
  rw [hpasses] at hcalls
  rw [hacts]
  generalize (((start k').next _).next _).next _ = s at hcalls
  generalize Snapshot.take k' _ = snapshot at hcalls
  obtain ⟨r, hstep⟩ := step_spied s.kernel snapshot (.map []) _
  rw [next_step (congrArg (·[0]?) hcalls), hcalls, hstep]
  rfl

/-- The pass invalidates the source that is being compiled: neither the compilation nor the view is kept. -/
theorem invalidateSource_exact_enclosing : ∃ k : Kernel Unit, Kernel.new .default ⟨[]⟩ = .ok k ∧
    (∀ a ∈ enclosing, (a : Act Unit).Sized) ∧ ∃ source,
      let s := (start k).play enclosing
      s.Produces source 0 ∧ s.Produces source 1 ∧
        (Digest.Collides (· ∈ s.hashed) ∨ ∀ more,
          ((s.next (.invalidateSource source)).play more).Fleeting 0 ∧
            ((s.next (.invalidateSource source)).play more).Fleeting 1) := by
  obtain ⟨k, hk⟩ : ∃ k : Kernel Unit, Kernel.new .default ⟨[]⟩ = .ok k := ⟨_, rfl⟩
  have hsized : ∀ a ∈ enclosing, (a : Act Unit).Sized := by
    have hname : "count".utf8ByteSize < 2 ^ 64 := by decide
    simpa [enclosing, Act.Sized, Request.view?] using hname
  have hencloses := encloses_enclosing hk
  have hexact := invalidateSource_exact hk hsized
  refine ⟨k, hk, hsized, ?_⟩
  generalize (start k).play enclosing = s at hencloses hexact
  unfold encloses at hencloses
  split at hencloses
  · rename_i request began snapshot r key₁ key₂ v params key₀ kind key hcalls
    have hmem := hcalls ▸ List.mem_singleton_self _
    have hview : s.Produces (request.source s.kernel) 0 := ⟨_, hmem, _, rfl, rfl, key₀, by simp⟩
    have hcompilation : s.Produces (request.source s.kernel) 1 := ⟨_, hmem, _, rfl, rfl, key₁, by simp⟩
    refine ⟨request.source s.kernel, hview, hcompilation, (hexact (request.source s.kernel)).imp_right ?_⟩
    rintro ⟨-, -, -, -, hfleeting⟩ more
    exact ⟨(hfleeting 0 hview more).1, (hfleeting 1 hcompilation more).1⟩
  · cases hencloses

end Shared

end ConfigCompiler.Kernel
