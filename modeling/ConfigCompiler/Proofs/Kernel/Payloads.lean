import ConfigCompiler.Proofs.Kernel.PassLists

/-!
# Where payloads come from and where they go

A payload comes into the cache only when a flight lands with it (`Task.entries_of_step`). A task is given one
from an entry or by the flight that it has waited for, or it makes a new one: at the end of its pipeline, or as
a view of the compilation that it holds (`Task.step_obtained`). All other acts leave the payloads there are, or
drop some (`Shared.entries_of_act`).
-/

namespace ConfigCompiler

variable {H : Type}

namespace Kernel

theorem new_nextPayload {settings : Settings} {hierarchy : Hierarchy} {k : Kernel H}
    (h : Kernel.new settings hierarchy = .ok k) : k.nextPayload = 0 := by
  unfold Kernel.new at h
  cases hc : settings.check with
  | error e =>
    rw [hc] at h
    cases h
  | ok u =>
    rw [hc] at h
    cases hr : Catalog.resolve (Pass.builtins : List (Pass H)) settings.passes with
    | error e =>
      simp only [Except.mapError, bind, Except.bind, hr] at h
      cases h
    | ok pipeline =>
      simp only [Except.mapError, bind, Except.bind, hr, pure, Except.pure, Except.ok.injEq] at h
      subst h
      rfl

theorem release_nextPayload (k : Kernel H) (p : Payload) : (k.release p).nextPayload = k.nextPayload := by
  unfold release
  split <;> rfl

theorem releaseAll_nextPayload (k : Kernel H) (ps : List Payload) : (k.releaseAll ps).nextPayload = k.nextPayload := by
  induction ps generalizing k with
  | nil => rfl
  | cons p ps ih => exact (ih (k.release p)).trans (release_nextPayload k p)

theorem record_nextPayload (k : Kernel H) (passes : List String) : (k.record passes).nextPayload = k.nextPayload := by
  unfold record
  dsimp only
  split <;> rfl

theorem record_cache (k : Kernel H) (passes : List String) : (k.record passes).cache = k.cache := by
  unfold record
  dsimp only
  split <;> rfl

theorem invalidate_cache (k : Kernel H) (doomed : CacheKey → Bool) :
    (k.invalidate doomed).1.cache = (k.cache.invalidate doomed).1 := releaseAll_cache _ _

theorem mem_of_invalidate (k : Kernel H) (doomed : CacheKey → Bool) {e : Cache.Entry CacheKey Payload}
    (h : e ∈ (k.invalidate doomed).1.cache.entries) : e ∈ k.cache.entries := by
  rw [invalidate_cache] at h
  exact Cache.mem_invalidate h

end Kernel

namespace Task

/-! ## Payloads of answers -/

/-- A payload that a task can be given without making it. -/
inductive Finds (k : Kernel H) (t : Task H) (p : Payload) : Prop
  /-- That of the key that it asks for, or of its compilation. -/
  | entry {key : CacheKey} {deadline? : Option Deadline} {production : Production}
      {e : Cache.Entry CacheKey Payload} (hg : t.goal = .ask key deadline? production) (he : e ∈ k.cache.entries)
      (hkey : e.key = key ∨ e.key = t.snapshot.compiledKey) (hp : e.value = p)
  /-- That of the flight that it has waited for. -/
  | landed {key : CacheKey} {flight : Nat} {deadline? : Option Deadline} {production : Production}
      (hg : t.goal = .wait key flight deadline? production) (hl : k.cache.landing flight = .landed (.ok p))
  | held (hg : t.goal = .answer (.ok p))

/-- How a task comes by a payload with a step, if it does. -/
inductive Obtained (k : Kernel H) (t : Task H) (k' : Kernel H) (progress : Progress H) : Prop
  | found (hn : k'.nextPayload = k.nextPayload)
      (hp : ∀ {t' p}, progress = .next t' → t'.goal = .answer (.ok p) → t.Finds k p)
  /-- The pipeline has completed. -/
  | compiled {r : Run H} {p : Payload} (hg : t.goal = .run r) (hn : k'.nextPayload = k.nextPayload + 1)
      (hid : p.id = k.nextPayload) (hp : progress = .next (t.answer (.ok p)))
  /-- A view has been made of the compilation that the task held. -/
  | viewed {p₀ p : Payload} {frames : List Frame} (hg : t.goal = .answer (.ok p₀))
      (hn : k'.nextPayload = k.nextPayload + 1) (hid : p.id = k.nextPayload)
      (hp : progress = .next ⟨t.snapshot, .answer (.ok p), frames⟩)

section
variable {k : Kernel H} {t : Task H} {key : CacheKey} {deadline? : Option Deadline} {production : Production}

theorem produce_obtained (hg : t.goal = .ask key deadline? production) {k' : Kernel H} {frames : List Frame}
    (hn : k'.nextPayload = k.nextPayload) (he : k'.cache.entries = k.cache.entries) :
    t.Obtained k (produce k' { t with frames } production).1 (.next (produce k' { t with frames } production).2) := by
  cases production with
  | compile raw => exact .found hn (by rintro t' p ⟨⟩ ⟨⟩)
  | view v params raw => exact .found hn (by rintro t' p ⟨⟩ ⟨⟩)
  | viewOfCached v params =>
    simp only [produce]
    rcases Cache.get_cases k'.cache t.snapshot.compiledKey with ⟨e, hfind, hget⟩ | ⟨-, hget⟩
    · simp only [hget]
      obtain ⟨hm, hkey⟩ := Cache.find?_eq_some hfind
      refine .found hn ?_
      rintro t' p ⟨⟩ ⟨⟩
      exact .entry hg (he ▸ hm) (.inr hkey) rfl
    · simp only [hget]
      exact .found hn (by rintro t' p ⟨⟩ ⟨⟩)

theorem ask_obtained (hg : t.goal = .ask key deadline? production) :
    t.Obtained k (ask k t key deadline? production).1 (.next (ask k t key deadline? production).2) := by
  unfold ask
  rcases Cache.enter_cases k.cache key with ⟨e, hfind, he⟩ | ⟨f, -, -, he⟩ | ⟨-, -, he⟩
  · simp only [he]
    obtain ⟨hm, hkey⟩ := Cache.find?_eq_some hfind
    refine .found rfl ?_
    rintro t' p ⟨⟩ ⟨⟩
    exact .entry hg hm (.inl hkey) rfl
  · simp only [he]
    exact .found rfl (by rintro t' p ⟨⟩ ⟨⟩)
  · simp only [he]
    exact produce_obtained hg rfl rfl

theorem run_obtained {r : Run H} (hg : t.goal = .run r) : t.Obtained k (run k t r).1 (run k t r).2 := by
  unfold run
  split
  · exact .found rfl (by rintro t' p ⟨⟩ ⟨⟩)
  · exact .found rfl (by rintro t' p ⟨⟩)
  · exact .found rfl (by rintro t' p ⟨⟩ ⟨⟩)
  · rename_i store transitions c _
    refine .compiled hg ?_ ?_ rfl
    · exact congrArg (· + 1) (Kernel.record_nextPayload _ _)
    · exact Kernel.record_nextPayload _ _

theorem materialize_obtained {p₀ : Payload} (hg : t.goal = .answer (.ok p₀)) (key : CacheKey) (v : View)
    (params : Params) (frames : List Frame) :
    t.Obtained k (materialize k p₀ key v params).1
      (.next ⟨t.snapshot, .answer (materialize k p₀ key v params).2, frames⟩) := by
  unfold materialize
  split
  · exact .found (Kernel.release_nextPayload k p₀) (by rintro t' p ⟨⟩ ⟨⟩)
  · split
    · exact .found (Kernel.release_nextPayload k p₀) (by rintro t' p ⟨⟩ ⟨⟩)
    · refine .viewed hg ?_ ?_ rfl
      · exact Kernel.release_nextPayload _ p₀
      · rfl

theorem land_nextPayload (k : Kernel H) (key : CacheKey) (flight : Nat) (res : Except KernelError Payload) :
    (land k key flight res).nextPayload = k.nextPayload := by
  unfold land
  cases res <;> exact Kernel.releaseAll_nextPayload _ _

theorem resume_obtained {res : Except KernelError Payload} (hg : t.goal = .answer res) (frame : Frame)
    (frames : List Frame) :
    t.Obtained k (resume k { t with frames } res frame).1 (.next (resume k { t with frames } res frame).2) := by
  cases frame with
  | expect kind key =>
    unfold resume
    cases res with
    | error e => exact .found rfl (by rintro t' p ⟨⟩ ⟨⟩)
    | ok p =>
      dsimp only
      split
      · refine .found rfl ?_
        rintro t' p' ⟨⟩ ⟨⟩
        exact .held hg
      · exact .found (Kernel.release_nextPayload k p) (by rintro t' p ⟨⟩ ⟨⟩)
  | materialize key v params =>
    unfold resume
    cases res with
    | error e => exact .found rfl (by rintro t' p ⟨⟩ ⟨⟩)
    | ok p => exact materialize_obtained hg key v params frames
  | land key flight =>
    refine .found (land_nextPayload k key flight res) ?_
    rintro t' p ⟨⟩ heq
    exact .held (hg.trans heq)
  | thenAsk key deadline? production =>
    unfold resume
    cases res with
    | error e => exact .found rfl (by rintro t' p ⟨⟩ ⟨⟩)
    | ok p => exact .found (Kernel.release_nextPayload k p) (by rintro t' p ⟨⟩ ⟨⟩)

theorem step_obtained (k : Kernel H) (t : Task H) : t.Obtained k (t.step k).1 (t.step k).2 := by
  unfold step
  cases hg : t.goal with
  | ask key deadline? production => exact ask_obtained hg
  | wait key flight deadline? production =>
    simp only [wait]
    cases hl : k.cache.landing flight with
    | running => exact .found rfl (by rintro t' p ⟨⟩)
    | landed res =>
      refine .found rfl ?_
      rintro t' p ⟨⟩ heq
      cases heq
      exact .landed hg hl
    | abandoned => exact .found rfl (by rintro t' p ⟨⟩ ⟨⟩)
  | run r => exact run_obtained hg
  | answer res =>
    cases ht : t.frames with
    | nil => exact .found rfl (by rintro t' p ⟨⟩)
    | cons frame frames => exact resume_obtained hg frame frames

/-! ## Entries -/

theorem mem_of_produce {e : Cache.Entry CacheKey Payload} (h : e ∈ (produce k t production).1.cache.entries) :
    e ∈ k.cache.entries := by
  cases production with
  | compile raw => exact h
  | view v params raw => exact h
  | viewOfCached v params =>
    simp only [produce] at h
    rcases Cache.get_cases k.cache t.snapshot.compiledKey with ⟨e, hfind, hget⟩ | ⟨-, hget⟩
    · simp only [hget] at h
      exact Cache.mem_hit (Cache.find?_eq_some hfind).1 h
    · simp only [hget] at h
      exact h

theorem materialize_cache (k : Kernel H) (p : Payload) (key : CacheKey) (v : View) (params : Params) :
    (materialize k p key v params).1.cache = k.cache := by
  unfold materialize
  split
  · exact Kernel.release_cache k p
  · split
    · exact Kernel.release_cache k p
    · exact Kernel.release_cache _ p

theorem entries_of_resume {res : Except KernelError Payload} {frame : Frame} {e : Cache.Entry CacheKey Payload}
    (h : e ∈ (resume k t res frame).1.cache.entries) :
    e ∈ k.cache.entries ∨ ∃ flight, res = .ok e.value ∧ frame = .land e.key flight := by
  cases frame with
  | expect kind key =>
    refine .inl ?_
    unfold resume at h
    cases res with
    | error e => exact h
    | ok p =>
      dsimp only at h
      split at h
      · exact h
      · exact Kernel.release_cache k p ▸ h
  | materialize key v params =>
    refine .inl ?_
    unfold resume at h
    cases res with
    | error e => exact h
    | ok p => exact materialize_cache k p key v params ▸ h
  | land key flight =>
    have hm : e ∈ (land k key flight res).cache.entries := h
    rw [land_cache] at hm
    rcases Cache.mem_finish hm with hm | ⟨rfl, hres⟩
    · exact .inl hm
    · exact .inr ⟨flight, hres, rfl⟩
  | thenAsk key deadline? production =>
    refine .inl ?_
    unfold resume at h
    cases res with
    | error e => exact h
    | ok p => exact Kernel.release_cache k p ▸ h

/-- Entries come in only when a flight lands. -/
theorem entries_of_step {e : Cache.Entry CacheKey Payload} (h : e ∈ (t.step k).1.cache.entries) :
    e ∈ k.cache.entries ∨
      ∃ flight frames, t.goal = .answer (.ok e.value) ∧ t.frames = .land e.key flight :: frames := by
  unfold step at h
  cases hg : t.goal with
  | ask key deadline? production =>
    refine .inl ?_
    simp only [hg, ask] at h
    rcases Cache.enter_cases k.cache key with ⟨e', hfind, he⟩ | ⟨f, -, -, he⟩ | ⟨-, -, he⟩
    · simp only [he] at h
      exact Cache.mem_hit (Cache.find?_eq_some hfind).1 h
    · simp only [he] at h
      exact h
    · simp only [he] at h
      have hm : e ∈ ({ k with cache := k.cache.takeOff key } : Kernel H).cache.entries := mem_of_produce h
      exact hm
  | wait key flight deadline? production =>
    refine .inl ?_
    simp only [hg, wait] at h
    split at h <;> exact h
  | run r =>
    refine .inl ?_
    simp only [hg, run] at h
    split at h
    · exact h
    · exact h
    · exact h
    · rename_i store transitions c _
      have hcache := Kernel.record_cache ({ k with store } : Kernel H) (t.snapshot.passes.map Pass.name)
      exact hcache ▸ h
  | answer res =>
    simp only [hg] at h
    cases ht : t.frames with
    | nil =>
      rw [ht] at h
      exact .inl h
    | cons frame frames =>
      rw [ht] at h
      refine (entries_of_resume h).imp_right ?_
      rintro ⟨flight, rfl, rfl⟩
      exact ⟨flight, frames, rfl, rfl⟩

end

end Task

/-! ## Acts -/

namespace Kernel.Shared

/-- By an act, a call that goes on makes a step. -/
def Steps (s : Shared H) (a : Act H) : Prop :=
  ∃ i request began t, a = .event (.step i) ∧ s.calls[i]? = some ⟨request, began, .going t⟩

/-- Payloads are made by steps of calls alone, and only these bring entries in. -/
theorem entries_of_act {s : Shared H} {a : Act H} (h : ¬ s.Steps a) :
    (s.act a).kernel.nextPayload = s.kernel.nextPayload ∧
      ∀ e ∈ (s.act a).kernel.cache.entries, e ∈ s.kernel.cache.entries := by
  cases a with
  | event e =>
    cases e with
    | call request =>
      simp only [act, next, call]
      split <;> exact ⟨rfl, fun _ => id⟩
    | step i =>
      simp only [act, next]
      split
      · rename_i request began t hi
        exact absurd ⟨i, request, began, t, rfl, hi⟩ h
      · exact ⟨rfl, fun _ => id⟩
    | giveUp i =>
      simp only [act, next]
      split
      · rename_i t _
        obtain ⟨waiting, hk⟩ := t.giveUp_kernel s.kernel
        rw [hk]
        exact ⟨rfl, fun _ => id⟩
      · exact ⟨rfl, fun _ => id⟩
    | drop i =>
      simp only [act, next]
      split
      · rename_i p _
        exact ⟨release_nextPayload s.kernel p, fun e he => release_cache s.kernel p ▸ he⟩
      · exact ⟨rfl, fun _ => id⟩
    | setPassList names =>
      simp only [act, next]
      split
      · rename_i kernel hk
        obtain ⟨pipeline, -, rfl⟩ := setPassList_eq hk
        exact ⟨rfl, fun _ => id⟩
      · exact ⟨rfl, fun _ => id⟩
    | replaceHierarchy hierarchy =>
      refine ⟨releaseAll_nextPayload _ _, fun e he => ?_⟩
      exact mem_of_invalidate { s.kernel with hierarchy } (fun _ => true) he
    | invalidateSource source =>
      exact ⟨releaseAll_nextPayload _ _, fun e he => mem_of_invalidate s.kernel (·.source = source) he⟩
  | registerPass pass =>
    simp only [act, registerPass]
    cases s.kernel.passes.addPass pass with
    | ok passes => exact ⟨rfl, fun _ => id⟩
    | error e => exact ⟨rfl, fun _ => id⟩
  | registerView view =>
    simp only [act, registerView]
    cases s.kernel.views.addView view with
    | ok views => exact ⟨rfl, fun _ => id⟩
    | error e => exact ⟨rfl, fun _ => id⟩

/-- No act changes how numbers are put into buckets. -/
theorem quantization_act (s : Shared H) (a : Act H) :
    (s.act a).kernel.store.quantization = s.kernel.store.quantization := by
  have h := s.act_reconfigures a
  generalize (s.act a).kernel = k at h ⊢
  cases h with
  | passAdded hp => rfl
  | viewAdded hv => rfl
  | listed hr => rfl
  | replaced hk => exact congrArg (·.2.2) hk
  | kept hk ha => exact congrArg (·.2.2) hk

/-- Flights land by steps of calls alone. -/
theorem landing_of_act {s : Shared H} {a : Act H} (h : ¬ s.Steps a) (f : Nat) :
    (s.act a).kernel.cache.landing f = s.kernel.cache.landing f := by
  have hchange := s.act_change a
  generalize (s.act a).kernel = k at hchange ⊢
  generalize (s.act a).calls = calls at hchange
  cases hchange with
  | still hk ha => rw [Cache.landing, hk.cache.flights, Cache.landing]
  | began ht => rfl
  | refused name => rfl
  | @stepped i request began t hi => exact absurd ⟨i, request, began, t, rfl, hi⟩ h
  | @gaveUp i request began t hi =>
    obtain ⟨waiting, hk⟩ := t.giveUp_kernel s.kernel
    rw [hk]
  | dropped hi => rw [release_cache]
  | invalidated doomed he hcache => rw [hcache, landing_invalidate]

/-- What has been hashed stays written down. -/
theorem hashed_act (s : Shared H) (a : Act H) {b : List UInt8} (h : b ∈ s.hashed) : b ∈ (s.act a).hashed := by
  cases a with
  | event e => exact hashed_next s e h
  | registerPass pass =>
    simp only [act]
    split <;> exact h
  | registerView view =>
    simp only [act]
    split <;> exact h

theorem hashed_play (s : Shared H) (acts : List (Act H)) {b : List UInt8} (h : b ∈ s.hashed) :
    b ∈ (s.play acts).hashed := by
  induction acts generalizing s with
  | nil => exact h
  | cons a acts ih => exact ih (s.act a) (hashed_act s a h)

end Kernel.Shared

end ConfigCompiler
