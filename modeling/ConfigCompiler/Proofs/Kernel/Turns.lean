import ConfigCompiler.Proofs.Cache.Growth
import ConfigCompiler.Proofs.Kernel.Sound

/-!
# What one step of a task can do

`Task.Turn` lists all that a step can do to a task, to the cache and to the number of compilations
(`Task.step_turn`). Most turns leave the cache with the slots, the flights and the keys that it had
(`Kernel.Still`); a leader's flight takes off at one turn, and at another it lands.
-/

namespace ConfigCompiler

variable {H : Type}

/-! ## What stays as it was -/

namespace Kernel

theorem release_compilations (k : Kernel H) (p : Payload) : (k.release p).compilations = k.compilations := by
  unfold release
  split <;> rfl

theorem releaseAll_compilations (k : Kernel H) (ps : List Payload) :
    (k.releaseAll ps).compilations = k.compilations := by
  induction ps generalizing k with
  | nil => rfl
  | cons p ps ih => exact (ih (k.release p)).trans (release_compilations k p)

/-- The cache keeps what it has, and no compilation was counted. -/
structure Still (k k' : Kernel H) : Prop where
  cache : k.cache.Keeps k'.cache
  compilations : k'.compilations = k.compilations

theorem Still.refl (k : Kernel H) : k.Still k := ⟨.refl _, rfl⟩

theorem Still.of_eq {k k' : Kernel H} (hc : k'.cache = k.cache) (hn : k'.compilations = k.compilations) :
    k.Still k' := by
  refine ⟨?_, hn⟩
  rw [hc]
  exact .refl _

theorem Still.release (k : Kernel H) (p : Payload) : k.Still (k.release p) :=
  .of_eq (release_cache k p) (release_compilations k p)

end Kernel

/-! ## Turns -/

/-- How a production begins: the goal, and the frames above the one that ends the flight. -/
inductive Production.Begun (s : Snapshot H) : Production → Goal H → List Frame → Prop
  | compile (raw : Value) : Begun s (.compile raw) (.run (.start s.passes raw)) []
  | view (v : View) (params : Params) (raw : Value) :
      Begun s (.view v params raw) (.ask s.compiledKey none (.compile raw))
        [.materialize s.compiledKey v params]
  | cached (v : View) (params : Params) (p : Payload) :
      Begun s (.viewOfCached v params) (.answer (.ok p)) [.materialize s.compiledKey v params]
  | missing (v : View) (params : Params) :
      Begun s (.viewOfCached v params) (.answer (.error (.notCompiled s.source))) []

namespace Task

/-- What the task compiles, and with which passes. -/
def subject (t : Task H) : Digest × Digest := (t.snapshot.source, t.snapshot.passSet)

/-- What the task has compiled when its pipeline completes with its next step. -/
def completes? (k : Kernel H) (t : Task H) : Option (Digest × Digest) :=
  match t.goal with
  | .run r =>
    match r.step (t.snapshot.premises k) k.store with
    | (_, .done _ (.ok _)) => some t.subject
    | _ => none
  | _ => none

theorem completes?_eq_none {k : Kernel H} {t : Task H} (h : ∀ r, t.goal ≠ .run r) : t.completes? k = none := by
  unfold completes?
  split
  · rename_i r hg
    exact absurd hg (h r)
  · rfl

/-- All that a step can do. -/
inductive Turn (k : Kernel H) (t : Task H) (k' : Kernel H) : Progress H → Prop
  /-- The cache has an entry. -/
  | found {key : CacheKey} {deadline? : Option Deadline} {production : Production} (p : Payload)
      (hg : t.goal = .ask key deadline? production) (hk : k.Still k') : Turn k t k' (.next (t.answer (.ok p)))
  | joined {key : CacheKey} {deadline? : Option Deadline} {production : Production} (flight : Nat)
      (hg : t.goal = .ask key deadline? production) (hk : k.Still k') :
      Turn k t k' (.next (t.toward (.wait key flight deadline? production)))
  /-- A flight takes off, and the task leads it. -/
  | led {key : CacheKey} {deadline? : Option Deadline} {production : Production} {goal : Goal H}
      {frames : List Frame} (hg : t.goal = .ask key deadline? production)
      (hkey : k.cache.contains key = false) (hslot : ∀ f, (key, f) ∉ k.cache.slots)
      (hb : production.Begun t.snapshot goal frames)
      (hk : ({ k with cache := k.cache.takeOff key } : Kernel H).Still k') :
      Turn k t k' (.next ⟨t.snapshot, goal, frames ++ .land key k.cache.flights.size :: t.frames⟩)
  | blocked {key : CacheKey} {flight : Nat} {deadline? : Option Deadline} {production : Production}
      (hg : t.goal = .wait key flight deadline? production) (hl : k.cache.landing flight = .running)
      (hk : k' = k) : Turn k t k' (.blocked t)
  /-- The flight that the task waited for has landed. -/
  | woken {key : CacheKey} {flight : Nat} {deadline? : Option Deadline} {production : Production}
      {res : Except KernelError Payload} (hg : t.goal = .wait key flight deadline? production)
      (hl : k.cache.landing flight = .landed res) (hk : k.Still k') : Turn k t k' (.next (t.answer res))
  | retried {key : CacheKey} {flight : Nat} {deadline? : Option Deadline} {production : Production}
      (hg : t.goal = .wait key flight deadline? production) (hl : k.cache.landing flight = .abandoned)
      (hk : k.Still k') : Turn k t k' (.next (t.toward (.ask key deadline? production)))
  | ran {r r' : Run H} {pass : Pass H} (hg : t.goal = .run r) (hr : r.rest = pass :: r'.rest)
      (hc : t.completes? k = none) (hk : k.Still k') : Turn k t k' (.next (t.toward (.run r')))
  | hooked {r r' : Run H} {pass : Pass H} (name : String) (h : H) (hg : t.goal = .run r)
      (hr : r.rest = pass :: r'.rest) (hc : t.completes? k = none) (hk : k.Still k') :
      Turn k t k' (.hook name h (t.toward (.run r')))
  | failed {r : Run H} (failure : PassFailure) (hg : t.goal = .run r) (hc : t.completes? k = none)
      (hk : k.Still k') : Turn k t k' (.next (t.answer (.error (.pipeline failure))))
  /-- The pipeline has completed. -/
  | compiled {r : Run H} (p : Payload) (hg : t.goal = .run r) (hc : t.completes? k = some t.subject)
      (hk : ({ k with compilations := k.compilations + 1 } : Kernel H).Still k') :
      Turn k t k' (.next (t.answer (.ok p)))
  /-- A frame that ends no flight takes the answer, and does not make up that a deadline has passed. -/
  | handed {res : Except KernelError Payload} {frame : Frame} {frames : List Frame}
      (res' : Except KernelError Payload) (hg : t.goal = .answer res) (ht : t.frames = frame :: frames)
      (hframe : ∀ key flight, frame ≠ .land key flight)
      (hres : res' = .error .waitTimedOut → res = .error .waitTimedOut) (hk : k.Still k') :
      Turn k t k' (.next ⟨t.snapshot, .answer res', frames⟩)
  /-- The flight that the task leads lands. -/
  | landed {res : Except KernelError Payload} {key : CacheKey} {flight : Nat} {frames : List Frame}
      (hg : t.goal = .answer res) (ht : t.frames = .land key flight :: frames)
      (hk : ({ k with cache := (k.cache.finish key flight res).1 } : Kernel H).Still k') :
      Turn k t k' (.next ⟨t.snapshot, .answer res, frames⟩)
  | asked {p : Payload} {key : CacheKey} {deadline? : Option Deadline} {production : Production}
      {frames : List Frame} (hg : t.goal = .answer (.ok p))
      (ht : t.frames = .thenAsk key deadline? production :: frames) (hk : k.Still k') :
      Turn k t k' (.next ⟨t.snapshot, .ask key deadline? production, frames⟩)
  | done {res : Except KernelError Payload} (hg : t.goal = .answer res) (ht : t.frames = []) (hk : k' = k) :
      Turn k t k' (.done res)

end Task

section
variable {k k' : Kernel H} {t t' : Task H} {key : CacheKey} {deadline? : Option Deadline}
variable {production : Production}

theorem produce_begun (k : Kernel H) (t : Task H) (production : Production) :
    k.Still (Task.produce k t production).1 ∧ ∃ goal frames, production.Begun t.snapshot goal frames ∧
      (Task.produce k t production).2 = ⟨t.snapshot, goal, frames ++ t.frames⟩ := by
  cases production with
  | compile raw => exact ⟨.refl k, _, _, .compile raw, rfl⟩
  | view v params raw => exact ⟨.refl k, _, _, .view v params raw, rfl⟩
  | viewOfCached v params =>
    have hkeeps := Cache.keeps_get k.cache t.snapshot.compiledKey
    simp only [Task.produce]
    rcases Cache.get_cases k.cache t.snapshot.compiledKey with ⟨e, -, hget⟩ | ⟨-, hget⟩
    · rw [hget] at hkeeps
      simp only [hget]
      exact ⟨⟨hkeeps, rfl⟩, _, _, .cached v params e.value, rfl⟩
    · simp only [hget]
      exact ⟨.refl k, _, _, .missing v params, rfl⟩

theorem ask_turn (hg : t.goal = .ask key deadline? production) :
    Task.Turn k t (Task.ask k t key deadline? production).1
      (.next (Task.ask k t key deadline? production).2) := by
  unfold Task.ask
  rcases Cache.enter_cases k.cache key with ⟨e, hfind, he⟩ | ⟨f, -, -, he⟩ | ⟨hfind, hslot, he⟩
  · simp only [he]
    exact .found e.value hg ⟨.hit (Cache.find?_eq_some hfind).1, rfl⟩
  · simp only [he]
    exact .joined f hg (.of_eq rfl rfl)
  · simp only [he]
    obtain ⟨hk, goal, frames, hb, ht⟩ := produce_begun
      ({ k with cache := k.cache.takeOff key } : Kernel H)
      { t with frames := .land key k.cache.flights.size :: t.frames } production
    change Task.Turn k t (Task.produce { k with cache := k.cache.takeOff key } _ production).1
      (.next (Task.produce { k with cache := k.cache.takeOff key } _ production).2)
    rw [ht]
    exact .led hg (by simp [Cache.contains, hfind]) hslot hb hk

theorem wait_turn {flight : Nat} (hg : t.goal = .wait key flight deadline? production) :
    Task.Turn k t (Task.wait k t key flight deadline? production).1
      (Task.wait k t key flight deadline? production).2 := by
  unfold Task.wait
  cases hl : k.cache.landing flight with
  | running => exact .blocked hg hl rfl
  | landed res => exact .woken hg hl ⟨⟨rfl, rfl, rfl, fun _ => rfl, Nat.le_refl _, rfl⟩, rfl⟩
  | abandoned => exact .retried hg hl (.of_eq rfl rfl)

/-- A run goes on with one pass less. -/
theorem rest_of_next {given : Premises} {s s' : Store} {r r' : Run H}
    (h : r.step given s = (s', .next r')) : ∃ pass, r.rest = pass :: r'.rest := by
  unfold Run.step at h
  split at h
  · split at h <;> cases h
  · rename_i pass rest hrest
    dsimp only at h
    split at h
    · cases h
    · split at h
      · cases h
        exact ⟨pass, hrest⟩
      · cases h

theorem rest_of_hook {given : Premises} {s s' : Store} {r r' : Run H} {name : String} {h : H}
    (hstep : r.step given s = (s', .hook name h r')) : ∃ pass, r.rest = pass :: r'.rest := by
  unfold Run.step at hstep
  split at hstep
  · split at hstep <;> cases hstep
  · rename_i pass rest hrest
    dsimp only at hstep
    split at hstep
    · cases hstep
      exact ⟨pass, hrest⟩
    · split at hstep <;> cases hstep

theorem run_turn {r : Run H} (hg : t.goal = .run r) : Task.Turn k t (Task.run k t r).1 (Task.run k t r).2 := by
  have hcompletes : t.completes? k = match r.step (t.snapshot.premises k) k.store with
      | (_, .done _ (.ok _)) => some t.subject
      | _ => none := by
    unfold Task.completes?
    rw [hg]
  unfold Task.run
  cases hstep : r.step (t.snapshot.premises k) k.store with | mk store progress =>
  rw [hstep] at hcompletes
  cases progress with
  | next r' =>
    obtain ⟨pass, hr⟩ := rest_of_next hstep
    exact .ran hg hr hcompletes (.of_eq rfl rfl)
  | hook name h r' =>
    obtain ⟨pass, hr⟩ := rest_of_hook hstep
    exact .hooked name h hg hr hcompletes (.of_eq rfl rfl)
  | done transitions result =>
    cases result with
    | error failure => exact .failed failure hg hcompletes (.of_eq rfl rfl)
    | ok c =>
      refine .compiled _ hg hcompletes (.of_eq ?_ ?_)
      · simp only [Kernel.record, Kernel.wrap]
        split <;> rfl
      · simp only [Kernel.record, Kernel.wrap]
        split <;> rfl

theorem materialize_still (k : Kernel H) (p : Payload) (key : CacheKey) (v : View) (params : Params) :
    k.Still (Task.materialize k p key v params).1 ∧
      (Task.materialize k p key v params).2 ≠ .error .waitTimedOut := by
  unfold Task.materialize
  split
  · exact ⟨.release k p, by simp [Payload.mismatch]⟩
  · split
    · exact ⟨.release k p, by simp⟩
    · refine ⟨.of_eq ?_ ?_, by simp⟩
      · exact Kernel.release_cache _ p
      · exact Kernel.release_compilations _ p

theorem resume_turn {res : Except KernelError Payload} {frame : Frame} {frames : List Frame}
    (hg : t.goal = .answer res) (ht : t.frames = frame :: frames) :
    Task.Turn k t (Task.resume k { t with frames } res frame).1
      (.next (Task.resume k { t with frames } res frame).2) := by
  cases frame with
  | expect kind key =>
    unfold Task.resume
    cases res with
    | error e => exact .handed _ hg ht (by simp) id (.refl k)
    | ok p =>
      dsimp only
      split
      · exact .handed _ hg ht (by simp) (by simp) (.refl k)
      · exact .handed _ hg ht (by simp) (by simp [Payload.mismatch]) (.release k p)
  | materialize key v params =>
    unfold Task.resume
    cases res with
    | error e => exact .handed _ hg ht (by simp) id (.refl k)
    | ok p =>
      obtain ⟨hk, hres⟩ := materialize_still k p key v params
      exact .handed _ hg ht (by simp) (fun h => absurd h hres) hk
  | land key flight =>
    refine .landed hg ht ?_
    change Kernel.Still _ (Task.land k key flight res)
    rw [Kernel.land_eq]
    refine .of_eq (Kernel.releaseAll_cache _ _) ((Kernel.releaseAll_compilations _ _).trans ?_)
    cases res <;> rfl
  | thenAsk key deadline? production =>
    unfold Task.resume
    cases res with
    | error e => exact .handed _ hg ht (by simp) id (.refl k)
    | ok p => exact .asked hg ht (.release k p)

theorem Task.step_turn (k : Kernel H) (t : Task H) : t.Turn k (t.step k).1 (t.step k).2 := by
  unfold Task.step
  cases hg : t.goal with
  | ask key deadline? production => exact ask_turn hg
  | wait key flight deadline? production => exact wait_turn hg
  | run r => exact run_turn hg
  | answer res =>
    cases ht : t.frames with
    | nil => exact .done hg ht rfl
    | cons frame frames => exact resume_turn hg ht

theorem Task.land_cache (k : Kernel H) (key : CacheKey) (flight : Nat) (res : Except KernelError Payload) :
    (Task.land k key flight res).cache = (k.cache.finish key flight res).1 := by
  rw [Kernel.land_eq, Kernel.releaseAll_cache]

/-- Who leads a flight lands it with the answer. -/
theorem Task.step_land {res : Except KernelError Payload} {flight : Nat} {frames : List Frame}
    (hg : t.goal = .answer res) (ht : t.frames = .land key flight :: frames) :
    t.step k = (Task.land k key flight res, .next ⟨t.snapshot, .answer res, frames⟩) := by
  simp only [Task.step, hg, ht, Task.resume, Task.answer, Task.toward]

/-- Who asks for a compilation that is neither cached nor in flight leads a flight. -/
theorem Task.step_leads {raw : Value} (hg : t.goal = .ask key deadline? (.compile raw))
    (hfind : k.cache.find? key = none) (hslot : k.cache.slots.lookup key = none) :
    t.step k = ({ k with cache := k.cache.takeOff key }, .next ⟨t.snapshot, .run (.start t.snapshot.passes raw),
      .land key k.cache.flights.size :: t.frames⟩) := by
  simp [Task.step, hg, Task.ask, Cache.enter, hfind, hslot, Task.produce, Task.toward, Cache.takeOff]

/-- Who asks for a view that is neither cached nor in flight leads a flight, and asks for the compilation. -/
theorem Task.step_leads_view {v : View} {params : Params} {raw : Value}
    (hg : t.goal = .ask key deadline? (.view v params raw)) (hfind : k.cache.find? key = none)
    (hslot : k.cache.slots.lookup key = none) :
    t.step k = ({ k with cache := k.cache.takeOff key }, .next ⟨t.snapshot,
      .ask t.snapshot.compiledKey none (.compile raw),
      .materialize t.snapshot.compiledKey v params :: .land key k.cache.flights.size :: t.frames⟩) := by
  simp [Task.step, hg, Task.ask, Cache.enter, hfind, hslot, Task.produce, Cache.takeOff]

/-- Who asks for what is in flight waits for it. -/
theorem Task.step_joins {f : Nat} (hg : t.goal = .ask key deadline? production)
    (hfind : k.cache.find? key = none) (hslot : k.cache.slots.lookup key = some f) :
    (t.step k).1.cache.flights = k.cache.flights ∧
      (t.step k).2 = .next (t.toward (.wait key f deadline? production)) := by
  simp [Task.step, hg, Task.ask, Cache.enter, hfind, hslot]

/-- What a turn does to the cache. -/
theorem Task.Turn.cache {progress : Task.Progress H} (h : t.Turn k k' progress) :
    k.cache.Keeps k'.cache ∨ (∃ key, (k.cache.takeOff key).Keeps k'.cache) ∨
      ∃ key flight res, (k.cache.finish key flight res).1.Keeps k'.cache := by
  cases h with
  | found p hg hk => exact .inl hk.cache
  | joined flight hg hk => exact .inl hk.cache
  | @led key deadline? production goal frames hg hkey hslot hb hk => exact .inr (.inl ⟨key, hk.cache⟩)
  | blocked hg hl hk =>
    rw [hk]
    exact .inl (.refl _)
  | woken hg hl hk => exact .inl hk.cache
  | retried hg hl hk => exact .inl hk.cache
  | ran hg hr hc hk => exact .inl hk.cache
  | hooked name hook hg hr hc hk => exact .inl hk.cache
  | failed failure hg hc hk => exact .inl hk.cache
  | compiled p hg hc hk => exact .inl hk.cache
  | handed res' hg ht hframe hres hk => exact .inl hk.cache
  | @landed res key flight frames hg ht hk => exact .inr (.inr ⟨key, flight, res, hk.cache⟩)
  | asked hg ht hk => exact .inl hk.cache
  | done hg ht hk =>
    rw [hk]
    exact .inl (.refl _)

/-! ## Giving up -/

/-- Only who waits with a deadline for a running flight can give up. -/
theorem Task.giveUp_cases (k : Kernel H) (t : Task H) :
    (∃ key flight deadline production, t.goal = .wait key flight (some deadline) production ∧
      k.cache.landing flight = .running ∧
      t.giveUp k = (Task.stopWaiting k flight, t.answer (.error .waitTimedOut))) ∨ t.giveUp k = (k, t) := by
  unfold Task.giveUp
  split
  · rename_i key flight deadline production hg
    split
    · rename_i hrunning
      exact .inl ⟨key, flight, deadline, production, hg, hrunning, rfl⟩
    · exact .inr rfl
    · exact .inr rfl
  · exact .inr rfl

/-- All that giving up does to the kernel is that one caller less waits. -/
theorem Task.giveUp_kernel (k : Kernel H) (t : Task H) : ∃ waiting, (t.giveUp k).1 = { k with waiting } := by
  rcases t.giveUp_cases k with ⟨key, flight, deadline, production, -, -, heq⟩ | heq
  · rw [heq]
    exact ⟨_, rfl⟩
  · rw [heq]
    exact ⟨k.waiting, rfl⟩

end

end ConfigCompiler
