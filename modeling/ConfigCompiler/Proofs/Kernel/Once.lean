import ConfigCompiler.Proofs.Kernel.Acts

/-!
# Each configuration is compiled once

While the cache drops nothing, what has been compiled is cached, or a flight is about to land with it; and
whoever compiles leads the flight of the compilation's key, of which there is only one. So no pipeline
completes twice for a source and a pass set (`Once`, kept by every act: `Once.play`), and the compilations
counted are the different ones (`Shared.compiles_once`). Nothing is assumed about what is hashed.
-/

namespace ConfigCompiler

variable {H : Type}

/-! ## What tasks lead and seek -/

/-- The slot of the flight that a frame ends. -/
def Frame.slot? : Frame → Option (CacheKey × Nat)
  | .land key flight => some (key, flight)
  | _ => none

/-- A compilation is produced under the key of what a snapshot is about. -/
def Production.Under (s : Snapshot H) (key : CacheKey) (production : Production) : Prop :=
  ∀ raw, production = .compile raw → key = s.compiledKey

/-- A pipeline is run only by who leads the flight of its compilation. -/
def Goal.Aimed (s : Snapshot H) (frames : List Frame) : Goal H → Prop
  | .ask key _ production => production.Under s key
  | .wait key _ _ production => production.Under s key
  | .run _ => ∃ flight rest, frames = .land s.compiledKey flight :: rest
  | .answer _ => True

def Frame.Aimed (s : Snapshot H) : Frame → Prop
  | .thenAsk key _ production => production.Under s key
  | _ => True

namespace Task

/-- The slots of the flights that the task leads. -/
def led (t : Task H) : List (CacheKey × Nat) := t.frames.filterMap Frame.slot?

/-- The task is about to land a flight with a payload. -/
def Lands (t : Task H) (key : CacheKey) : Prop :=
  ∃ p flight frames, t.goal = .answer (.ok p) ∧ t.frames = .land key flight :: frames

/-- The payload that the task lands a flight with is too heavy to be kept. -/
def Refused (k : Kernel H) (t : Task H) : Prop :=
  ∃ p key flight frames, t.goal = .answer (.ok p) ∧ t.frames = .land key flight :: frames ∧
    Cache.admittedWeight k.cache.capacity p = none

structure Aimed (t : Task H) : Prop where
  goal : t.goal.Aimed t.snapshot t.frames
  later : ∀ frame ∈ t.frames, frame.Aimed t.snapshot

end Task

namespace Kernel.Stage

def led : Stage H → List (CacheKey × Nat)
  | going t => t.led
  | done _ _ => []

def Lands (stage : Stage H) (key : CacheKey) : Prop :=
  match stage with
  | going t => t.Lands key
  | done _ _ => False

def Aimed : Stage H → Prop
  | going t => t.Aimed
  | done _ _ => True

end Kernel.Stage

section
variable {k k' : Kernel H} {t : Task H} {key : CacheKey}

theorem Task.compiled_subject (t : Task H) :
    CacheKey.compiled t.subject.1 t.subject.2 = t.snapshot.compiledKey := rfl

theorem Kernel.Quiet.led (h : Kernel.Quiet t.frames) : t.led = [] := by
  refine List.filterMap_eq_nil_iff.2 ?_
  intro frame hm
  cases frame with
  | land key flight => exact absurd hm (h key flight)
  | _ => rfl

theorem Kernel.Stage.Lands.mem_led {stage : Kernel.Stage H} (h : stage.Lands key) :
    ∃ flight, (key, flight) ∈ stage.led := by
  cases stage with
  | going t =>
    obtain ⟨p, flight, frames, -, ht⟩ := h
    refine ⟨flight, List.mem_filterMap.2 ⟨.land key flight, ?_, rfl⟩⟩
    rw [ht]
    exact List.mem_cons_self
  | done res kept => cases h

theorem Task.not_lands (h : ∀ p, t.goal ≠ .answer (.ok p)) : ¬ t.Lands key := by
  intro ⟨p, flight, frames, hg, _⟩
  exact h p hg

section
variable {frame : Frame} {frames : List Frame}

theorem Task.not_lands_pop (ht : t.frames = frame :: frames) (hframe : ∀ key flight, frame ≠ .land key flight) :
    ¬ t.Lands key := by
  intro ⟨p, flight, frames', _, ht'⟩
  exact hframe key flight (List.cons.inj (ht.symm.trans ht')).1

/-- A frame that ends no flight is taken off. -/
theorem Task.led_pop (ht : t.frames = frame :: frames) (hframe : ∀ key flight, frame ≠ .land key flight) :
    t.led = frames.filterMap Frame.slot? := by
  rw [Task.led, ht]
  cases frame with
  | land key flight => exact absurd rfl (hframe key flight)
  | _ => rfl

end

/-- The next frame is taken off. -/
theorem Task.Aimed.pop (h : t.Aimed) {frame : Frame} {frames : List Frame} (ht : t.frames = frame :: frames)
    (res : Except KernelError Payload) : Task.Aimed ⟨t.snapshot, .answer res, frames⟩ where
  goal := trivial
  later frame' hm := h.later frame' (ht ▸ List.mem_cons_of_mem _ hm)

theorem Task.Aimed.lead (h : t.Aimed) {production : Production} {goal : Goal H} {frames : List Frame}
    (hb : production.Begun t.snapshot goal frames) (hunder : production.Under t.snapshot key) (flight : Nat) :
    Task.Aimed ⟨t.snapshot, goal, frames ++ .land key flight :: t.frames⟩ := by
  cases hb with
  | compile raw =>
    refine ⟨⟨flight, t.frames, ?_⟩, List.forall_mem_cons.2 ⟨trivial, h.later⟩⟩
    rw [hunder raw rfl, List.nil_append]
  | view v params raw =>
    exact ⟨fun raw' _ => rfl, List.forall_mem_cons.2 ⟨trivial, List.forall_mem_cons.2 ⟨trivial, h.later⟩⟩⟩
  | cached v params p =>
    exact ⟨trivial, List.forall_mem_cons.2 ⟨trivial, List.forall_mem_cons.2 ⟨trivial, h.later⟩⟩⟩
  | missing v params => exact ⟨trivial, List.forall_mem_cons.2 ⟨trivial, h.later⟩⟩

theorem Task.Aimed.turn (h : t.Aimed) {progress : Task.Progress H} (hturn : t.Turn k k' progress) :
    (Kernel.Stage.ofProgress progress).Aimed := by
  have hgoal := h.goal
  cases hturn with
  | found p hg hk => exact ⟨trivial, h.later⟩
  | joined flight hg hk =>
    rw [hg] at hgoal
    exact ⟨hgoal, h.later⟩
  | led hg hkey hslot hb hk =>
    rw [hg] at hgoal
    exact h.lead hb hgoal _
  | blocked hg hl hk => exact h
  | woken hg hl hk => exact ⟨trivial, h.later⟩
  | retried hg hl hk =>
    rw [hg] at hgoal
    exact ⟨hgoal, h.later⟩
  | ran hg hr hc hk =>
    rw [hg] at hgoal
    exact ⟨hgoal, h.later⟩
  | hooked name hook hg hr hc hk =>
    rw [hg] at hgoal
    exact ⟨hgoal, h.later⟩
  | failed failure hg hc hk => exact ⟨trivial, h.later⟩
  | compiled p hg hc hk => exact ⟨trivial, h.later⟩
  | handed res' hg ht hframe hres hk => exact h.pop ht _
  | landed hg ht hk => exact h.pop ht _
  | asked hg ht hk =>
    have hlater := h.later
    rw [ht] at hlater
    obtain ⟨hask, hlater⟩ := List.forall_mem_cons.1 hlater
    exact ⟨hask, hlater⟩
  | done hg ht hk => trivial

theorem Request.Opens.aimed {r : Request} (h : r.Opens k t) : t.Aimed := by
  cases h with
  | compile raw => exact ⟨fun raw' _ => rfl, by simp [Frame.Aimed]⟩
  | query name v params raw deadline? key =>
    refine ⟨?_, by simp [Task.forView, Frame.Aimed]⟩
    intro raw' hp
    cases hp
  | queryUntil name v params raw deadline? key =>
    exact ⟨fun raw' _ => rfl, by simp [Frame.Aimed, Production.Under]⟩
  | queryCompiled name v params source key =>
    refine ⟨?_, by simp [Task.forView, Frame.Aimed]⟩
    intro raw' hp
    cases hp

end

/-! ## Compilations that have completed -/

namespace Kernel

/-- A payload has an entry, or a caller is about to land with it. -/
def Provides (k : Kernel H) (calls : List (Call H)) (key : CacheKey) : Prop :=
  k.cache.contains key = true ∨ ∃ c ∈ calls, c.stage.Lands key

/--
Each slot is led by one caller and has no entry; what has been compiled, all of it different, has an entry or is
about to land.
-/
structure Once (log : List (Digest × Digest)) (k : Kernel H) (calls : List (Call H)) : Prop where
  aimed : ∀ c ∈ calls, c.stage.Aimed
  exclusive : k.cache.Exclusive
  led : (calls.flatMap (·.stage.led)).Perm k.cache.slots
  logged : ∀ d ∈ log, k.Provides calls (.compiled d.1 d.2)
  nodup : log.Nodup
  count : k.compilations = log.length

section
variable {log : List (Digest × Digest)} {k k' : Kernel H} {calls calls' others : List (Call H)}
variable {request : Request} {began : Snapshot H} {stage stage' : Stage H} {t : Task H} {key : CacheKey}

theorem Provides.mono (h : k.Provides calls key) (hc : ∀ c ∈ calls, c ∈ calls') : k.Provides calls' key := by
  refine h.imp_right ?_
  intro ⟨c, hm, hl⟩
  exact ⟨c, hc c hm, hl⟩

/-- One call changes. -/
theorem Provides.replace (h : k.Provides (⟨request, began, stage⟩ :: others) key)
    (hk : k.cache.contains key = true → k'.cache.contains key = true)
    (hl : stage.Lands key → k'.cache.contains key = true ∨ stage'.Lands key) :
    k'.Provides (⟨request, began, stage'⟩ :: others) key := by
  rcases h with hc | ⟨c, hc, hl'⟩
  · exact .inl (hk hc)
  · rcases List.mem_cons.1 hc with rfl | hc
    · exact (hl hl').imp_right fun hl => ⟨_, List.mem_cons_self, hl⟩
    · exact .inr ⟨c, List.mem_cons_of_mem _ hc, hl'⟩

theorem Once.perm (h : Once log k calls) (hp : calls.Perm calls') : Once log k calls' where
  aimed c hc := h.aimed c (hp.mem_iff.2 hc)
  exclusive := h.exclusive
  led := (hp.flatMap_right _).symm.trans h.led
  logged d hd := (h.logged d hd).mono fun _ => hp.mem_iff.1
  nodup := h.nodup
  count := h.count

theorem Once.change (h : Once log k calls) (hk : k.Still k') : Once log k' calls where
  aimed := h.aimed
  exclusive := h.exclusive.keeps hk.cache
  led := by
    rw [hk.cache.slots]
    exact h.led
  logged d hd := by
    rw [Provides, hk.cache.contains]
    exact h.logged d hd
  nodup := h.nodup
  count := hk.compilations.trans h.count

/-- A call goes on without taking off or landing. -/
theorem Once.replace (h : Once log k (⟨request, began, stage⟩ :: others)) (haimed : stage'.Aimed)
    (hled : stage'.led = stage.led) (hlands : ∀ {key}, stage.Lands key → stage'.Lands key) :
    Once log k (⟨request, began, stage'⟩ :: others) where
  aimed := List.forall_mem_cons.2 ⟨haimed, (List.forall_mem_cons.1 h.aimed).2⟩
  exclusive := h.exclusive
  led := by
    rw [List.flatMap_cons, hled]
    exact h.led
  logged d hd := (h.logged d hd).replace id fun hl => .inr (hlands hl)
  nodup := h.nodup
  count := h.count

theorem Once.call (h : Once log k calls) (haimed : stage.Aimed) (hled : stage.led = []) :
    Once log k (⟨request, began, stage⟩ :: calls) where
  aimed := List.forall_mem_cons.2 ⟨haimed, h.aimed⟩
  exclusive := h.exclusive
  led := by
    rw [List.flatMap_cons, hled]
    exact h.led
  logged d hd := (h.logged d hd).mono fun _ => List.mem_cons_of_mem _
  nodup := h.nodup
  count := h.count

/-- Nobody has compiled, or is compiling, what a caller leads a flight for. -/
theorem Once.not_provides (h : Once log k (⟨request, began, stage⟩ :: others)) {f : Nat}
    (hm : (key, f) ∈ stage.led) (hno : ¬ stage.Lands key) :
    ¬ k.Provides (⟨request, began, stage⟩ :: others) key := by
  have hslot : (key, f) ∈ k.cache.slots := h.led.mem_iff.1 (List.mem_append_left _ hm)
  intro hprovides
  rcases hprovides with hc | ⟨c, hc, hl⟩
  · exact absurd (hc.symm.trans (h.exclusive.free hslot)) (by simp)
  · rcases List.mem_cons.1 hc with rfl | hc
    · exact hno hl
    · obtain ⟨f', hm'⟩ := hl.mem_led
      have hother : (key, f') ∈ others.flatMap (·.stage.led) := List.mem_flatMap.2 ⟨c, hc, hm'⟩
      have hslot' : (key, f') ∈ k.cache.slots := h.led.mem_iff.1 (List.mem_append_right _ hother)
      cases h.exclusive.slot_unique hslot hslot'
      have hnodup : (stage.led ++ others.flatMap (·.stage.led)).Nodup := h.led.nodup_iff.2 h.exclusive.nodup
      exact List.disjoint_of_nodup_append hnodup hm hother

/-- A flight takes off. -/
theorem Once.takeOff (h : Once log k (⟨request, began, .going t⟩ :: others)) {deadline? : Option Deadline}
    {production : Production} {goal : Goal H} {frames : List Frame}
    (hg : t.goal = .ask key deadline? production) (hkey : k.cache.contains key = false)
    (hslot : ∀ f, (key, f) ∉ k.cache.slots) (hb : production.Begun t.snapshot goal frames) :
    Once log { k with cache := k.cache.takeOff key } (⟨request, began,
      .going ⟨t.snapshot, goal, frames ++ .land key k.cache.flights.size :: t.frames⟩⟩ :: others) := by
  obtain ⟨haimed, hothers⟩ := List.forall_mem_cons.1 h.aimed
  refine ⟨List.forall_mem_cons.2 ⟨?_, hothers⟩, h.exclusive.takeOff hkey hslot, ?_, ?_, h.nodup, h.count⟩
  · have hgoal := haimed.goal
    rw [hg] at hgoal
    exact haimed.lead hb hgoal _
  · have hframes : frames.filterMap Frame.slot? = [] := by cases hb <;> rfl
    change ((frames ++ .land key k.cache.flights.size :: t.frames).filterMap Frame.slot? ++ _).Perm
      ((key, k.cache.flights.size) :: k.cache.slots)
    rw [List.filterMap_append, hframes, List.nil_append]
    exact h.led.cons _
  · intro d hd
    exact (h.logged d hd).replace id fun hl => absurd hl (Task.not_lands (by simp [hg]))

/-- A pipeline completes: nothing has been compiled for its source and pass set before. -/
theorem Once.compiled (h : Once log k (⟨request, began, .going t⟩ :: others)) {r : Run H}
    (hg : t.goal = .run r) (p : Payload) :
    Once (log ++ [t.subject]) { k with compilations := k.compilations + 1 }
      (⟨request, began, .going (t.answer (.ok p))⟩ :: others) := by
  obtain ⟨haimed, hothers⟩ := List.forall_mem_cons.1 h.aimed
  have hno {key : CacheKey} : ¬ (Stage.going t).Lands key := Task.not_lands (by simp [hg])
  -- the task leads the flight of what it has compiled
  have hgoal := haimed.goal
  rw [hg] at hgoal
  obtain ⟨flight, rest, ht⟩ := hgoal
  have hled : (t.snapshot.compiledKey, flight) ∈ (Stage.going t).led :=
    List.mem_filterMap.2 ⟨.land t.snapshot.compiledKey flight, ht ▸ List.mem_cons_self, rfl⟩
  have hnew : t.subject ∉ log := by
    intro hm
    have hprovides := h.logged _ hm
    rw [Task.compiled_subject] at hprovides
    exact h.not_provides hled hno hprovides
  refine ⟨List.forall_mem_cons.2 ⟨⟨trivial, haimed.later⟩, hothers⟩, h.exclusive, h.led, ?_, ?_, ?_⟩
  · intro d hd
    rcases List.mem_append.1 hd with hd | hd
    · exact (h.logged d hd).replace id fun hl => absurd hl hno
    · rw [List.mem_singleton.1 hd, Task.compiled_subject]
      exact .inr ⟨_, List.mem_cons_self, p, flight, rest, rfl, ht⟩
  · exact List.nodup_append_comm.1 (List.nodup_cons.2 ⟨hnew, h.nodup⟩)
  · rw [List.length_append, ← h.count]
    rfl

/-- A flight lands: its payload comes into the cache, and nothing is dropped for it. -/
theorem Once.landed (h : Once log k (⟨request, began, .going t⟩ :: others)) {res : Except KernelError Payload}
    {flight : Nat} {frames : List Frame} (hg : t.goal = .answer res) (ht : t.frames = .land key flight :: frames)
    (hevict : (k.cache.finish key flight res).1.evictions = k.cache.evictions) (hadmitted : ¬ t.Refused k) :
    Once log { k with cache := (k.cache.finish key flight res).1 }
      (⟨request, began, .going ⟨t.snapshot, .answer res, frames⟩⟩ :: others) := by
  obtain ⟨haimed, hothers⟩ := List.forall_mem_cons.1 h.aimed
  have hled : ((key, flight) :: (frames.filterMap Frame.slot? ++ others.flatMap (·.stage.led))).Perm
      k.cache.slots := by
    have hperm := h.led
    rw [List.flatMap_cons, Stage.led, Task.led, ht] at hperm
    exact hperm
  have hslot : (key, flight) ∈ k.cache.slots := hled.mem_iff.1 List.mem_cons_self
  have hweight : ∀ p, res = .ok p → Cache.admittedWeight k.cache.capacity p ≠ none := by
    intro p hres hnone
    exact hadmitted ⟨p, key, flight, frames, hres ▸ hg, ht, hnone⟩
  refine ⟨List.forall_mem_cons.2 ⟨haimed.pop ht res, hothers⟩, h.exclusive.finish hslot hweight hevict,
    h.exclusive.perm_finish hled res, ?_, h.nodup, h.count⟩
  intro d hd
  have hcontains := Cache.contains_finish (h.exclusive.fresh flight) hweight hevict (.compiled d.1 d.2)
  refine (h.logged d hd).replace (fun hc => hcontains.2 (.inr hc)) ?_
  intro ⟨p, flight', rest, hg', ht'⟩
  have hkey := (Frame.land.inj (List.cons.inj (ht'.symm.trans ht)).1).1
  exact .inl (hcontains.2 (.inl ⟨hkey, p, Goal.answer.inj (hg.symm.trans hg')⟩))

/-- What every turn of a task keeps, unless something is dropped or refused. -/
theorem Once.turn (h : Once log k (⟨request, began, .going t⟩ :: others)) {progress : Task.Progress H}
    (hturn : t.Turn k k' progress) (hevict : k'.cache.evictions = k.cache.evictions) (hadmitted : ¬ t.Refused k) :
    Once (log ++ (t.completes? k).toList) k' (⟨request, began, .ofProgress progress⟩ :: others) := by
  have haimed : (Stage.ofProgress progress).Aimed :=
    Task.Aimed.turn (List.forall_mem_cons.1 h.aimed).1 hturn
  have hstill (hk : k.Still k') (hc : t.completes? k = none) (hled : (Stage.ofProgress progress).led = t.led)
      (hno : ∀ {key}, ¬ t.Lands key) :
      Once (log ++ (t.completes? k).toList) k' (⟨request, began, .ofProgress progress⟩ :: others) := by
    rw [hc, Option.toList_none, List.append_nil]
    exact (h.change hk).replace haimed hled fun hl => absurd hl hno
  cases hturn with
  | found p hg hk => exact hstill hk (Task.completes?_eq_none (by simp [hg])) rfl (Task.not_lands (by simp [hg]))
  | joined flight hg hk =>
    exact hstill hk (Task.completes?_eq_none (by simp [hg])) rfl (Task.not_lands (by simp [hg]))
  | led hg hkey hslot hb hk =>
    rw [Task.completes?_eq_none (by simp [hg]), Option.toList_none, List.append_nil]
    exact (h.takeOff hg hkey hslot hb).change hk
  | blocked hg hl hk =>
    exact hstill (.of_eq (by rw [hk]) (by rw [hk])) (Task.completes?_eq_none (by simp [hg])) rfl
      (Task.not_lands (by simp [hg]))
  | woken hg hl hk =>
    exact hstill hk (Task.completes?_eq_none (by simp [hg])) rfl (Task.not_lands (by simp [hg]))
  | retried hg hl hk =>
    exact hstill hk (Task.completes?_eq_none (by simp [hg])) rfl (Task.not_lands (by simp [hg]))
  | ran hg hr hc hk => exact hstill hk hc rfl (Task.not_lands (by simp [hg]))
  | hooked name hook hg hr hc hk => exact hstill hk hc rfl (Task.not_lands (by simp [hg]))
  | failed failure hg hc hk => exact hstill hk hc rfl (Task.not_lands (by simp [hg]))
  | compiled p hg hc hk =>
    rw [hc, Option.toList_some]
    exact (h.compiled hg p).change hk
  | handed res' hg ht hframe hres hk =>
    exact hstill hk (Task.completes?_eq_none (by simp [hg])) (Task.led_pop ht hframe).symm
      (Task.not_lands_pop ht hframe)
  | landed hg ht hk =>
    rw [Task.completes?_eq_none (by simp [hg]), Option.toList_none, List.append_nil]
    exact (h.landed hg ht (hk.cache.evictions.symm.trans hevict) hadmitted).change hk
  | asked hg ht hk =>
    exact hstill hk (Task.completes?_eq_none (by simp [hg])) (Task.led_pop ht (by simp)).symm
      (Task.not_lands_pop ht (by simp))
  | done hg ht hk =>
    refine hstill (.of_eq (by rw [hk]) (by rw [hk])) (Task.completes?_eq_none (by simp [hg])) ?_ ?_
    · rw [Task.led, ht]
      rfl
    · intro key ⟨p, flight, frames, _, ht'⟩
      cases ht.symm.trans ht'

end

/-! ## Histories -/

/-- Acts that drop nothing from the cache on purpose. -/
def Act.Lasting : Act H → Prop
  | .event (.replaceHierarchy _) => False
  | .event (.invalidateSource _) => False
  | _ => True

namespace Shared

/-- What is compiled for which passes, if a pipeline completes with this act. -/
def completes? (s : Shared H) : Act H → Option (Digest × Digest)
  | .event (.step i) =>
    match s.calls[i]? with
    | some ⟨_, _, .going t⟩ => t.completes? s.kernel
    | _ => none
  | _ => none

/-- What pipelines complete for, one after the other. -/
def completions (s : Shared H) : List (Act H) → List (Digest × Digest)
  | [] => []
  | a :: acts => (s.completes? a).toList ++ (s.act a).completions acts

/-- With this act a payload is not admitted because of its weight. -/
def Refuses (s : Shared H) (a : Act H) : Prop :=
  ∃ i request began t, a = .event (.step i) ∧ s.calls[i]? = some ⟨request, began, .going t⟩ ∧ t.Refused s.kernel

end Shared

section
variable {log : List (Digest × Digest)} {s : Shared H} {a : Act H} {k : Kernel H} {calls : List (Call H)}

theorem Shared.Change.grows (hc : s.Change a k calls) : s.kernel.cache.Grows k.cache := by
  have hrefl : s.kernel.cache.Grows s.kernel.cache := (Cache.Keeps.refl _).grows
  cases hc with
  | still hk ha => exact hk.cache.grows
  | began ht => exact hrefl
  | refused name => exact hrefl
  | @stepped i request began t hi =>
    rcases (t.step_turn s.kernel).cache with hk | ⟨key, hk⟩ | ⟨key, flight, res, hk⟩
    · exact hk.grows
    · exact ⟨hk.capacity, Nat.le_succ_of_le hk.size, Nat.le_of_eq hk.evictions.symm, fun _ _ => hk.evictions⟩
    · exact (Cache.grows_finish s.kernel.cache key flight res).keeps hk
  | @gaveUp i request began t hi =>
    obtain ⟨waiting, hkernel⟩ := t.giveUp_kernel s.kernel
    rw [hkernel]
    exact hrefl
  | dropped hi =>
    rw [release_cache]
    exact hrefl
  | invalidated doomed he hc =>
    rw [hc]
    exact Cache.grows_invalidate s.kernel.cache doomed

theorem capacity_play (s : Shared H) (acts : List (Act H)) :
    (s.play acts).kernel.cache.capacity = s.kernel.cache.capacity := by
  induction acts generalizing s with
  | nil => rfl
  | cons a acts ih => exact (ih (s.act a)).trans (s.act_change a).grows.capacity

theorem evictions_le_play (s : Shared H) (acts : List (Act H)) :
    s.kernel.cache.evictions ≤ (s.play acts).kernel.cache.evictions := by
  induction acts generalizing s with
  | nil => exact Nat.le_refl _
  | cons a acts ih => exact (s.act_change a).grows.evictions.trans (ih (s.act a))

/-- A cache with room for an entry with every act drops none. -/
theorem evictions_play_of_room {n : Nat} (hn : s.kernel.cache.capacity = .entries n) {acts : List (Act H)}
    (hroom : s.kernel.cache.size + acts.length ≤ n) :
    (s.play acts).kernel.cache.evictions = s.kernel.cache.evictions := by
  induction acts generalizing s with
  | nil => rfl
  | cons a acts ih =>
    have hgrows := (s.act_change a).grows
    have hsize := hgrows.size
    rw [List.length_cons] at hroom
    rw [Shared.play_cons, ih (hgrows.capacity.trans hn) (by omega)]
    exact hgrows.room hn (by omega)

/-- A cache that counts entries refuses none for its weight. -/
theorem not_refuses {n : Nat} (hn : s.kernel.cache.capacity = .entries n) : ¬ s.Refuses a := by
  intro ⟨i, request, began, t, _, _, p, key, flight, frames, _, _, hweight⟩
  rw [hn] at hweight
  cases hweight

theorem Once.uncompleted (h : Once log k calls) (hno : s.completes? a = none) :
    Once (log ++ (s.completes? a).toList) k calls := by
  rw [hno, Option.toList_none, List.append_nil]
  exact h

theorem Once.act (h : Once log s.kernel s.calls) (hc : s.Change a k calls) (ha : a.Lasting)
    (hevict : k.cache.evictions = s.kernel.cache.evictions) (hadmitted : ¬ s.Refuses a) :
    Once (log ++ (s.completes? a).toList) k calls := by
  have happend (c : Call H) : (c :: s.calls).Perm (s.calls ++ [c]) := (List.perm_append_singleton c s.calls).symm
  cases hc with
  | still hk ha' =>
    have hnone : s.completes? a = none := by
      unfold Shared.completes?
      split
      · rename_i i
        split
        · exact absurd ‹_› (ha' rfl)
        · rfl
      · rfl
    exact (h.change hk).uncompleted hnone
  | @began request t ht =>
    refine Once.uncompleted ?_ rfl
    exact (h.call (show (Stage.going t).Aimed from ht.aimed) ht.quiet.led).perm (happend _)
  | @refused request name =>
    refine Once.uncompleted ?_ rfl
    exact (h.call (show (Stage.done _ _).Aimed from trivial) rfl).perm (happend _)
  | @stepped i request began t hi =>
    have hcompletes : s.completes? (.event (.step i)) = t.completes? s.kernel := by
      simp only [Shared.completes?, hi]
    rw [hcompletes]
    obtain ⟨others, hp, hset⟩ := Shared.exists_others hi
    refine ((h.perm hp).turn (t.step_turn s.kernel) hevict ?_).perm (hset _).symm
    intro hrefused
    exact hadmitted ⟨i, request, began, t, rfl, hi, hrefused⟩
  | @gaveUp i request began t hi =>
    obtain ⟨others, hp, hset⟩ := Shared.exists_others hi
    have hall := h.perm hp
    refine (Once.perm ?_ (hset _).symm).uncompleted rfl
    rcases t.giveUp_cases s.kernel with ⟨key, flight, deadline, production, hg, -, heq⟩ | heq
    · rw [heq]
      have haimed : t.Aimed := (List.forall_mem_cons.1 hall.aimed).1
      have haimed' : (Stage.going (t.answer (.error .waitTimedOut))).Aimed := ⟨trivial, haimed.later⟩
      have hk : s.kernel.Still (Task.stopWaiting s.kernel flight) := .of_eq rfl rfl
      exact (hall.change hk).replace haimed' rfl fun hl => absurd hl (Task.not_lands (by simp [hg]))
    · rw [heq]
      exact hall
  | @dropped i request began p hi =>
    obtain ⟨others, hp, hset⟩ := Shared.exists_others hi
    have haimed : (Stage.done (.ok p) false : Stage H).Aimed := trivial
    have hdropped := ((h.perm hp).change (.release s.kernel p)).replace haimed rfl id
    exact (hdropped.perm (hset _).symm).uncompleted rfl
  | @invalidated e kernel doomed he hc =>
    rcases he with ⟨hierarchy, rfl⟩ | ⟨source, rfl⟩ <;> exact ha.elim

theorem Once.play {acts : List (Act H)} (h : Once log s.kernel s.calls) (ha : ∀ a ∈ acts, a.Lasting)
    (hevict : (s.play acts).kernel.cache.evictions = s.kernel.cache.evictions)
    (hadmitted : ∀ before a after, acts = before ++ a :: after → ¬ (s.play before).Refuses a) :
    Once (log ++ s.completions acts) (s.play acts).kernel (s.play acts).calls := by
  induction acts generalizing s log with
  | nil =>
    rw [Shared.completions, List.append_nil]
    exact h
  | cons a acts ih =>
    obtain ⟨ha, hacts⟩ := List.forall_mem_cons.1 ha
    have hfirst := (s.act_change a).grows.evictions
    have hrest := evictions_le_play (s.act a) acts
    rw [Shared.play_cons] at hevict
    have hact := h.act (s.act_change a) ha (by omega) (hadmitted [] a acts rfl)
    rw [Shared.completions, ← List.append_assoc]
    refine ih hact hacts (by omega) ?_
    intro before a' after heq
    exact hadmitted (a :: before) a' after (congrArg (a :: ·) heq)

end

/--
As long as nothing is evicted, refused for its weight or invalidated, no pipeline completes twice for a source
and a pass set, however calls overlap; the compilations counted are the pairs that have been compiled.
-/
theorem Shared.compiles_once {settings : Settings} {hierarchy : Hierarchy} {k : Kernel H}
    (hk : Kernel.new settings hierarchy = .ok k) {acts : List (Act H)} (ha : ∀ a ∈ acts, a.Lasting)
    (hevict : ((start k).play acts).kernel.cache.evictions = 0)
    (hadmitted : ∀ before a after, acts = before ++ a :: after → ¬ ((start k).play before).Refuses a) :
    ((start k).completions acts).Nodup ∧
      ((start k).play acts).kernel.compilations = ((start k).completions acts).toFinset.card := by
  obtain ⟨-, -, -, -, hcache, -, hcount⟩ := new_spec hk
  have hstart : Once [] (start k).kernel (start k).calls := by
    change Once [] k []
    refine ⟨by simp, ?_, ?_, by simp, List.nodup_nil, hcount⟩
    · rw [hcache]
      exact Cache.exclusive_empty settings.capacity
    · rw [hcache]
      exact .refl []
  have hzero : (start k).kernel.cache.evictions = 0 := congrArg Cache.evictions hcache
  have hplay := hstart.play ha (hevict.trans hzero.symm) hadmitted
  rw [List.nil_append] at hplay
  refine ⟨hplay.nodup, ?_⟩
  rw [List.toFinset_card_of_nodup hplay.nodup]
  exact hplay.count

namespace Shared

/-- A caller compiles until the pipeline has completed. -/
def rush : List (Act H) := .event (.call (.compile (.map []))) :: List.replicate 7 (.event (.step 0))

/-- Two others who ask for the same, with the pass list set in between. -/
def crowd : List (Act H) :=
  [.event (.call (.query "keys" .empty (.map []) (some .expired))), .event (.step 1),
    .event (.setPassList ["validate"]), .event (.call (.compile (.map []))), .event (.step 2),
    .event (.giveUp 1), .event (.step 0), .event (.step 2)]

theorem compilations_rush : ((Kernel.new .default ⟨[]⟩).toOption.map fun k : Kernel Empty =>
    ((start k).play rush).kernel.compilations) = some 1 := by
  decide +kernel

/-- The pipeline completes for the first caller, and for no pair twice while the others come and go. -/
theorem compiles_once_crowd : ∃ k : Kernel Empty, Kernel.new .default ⟨[]⟩ = .ok k ∧
    (∀ a ∈ rush ++ crowd, (a : Act Empty).Lasting) ∧
    ((start k).play (rush ++ crowd)).kernel.cache.evictions = 0 ∧
    (∀ before a after, rush ++ crowd = before ++ a :: after → ¬ ((start k).play before).Refuses a) ∧
    ((start k).play rush).kernel.compilations = 1 ∧ ((start k).completions (rush ++ crowd)).Nodup ∧
    ((start k).play (rush ++ crowd)).kernel.compilations =
      ((start k).completions (rush ++ crowd)).toFinset.card := by
  obtain ⟨k, hk⟩ : ∃ k : Kernel Empty, Kernel.new .default ⟨[]⟩ = .ok k := ⟨_, rfl⟩
  have hcache := new_cache hk
  have hcapacity : k.cache.capacity = .entries 1024 := congrArg Cache.capacity hcache
  have hlasting : ∀ a ∈ rush ++ crowd, (a : Act Empty).Lasting := by
    simp [rush, crowd, Act.Lasting]
  have hevict : ((start k).play (rush ++ crowd)).kernel.cache.evictions = 0 := by
    have hsize : (start k).kernel.cache.size = 0 := congrArg Cache.size hcache
    rw [evictions_play_of_room hcapacity (by rw [hsize]; decide)]
    exact congrArg Cache.evictions hcache
  have hadmitted : ∀ before a after, rush ++ crowd = before ++ a :: after →
      ¬ ((start k).play before).Refuses a := by
    intro before a after _
    exact not_refuses ((capacity_play (start k) before).trans hcapacity)
  have hrush := compilations_rush
  rw [hk] at hrush
  exact ⟨k, hk, hlasting, hevict, hadmitted, Option.some.inj hrush, compiles_once hk hlasting hevict hadmitted⟩

end Shared

end Kernel

end ConfigCompiler
