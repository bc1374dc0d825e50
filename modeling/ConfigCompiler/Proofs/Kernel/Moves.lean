import ConfigCompiler.Proofs.Kernel.Turns

/-!
# How a step changes a task

`Task.Move` lists the ways in which a step changes goals, frames and flights; each step that goes on is one
of them (`Task.step_move`). All but asking an abandoned flight's key again bring the task nearer to its end
(`Task.Move.cost_lt`).
-/

namespace ConfigCompiler

variable {H : Type}

namespace Task

/-- What becomes of a task and of the flights by a step that goes on. -/
inductive Move (k : Kernel H) (t : Task H) (k' : Kernel H) : Task H → Prop
  /-- A goal that is no answer is given up for one. -/
  | answered (res : Except KernelError Payload) (hg : ∀ r, t.goal ≠ .answer r)
      (hf : k'.cache.flights = k.cache.flights) : Move k t k' (t.answer res)
  | joined {key : CacheKey} {deadline? : Option Deadline} {production : Production} (flight : Nat)
      (hg : t.goal = .ask key deadline? production) (hf : k'.cache.flights = k.cache.flights) :
      Move k t k' (t.toward (.wait key flight deadline? production))
  | retried {key : CacheKey} {flight : Nat} {deadline? : Option Deadline} {production : Production}
      (hg : t.goal = .wait key flight deadline? production)
      (ha : k.cache.landing flight = .abandoned) (hf : k'.cache.flights = k.cache.flights) :
      Move k t k' (t.toward (.ask key deadline? production))
  | led {key : CacheKey} {deadline? : Option Deadline} {production : Production} {goal : Goal H}
      {frames : List Frame} (hg : t.goal = .ask key deadline? production)
      (hb : production.Begun t.snapshot goal frames)
      (hf : k'.cache.flights = k.cache.flights.push .takeOff) :
      Move k t k' ⟨t.snapshot, goal, frames ++ .land key k.cache.flights.size :: t.frames⟩
  | ran {r r' : Run H} {pass : Pass H} (hg : t.goal = .run r) (hr : r.rest = pass :: r'.rest)
      (hf : k'.cache.flights = k.cache.flights) : Move k t k' (t.toward (.run r'))
  | popped {res : Except KernelError Payload} {frame : Frame} {frames : List Frame}
      (res' : Except KernelError Payload) (hg : t.goal = .answer res) (ht : t.frames = frame :: frames)
      (hframe : ∀ key flight, frame ≠ .land key flight) (hf : k'.cache.flights = k.cache.flights) :
      Move k t k' ⟨t.snapshot, .answer res', frames⟩
  | landed {res : Except KernelError Payload} {key : CacheKey} {flight : Nat} {frames : List Frame}
      (hg : t.goal = .answer res) (ht : t.frames = .land key flight :: frames)
      (hf : k'.cache.flights = k.cache.flights.modify flight (·.land res)) :
      Move k t k' ⟨t.snapshot, .answer res, frames⟩
  | asked {res : Except KernelError Payload} {key : CacheKey} {deadline? : Option Deadline}
      {production : Production} {frames : List Frame} (hg : t.goal = .answer res)
      (ht : t.frames = .thenAsk key deadline? production :: frames)
      (hf : k'.cache.flights = k.cache.flights) :
      Move k t k' ⟨t.snapshot, .ask key deadline? production, frames⟩

end Task

section
variable {k k' : Kernel H} {t t' : Task H}

theorem Task.Turn.move (h : t.Turn k k' (.next t')) : t.Move k k' t' := by
  cases h with
  | found p hg hk => exact .answered _ (by simp [hg]) hk.cache.flights
  | joined flight hg hk => exact .joined flight hg hk.cache.flights
  | led hg hkey hslot hb hk => exact .led hg hb hk.cache.flights
  | woken hg hl hk => exact .answered _ (by simp [hg]) hk.cache.flights
  | retried hg hl hk => exact .retried hg hl hk.cache.flights
  | ran hg hr hc hk => exact .ran hg hr hk.cache.flights
  | failed failure hg hc hk => exact .answered _ (by simp [hg]) hk.cache.flights
  | compiled p hg hc hk => exact .answered _ (by simp [hg]) hk.cache.flights
  | handed res' hg ht hframe hres hk => exact .popped res' hg ht hframe hk.cache.flights
  | @landed res key flight frames hg ht hk =>
    exact .landed hg ht (hk.cache.flights.trans (Cache.finish_flights k.cache key flight res))
  | asked hg ht hk => exact .asked hg ht hk.cache.flights

/-- A hook is asked for on the way to the next pass. -/
theorem Task.Turn.move_of_hook {name : String} {hook : H} (h : t.Turn k k' (.hook name hook t')) : t.Move k k' t' := by
  cases h with
  | hooked name hook hg hr hc hk => exact .ran hg hr hk.cache.flights

theorem Task.step_move (h : t.step k = (k', .next t')) : t.Move k k' t' := by
  have hturn := t.step_turn k
  rw [h] at hturn
  exact hturn.move

theorem Task.frames_of_done {res : Except KernelError Payload} (h : t.step k = (k', .done res)) :
    t.frames = [] := by
  have hturn := t.step_turn k
  rw [h] at hturn
  cases hturn with
  | done hg ht hk => exact ht

/-- Only those who wait are blocked. -/
theorem Task.wait_of_blocked (h : t.step k = (k', .blocked t')) : ∃ key flight deadline? production,
    t.goal = .wait key flight deadline? production ∧ k.cache.landing flight = .running := by
  have hturn := t.step_turn k
  rw [h] at hturn
  cases hturn with
  | blocked hg hl hk => exact ⟨_, _, _, _, hg, hl⟩

/-! ## The way to the end -/

/-- A bound on the steps from asking until there is an answer. -/
def Production.cost (passes : Nat) : Production → Nat
  | .compile _ => passes + 3
  | _ => passes + 6

def Goal.cost (passes : Nat) : Goal H → Nat
  | .ask _ _ production => production.cost passes
  | .wait _ _ _ _ => 1
  | .run r => r.rest.length + 1
  | .answer _ => 0

def Frame.cost (passes : Nat) : Frame → Nat
  | .thenAsk _ _ production => production.cost passes + 1
  | _ => 1

def Task.cost (t : Task H) : Nat :=
  t.goal.cost t.snapshot.passes.length + (t.frames.map (Frame.cost t.snapshot.passes.length)).sum

theorem Production.one_lt_cost (production : Production) (passes : Nat) : 1 < production.cost passes := by
  cases production <;> simp only [cost] <;> omega

theorem Goal.cost_pos {g : Goal H} (hg : ∀ res, g ≠ .answer res) (passes : Nat) : 0 < g.cost passes := by
  cases g with
  | ask key deadline? production => exact Nat.lt_of_succ_lt (production.one_lt_cost passes)
  | wait key flight deadline? production => exact Nat.one_pos
  | run r => exact Nat.succ_pos _
  | answer res => exact absurd rfl (hg res)

theorem Frame.cost_pos (frame : Frame) (passes : Nat) : 0 < frame.cost passes := by
  cases frame <;> simp [cost]

theorem Task.Move.cost_lt (h : t.Move k k' t') (hl : ∀ {key flight deadline? production},
    t.goal = .wait key flight deadline? production → k.cache.landing flight ≠ .abandoned) :
    t'.cost < t.cost := by
  unfold Task.cost
  cases h with
  | answered res hg hf => exact Nat.add_lt_add_right (Goal.cost_pos hg _) _
  | @joined key deadline? production flight hg hf =>
    rw [hg]
    exact Nat.add_lt_add_right (production.one_lt_cost _) _
  | retried hg ha hf => exact absurd ha (hl hg)
  | led hg hb hf =>
    rw [hg]
    cases hb <;> simp only [Goal.cost, Production.cost, Frame.cost, Run.start, List.nil_append,
      List.cons_append, List.map_cons, List.sum_cons] <;> omega
  | @ran r r' pass hg hr hf =>
    rw [hg]
    have hlt : r'.rest.length + 1 < r.rest.length + 1 := by rw [hr, List.length_cons]; omega
    exact Nat.add_lt_add_right hlt _
  | @popped res frame frames res' hg ht hframe hf =>
    have := frame.cost_pos t.snapshot.passes.length
    rw [hg, ht]
    simp only [Goal.cost, List.map_cons, List.sum_cons]
    omega
  | landed hg ht hf =>
    rw [hg, ht]
    simp only [Goal.cost, Frame.cost, List.map_cons, List.sum_cons]
    omega
  | asked hg ht hf =>
    rw [hg, ht]
    simp only [Goal.cost, Frame.cost, List.map_cons, List.sum_cons]
    omega

end

end ConfigCompiler
