import ConfigCompiler.Proofs.Kernel.Failures

/-!
# A deadline bounds the caller that set it

Only a caller with a deadline waits with one, and only while it leads no flight; so an answer that a deadline
has passed never gets into a flight that others wait for (`Task.Timed`, kept by every turn: `Task.Timed.turn`).
Hence in every history such an answer is given only to callers who set a deadline and gave up themselves, and
nothing in the cache changes when they do (`Shared.deadline_bounds_caller`). They are always told so
(`Shared.told_of_giveUp`).
-/

namespace ConfigCompiler

variable {H : Type}

/-- The deadline that a caller sets. -/
def Request.deadline? : Request → Option Deadline
  | .query _ _ _ deadline? => deadline?
  | _ => none

theorem Request.exists_query_of_deadline? {r : Request} (h : r.deadline? ≠ none) :
    ∃ name params raw deadline, r = .query name params raw (some deadline) := by
  cases r with
  | query name params raw deadline? =>
    obtain ⟨deadline, rfl⟩ := Option.ne_none_iff_exists'.1 h
    exact ⟨name, params, raw, deadline, rfl⟩
  | _ => exact absurd rfl h

/-- How long a goal may have the task wait for another caller's flight. -/
def Goal.deadline? : Goal H → Option Deadline
  | .ask _ deadline? _ => deadline?
  | .wait _ _ deadline? _ => deadline?
  | _ => none

/-- The answer to a caller whose deadline has passed. -/
abbrev timedOut : Except KernelError Payload := .error .waitTimedOut

/-! ## Tasks -/

/--
A task of a caller waits with a deadline only if the caller set one, and leads no flight then; it has the
answer that the deadline has passed only if the caller gave up.
-/
structure Task.Timed (r : Request) (gaveUp : Prop) (t : Task H) : Prop where
  goal : t.goal.deadline? ≠ none → r.deadline? ≠ none ∧ Kernel.Quiet t.frames
  later : ∀ {key deadline? production}, .thenAsk key deadline? production ∈ t.frames → deadline? ≠ none →
    r.deadline? ≠ none
  afterAsk : Kernel.QuietAfterAsk t.frames
  timedOut : t.goal = .answer timedOut → r.deadline? ≠ none ∧ Kernel.Quiet t.frames ∧ gaveUp

def Kernel.Stage.Timed (r : Request) (gaveUp : Prop) : Kernel.Stage H → Prop
  | going t => t.Timed r gaveUp
  | done res _ => res = timedOut → r.deadline? ≠ none ∧ gaveUp

/-- No production has ended with a deadline. -/
def Kernel.Timeless (k : Kernel H) : Prop := ∀ f, k.cache.landing f ≠ .landed timedOut

section
variable {k k' : Kernel H} {t : Task H} {r : Request} {gaveUp gaveUp' : Prop}

theorem Task.Timed.mono (h : t.Timed r gaveUp) (hg : gaveUp → gaveUp') : t.Timed r gaveUp' where
  goal := h.goal
  later := h.later
  afterAsk := h.afterAsk
  timedOut heq := by
    obtain ⟨hr, hquiet, hgave⟩ := h.timedOut heq
    exact ⟨hr, hquiet, hg hgave⟩

theorem Kernel.Stage.Timed.mono {stage : Kernel.Stage H} (h : stage.Timed r gaveUp)
    (hg : gaveUp → gaveUp') : stage.Timed r gaveUp' := by
  cases stage with
  | going t => exact Task.Timed.mono h hg
  | done res kept =>
    intro heq
    obtain ⟨hr, hgave⟩ := h heq
    exact ⟨hr, hg hgave⟩

/-- Goals that neither wait nor report a deadline. -/
theorem Task.Timed.toward (h : t.Timed r gaveUp) {goal : Goal H} (hd : goal.deadline? = none)
    (hne : goal ≠ .answer ConfigCompiler.timedOut) : (t.toward goal).Timed r gaveUp where
  goal hgoal := absurd hd hgoal
  later := h.later
  afterAsk := h.afterAsk
  timedOut heq := absurd heq hne

/-- The next frame is taken off. -/
theorem Task.Timed.pop (h : t.Timed r gaveUp) {frame : Frame} {frames : List Frame}
    (ht : t.frames = frame :: frames) {goal : Goal H} (hd : goal.deadline? = none)
    (hres : goal = .answer ConfigCompiler.timedOut → t.goal = .answer ConfigCompiler.timedOut) :
    Task.Timed r gaveUp ⟨t.snapshot, goal, frames⟩ where
  goal hgoal := absurd hd hgoal
  later hm := h.later (ht ▸ List.mem_cons_of_mem _ hm)
  afterAsk := Kernel.QuietAfterAsk.tail (ht ▸ h.afterAsk)
  timedOut heq := by
    obtain ⟨hr, hquiet, hgave⟩ := h.timedOut (hres heq)
    exact ⟨hr, Kernel.Quiet.tail (ht ▸ hquiet), hgave⟩

/-- No production begins with a deadline. -/
theorem Production.Begun.timeless {s : Snapshot H} {production : Production} {goal : Goal H}
    {frames : List Frame} (h : production.Begun s goal frames) :
    goal.deadline? = none ∧ goal ≠ .answer ConfigCompiler.timedOut ∧
      (∀ {key deadline? production'}, .thenAsk key deadline? production' ∉ frames) ∧
      ∀ {rest}, Kernel.QuietAfterAsk rest → Kernel.QuietAfterAsk (frames ++ rest) := by
  cases h with
  | compile raw => exact ⟨rfl, by simp, by simp, id⟩
  | view v params raw => exact ⟨rfl, by simp, by simp, id⟩
  | cached v params p => exact ⟨rfl, by simp, by simp, id⟩
  | missing v params => exact ⟨rfl, by simp, by simp, id⟩

theorem Task.Timed.lead (h : t.Timed r gaveUp) {production : Production} {goal : Goal H}
    {frames : List Frame} (hb : production.Begun t.snapshot goal frames) (key : CacheKey) (flight : Nat) :
    Task.Timed r gaveUp ⟨t.snapshot, goal, frames ++ .land key flight :: t.frames⟩ := by
  obtain ⟨hd, hne, hno, hafter⟩ := hb.timeless
  refine ⟨fun hgoal => absurd hd hgoal, ?_, ?_, fun heq => absurd heq hne⟩
  · intro key' deadline? production' hm
    rcases List.mem_append.1 hm with hm | hm
    · exact absurd hm hno
    · exact h.later (List.mem_of_ne_of_mem (by simp) hm)
  · exact hafter (show Kernel.QuietAfterAsk (.land key flight :: t.frames) from h.afterAsk)

theorem Kernel.Timeless.congr (h : k.Timeless) (hf : k'.cache.flights = k.cache.flights) : k'.Timeless := by
  intro f hl
  rw [Cache.landing, hf] at hl
  exact h f hl

/-- What is known of a flight after another one has landed. -/
theorem landed_modify {c c' : Cache CacheKey KernelError Payload} {f g : Nat}
    {res res' : Except KernelError Payload} (hf : c'.flights = c.flights.modify f (·.land res))
    (h : c'.landing g = .landed res') : res' = res ∨ c.landing g = .landed res' := by
  rw [Cache.landing, hf, Array.getElem?_modify] at h
  split at h
  · cases hg : c.flights[g]? with
    | none =>
      rw [hg] at h
      cases h
    | some flight =>
      rw [hg] at h
      cases h
      exact .inl rfl
  · exact .inr h

/-- What every turn of a task keeps. -/
theorem Task.Timed.turn (h : t.Timed r gaveUp) (hk : k.Timeless) {progress : Task.Progress H}
    (hturn : t.Turn k k' progress) : (Kernel.Stage.ofProgress progress).Timed r gaveUp ∧ k'.Timeless := by
  cases hturn with
  | found p hg hstill => exact ⟨h.toward rfl (by simp), hk.congr hstill.cache.flights⟩
  | joined flight hg hstill =>
    refine ⟨⟨fun hd => h.goal ?_, h.later, h.afterAsk, by simp [Task.toward]⟩, hk.congr hstill.cache.flights⟩
    rw [hg]
    exact hd
  | @led key deadline? production goal frames hg hkey hslot hb hstill =>
    refine ⟨h.lead hb key _, ?_⟩
    intro f hl
    rw [Kernel.landing_push k.cache f hstill.cache.flights] at hl
    split at hl
    · cases hl
    · exact hk f hl
  | blocked hg hl hsame =>
    rw [hsame]
    exact ⟨h, hk⟩
  | @woken key flight deadline? production res hg hl hstill =>
    refine ⟨h.toward rfl ?_, hk.congr hstill.cache.flights⟩
    intro heq
    cases heq
    exact hk flight hl
  | retried hg hl hstill =>
    refine ⟨⟨fun hd => h.goal ?_, h.later, h.afterAsk, by simp [Task.toward]⟩, hk.congr hstill.cache.flights⟩
    rw [hg]
    exact hd
  | ran hg hr hc hstill => exact ⟨h.toward rfl (by simp), hk.congr hstill.cache.flights⟩
  | hooked name hook hg hr hc hstill => exact ⟨h.toward rfl (by simp), hk.congr hstill.cache.flights⟩
  | failed failure hg hc hstill => exact ⟨h.toward rfl (by simp), hk.congr hstill.cache.flights⟩
  | compiled p hg hc hstill => exact ⟨h.toward rfl (by simp), hk.congr hstill.cache.flights⟩
  | handed res' hg ht hframe hres hstill =>
    refine ⟨h.pop ht rfl ?_, hk.congr hstill.cache.flights⟩
    intro heq
    cases heq
    rw [hg, hres rfl]
  | @landed res key flight frames hg ht hstill =>
    refine ⟨h.pop ht rfl fun heq => hg.trans heq, ?_⟩
    intro f hl
    have hflights := hstill.cache.flights.trans (Cache.finish_flights k.cache key flight res)
    rcases landed_modify hflights hl with hres | hl
    · -- who gave up leads no flight
      obtain ⟨-, hquiet, -⟩ := h.timedOut (by rw [hg, hres])
      exact hquiet key flight (ht ▸ List.mem_cons_self)
    · exact hk f hl
  | @asked p key deadline? production frames hg ht hstill =>
    have hafterAsk := h.afterAsk
    rw [ht] at hafterAsk
    obtain ⟨hquiet, hafter⟩ := hafterAsk
    refine ⟨⟨?_, ?_, hafter, by simp⟩, hk.congr hstill.cache.flights⟩
    · intro hd
      exact ⟨h.later (ht ▸ List.mem_cons_self) hd, hquiet⟩
    · intro key' deadline?' production' hm
      exact h.later (ht ▸ List.mem_cons_of_mem _ hm)
  | done hg ht hsame =>
    rw [hsame]
    refine ⟨?_, hk⟩
    intro heq
    obtain ⟨hr, -, hgave⟩ := h.timedOut (by rw [hg, heq])
    exact ⟨hr, hgave⟩

theorem Task.Timed.giveUp (h : t.Timed r gaveUp) (hgave : gaveUp) (k : Kernel H) :
    (t.giveUp k).2.Timed r gaveUp := by
  rcases t.giveUp_cases k with ⟨key, flight, deadline, production, hg, -, heq⟩ | heq
  · obtain ⟨hr, hquiet⟩ := h.goal (by rw [hg]; exact Option.some_ne_none deadline)
    rw [heq]
    exact ⟨fun hd => absurd rfl hd, h.later, h.afterAsk, fun _ => ⟨hr, hquiet, hgave⟩⟩
  · rw [heq]
    exact h

theorem Request.Opens.timed (h : r.Opens k t) : t.Timed r gaveUp := by
  cases h with
  | compile raw =>
    exact ⟨fun hd => absurd rfl hd, by simp, by simp [Kernel.QuietAfterAsk], by simp⟩
  | query name v params raw deadline? key =>
    refine ⟨fun hd => ⟨hd, ?_⟩, by simp [Task.forView], by simp [Task.forView, Kernel.QuietAfterAsk],
      by simp [Task.forView]⟩
    exact Request.Opens.quiet (k := k) (.query name v params raw deadline? key)
  | queryUntil name v params raw deadline? key =>
    refine ⟨fun hd => ⟨hd, ?_⟩, ?_, by simp [Kernel.QuietAfterAsk, Kernel.Quiet], by simp⟩
    · exact Request.Opens.quiet (k := k) (.queryUntil name v params raw deadline? key)
    · intro key' deadline?' production hm hd
      simp only [List.mem_cons, reduceCtorEq, Frame.thenAsk.injEq, List.not_mem_nil, or_false,
        false_or] at hm
      rw [hm.2.1] at hd
      exact hd
  | queryCompiled name v params source key =>
    exact ⟨fun hd => absurd rfl hd, by simp [Task.forView], by simp [Task.forView, Kernel.QuietAfterAsk],
      by simp [Task.forView]⟩

/-- A failure goes through all frames but those that end flights, and the kernel does not notice. -/
theorem Task.step_error {e : KernelError} (hg : t.goal = .answer (.error e)) (hquiet : Kernel.Quiet t.frames)
    (k : Kernel H) : t.frames = [] ∧ t.step k = (k, .done (.error e)) ∨
      ∃ frame frames, t.frames = frame :: frames ∧
        t.step k = (k, .next ⟨t.snapshot, .answer (.error e), frames⟩) := by
  refine (t.step_failure hg k).imp_right ?_
  rintro ⟨frame, frames, ht, hstep⟩
  refine ⟨frame, frames, ht, ?_⟩
  rw [hstep]
  cases frame with
  | land key flight => exact absurd List.mem_cons_self (ht ▸ hquiet key flight)
  | _ => rfl

end

/-! ## Histories -/

namespace Kernel

/-- All calls are timed, each by whether it gave up, and no production has ended with a deadline. -/
structure Timed (gaveUp : Nat → Prop) (k : Kernel H) (calls : List (Call H)) : Prop where
  calls : ∀ {i : Nat} {c : Call H}, calls[i]? = some c → c.stage.Timed c.request (gaveUp i)
  landings : k.Timeless

section
variable {s : Shared H} {k : Kernel H} {calls : List (Call H)} {gaveUp gaveUp' : Nat → Prop}

theorem Timed.mono (h : Timed gaveUp k calls) (hg : ∀ i, gaveUp i → gaveUp' i) : Timed gaveUp' k calls :=
  ⟨fun hc => (h.calls hc).mono (hg _), h.landings⟩

/-- Call `i` changes. -/
theorem Timed.set (h : Timed gaveUp k calls) {k' : Kernel H} (hk : k'.Timeless) {i : Nat} {c : Call H}
    (hc : c.stage.Timed c.request (gaveUp i)) : Timed gaveUp k' (calls.set i c) := by
  refine ⟨?_, hk⟩
  intro j c' hj
  rcases Shared.getElem?_set_cases hj with ⟨rfl, rfl⟩ | ⟨-, hj⟩
  · exact hc
  · exact h.calls hj

/-- A call comes. -/
theorem Timed.append (h : Timed gaveUp k calls) {c : Call H}
    (hc : ∀ {gave : Prop}, c.stage.Timed c.request gave) : Timed gaveUp k (calls ++ [c]) := by
  refine ⟨?_, h.landings⟩
  intro j c' hj
  rcases Shared.getElem?_append_cases hj with rfl | hj
  · exact hc
  · exact h.calls hj

theorem Timed.change (h : Timed gaveUp s.kernel s.calls) {a : Act H} (hc : s.Change a k calls) :
    Timed (fun i => gaveUp i ∨ a = .event (.giveUp i)) k calls := by
  have hall : Timed (fun i => gaveUp i ∨ a = .event (.giveUp i)) s.kernel s.calls := h.mono fun _ => .inl
  cases hc with
  | still hk ha => exact ⟨hall.calls, hall.landings.congr hk.cache.flights⟩
  | began ht => exact hall.append ht.timed
  | refused name => exact hall.append fun heq => by cases heq
  | @stepped i request began t hi =>
    have ht : t.Timed request _ := hall.calls hi
    obtain ⟨hstage, hlandings⟩ := ht.turn hall.landings (t.step_turn s.kernel)
    exact hall.set hlandings hstage
  | @gaveUp i request began t hi =>
    have ht : t.Timed request _ := hall.calls hi
    obtain ⟨waiting, hkernel⟩ := t.giveUp_kernel s.kernel
    refine hall.set ?_ (ht.giveUp (.inr rfl) s.kernel)
    rw [hkernel]
    exact hall.landings
  | @dropped i request began p hi =>
    refine hall.set (hall.landings.congr ?_) fun heq => by cases heq
    rw [release_cache]
  | @invalidated e kernel doomed he hc =>
    refine ⟨hall.calls, ?_⟩
    intro f hl
    rw [hc, landing_invalidate] at hl
    exact hall.landings f hl

theorem Timed.play (h : Timed gaveUp s.kernel s.calls) (acts : List (Act H)) :
    Timed (fun i => gaveUp i ∨ .event (.giveUp i) ∈ acts) (s.play acts).kernel (s.play acts).calls := by
  induction acts generalizing s gaveUp with
  | nil => exact h.mono fun _ => .inl
  | cons a acts ih =>
    refine (ih (h.change (s.act_change a))).mono ?_
    intro i hi
    rcases hi with (hi | rfl) | hi
    · exact .inl hi
    · exact .inr List.mem_cons_self
    · exact .inr (List.mem_cons_of_mem _ hi)

end

namespace Shared

theorem timed_start {settings : Settings} {hierarchy : Hierarchy} {k : Kernel H}
    (hk : Kernel.new settings hierarchy = .ok k) :
    Timed (fun _ => False) (start k).kernel (start k).calls where
  calls hc := nomatch hc
  landings f hl := by
    change k.cache.landing f = _ at hl
    rw [new_cache hk] at hl
    cases hl

/-- Nothing changes but that the caller waits no longer. -/
theorem next_giveUp (s : Shared H) (i : Nat) :
    (∃ waiting, (s.next (.giveUp i)).kernel = { s.kernel with waiting }) ∧
      ∀ j, j ≠ i → (s.next (.giveUp i)).calls[j]? = s.calls[j]? := by
  simp only [next]
  split
  · rename_i request began t hi
    refine ⟨t.giveUp_kernel s.kernel, ?_⟩
    intro j hj
    exact List.getElem?_set_ne hj.symm
  · exact ⟨⟨s.kernel.waiting, rfl⟩, fun j _ => rfl⟩

/-- A caller that gave up hands its failure on, and the kernel does not notice. -/
theorem next_step_timedOut {s : Shared H} {i : Nat} {request : Request} {began : Snapshot H} {t : Task H}
    {gaveUp : Prop} (hi : s.calls[i]? = some ⟨request, began, .going t⟩) (ht : t.Timed request gaveUp)
    (hg : t.goal = .answer timedOut) :
    (s.next (.step i)).kernel = s.kernel ∧
      ((s.next (.step i)).calls[i]? = some ⟨request, began, .done timedOut true⟩ ∨
        ∃ t', (s.next (.step i)).calls[i]? = some ⟨request, began, .going t'⟩ ∧ t'.goal = .answer timedOut) := by
  obtain ⟨-, hquiet, -⟩ := ht.timedOut hg
  have hlt : i < s.calls.length := (List.getElem?_eq_some_iff.1 hi).1
  rw [next_step hi]
  rcases t.step_error hg hquiet s.kernel with ⟨-, hstep⟩ | ⟨frame, frames, -, hstep⟩
  · rw [hstep]
    exact ⟨rfl, .inl (List.getElem?_set_self hlt)⟩
  · rw [hstep]
    exact ⟨rfl, .inr ⟨_, List.getElem?_set_self hlt, rfl⟩⟩

end Shared

/-- Who gives up is told so, after one step for each frame and one more. -/
theorem Shared.told_of_giveUp {s : Shared H} {i : Nat} {request : Request} {began : Snapshot H} {t : Task H}
    (hi : s.calls[i]? = some ⟨request, began, .going t⟩) (hg : t.goal = .answer timedOut) :
    (s.play (List.replicate (t.frames.length + 1) (.event (.step i)))).calls[i]? =
      some ⟨request, began, .done timedOut true⟩ := (failed_of_steps hi hg).1

/-- Who waits with a deadline for a running flight and gives up is told so. -/
theorem Shared.told_of_wait {s : Shared H} {i : Nat} {request : Request} {began : Snapshot H} {t : Task H}
    {key : CacheKey} {flight : Nat} {deadline : Deadline} {production : Production}
    (hi : s.calls[i]? = some ⟨request, began, .going t⟩)
    (hg : t.goal = .wait key flight (some deadline) production)
    (hrunning : s.kernel.cache.landing flight = .running) :
    ((s.next (.giveUp i)).play (List.replicate (t.frames.length + 1) (.event (.step i)))).calls[i]? =
      some ⟨request, began, .done timedOut true⟩ := by
  refine Shared.told_of_giveUp (t := t.answer timedOut) ?_ rfl
  simp only [Shared.next, hi, Task.giveUp, hg, hrunning]
  exact List.getElem?_set_self (List.getElem?_eq_some_iff.1 hi).1

/--
Only callers who set a deadline and gave up are told that it has passed. No production ends so, and when a
caller gives up, nothing changes but that it waits no longer: neither then nor while it hands on its failure.
-/
theorem Shared.deadline_bounds_caller {settings : Settings} {hierarchy : Hierarchy} {k : Kernel H}
    (hk : Kernel.new settings hierarchy = .ok k) (acts : List (Act H)) {s : Shared H}
    (hs : s = (start k).play acts) :
    (∀ {i c kept}, s.calls[i]? = some c → c.stage = .done timedOut kept →
      (∃ name params raw deadline, c.request = .query name params raw (some deadline)) ∧
        .event (.giveUp i) ∈ acts) ∧
    (∀ f, s.kernel.cache.landing f ≠ .landed timedOut) ∧
    (∀ i, (∃ waiting, (s.next (.giveUp i)).kernel = { s.kernel with waiting }) ∧
      ∀ j, j ≠ i → (s.next (.giveUp i)).calls[j]? = s.calls[j]?) ∧
    ∀ {i request began t}, s.calls[i]? = some ⟨request, began, .going t⟩ → t.goal = .answer timedOut →
      (s.next (.step i)).kernel = s.kernel ∧
        ((s.next (.step i)).calls[i]? = some ⟨request, began, .done timedOut true⟩ ∨
          ∃ t', (s.next (.step i)).calls[i]? = some ⟨request, began, .going t'⟩ ∧
            t'.goal = .answer timedOut) := by
  have hall := (timed_start hk).play acts
  rw [← hs] at hall
  refine ⟨?_, hall.landings, s.next_giveUp, ?_⟩
  · intro i c kept hc hdone
    have hstage := hall.calls hc
    rw [hdone] at hstage
    obtain ⟨hdeadline, hgave⟩ := hstage rfl
    exact ⟨Request.exists_query_of_deadline? hdeadline, hgave.resolve_left id⟩
  · intro i request began t hi hg
    exact next_step_timedOut hi (hall.calls hi) hg

namespace Shared

/-- A caller compiles, and a second one waits for that with a deadline until it gives up. -/
def impatience (n : Nat) : List (Act H) :=
  [.event (.call (.compile (.map []))), .event (.step 0),
    .event (.call (.query "keys" .empty (.map []) (some .expired))), .event (.step 1), .event (.giveUp 1)] ++
      List.replicate n (.event (.step 1))

/-- The impatient caller is told that its deadline has passed, and no production ends so. -/
theorem deadline_bounds_impatient : ∃ k : Kernel Empty, Kernel.new .default ⟨[]⟩ = .ok k ∧ ∃ n,
    let s : Shared Empty := (start k).play (impatience n)
    ∃ c, s.calls[1]? = some c ∧ c.stage = .done timedOut true ∧
      ((∃ name params raw deadline, c.request = .query name params raw (some deadline)) ∧
        .event (.giveUp 1) ∈ (impatience n : List (Act Empty))) ∧
      ∀ f, s.kernel.cache.landing f ≠ .landed timedOut := by
  obtain ⟨k, hk⟩ : ∃ k : Kernel Empty, Kernel.new .default ⟨[]⟩ = .ok k := ⟨_, rfl⟩
  obtain ⟨v, hv⟩ : ∃ v, k.views.view "keys" = .ok v := by
    rw [new_views hk]
    exact ⟨_, rfl⟩
  have hfind (key : CacheKey) : k.cache.find? key = none := by
    rw [new_cache hk]
    rfl
  have hslot (key : CacheKey) : k.cache.slots.lookup key = none := by
    rw [new_cache hk]
    rfl
  let key : CacheKey := (Snapshot.take k (k.sourceDigest (.map []))).compiledKey
  let query : Request := .query "keys" .empty (.map []) (some .expired)
  -- the first caller leads a flight
  obtain ⟨s₁, hs₁, hkernel, c, hcalls⟩ : ∃ s₁, s₁ = ((start k).next (.call (.compile (.map [])))).next (.step 0) ∧
      s₁.kernel = { k with cache := k.cache.takeOff key } ∧ ∃ c, s₁.calls = [c] :=
    ⟨_, rfl, compile_leads (start k) (.map []) rfl (hfind key) (hslot key)⟩
  -- the second one waits for it
  have hslot' : s₁.kernel.cache.slots.lookup key = some k.cache.flights.size := by
    rw [hkernel]
    exact List.lookup_cons_self
  have hv' : s₁.kernel.views.view "keys" = .ok v := by
    rw [hkernel]
    exact hv
  have hfind' : ∀ key, s₁.kernel.cache.find? key = none := by
    rw [hkernel]
    exact hfind
  obtain ⟨t, hg, hflights, hcalls'⟩ :=
    query_waits s₁ hv' .empty (.map []) .expired (by rw [hkernel]; rfl) hfind' hslot'
  rw [hcalls, List.length_singleton] at hcalls'
  have hwaits := congrArg (·[1]?) hcalls'
  refine ⟨k, hk, t.frames.length + 1, ?_⟩
  intro s
  have htold : s.calls[1]? = some ⟨query, query.snapshot s₁.kernel, .done timedOut true⟩ := by
    simp only [s, impatience, play_append, play_cons, play_nil, act_event]
    rw [← hs₁]
    rw [hcalls, List.length_singleton] at hflights
    refine told_of_wait hwaits hg ?_
    rw [landing_push k.cache k.cache.flights.size (by rw [hflights, hkernel]; rfl), if_pos rfl]
  obtain ⟨hcallers, hlandings, -⟩ := deadline_bounds_caller hk (impatience (t.frames.length + 1)) (s := s) rfl
  exact ⟨_, htold, rfl, hcallers htold rfl, hlandings⟩

end Shared

end Kernel

end ConfigCompiler
