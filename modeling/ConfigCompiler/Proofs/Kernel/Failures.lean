import ConfigCompiler.Proofs.Cache.Failure
import ConfigCompiler.Proofs.Kernel.Acts

/-!
# Failures on their way to the caller

A task that has come to a failure does nothing any more but hand it to its frames (`Task.step_failure`): those
that lead a flight end it so, and nothing else of the kernel changes (`Frame.handOn`). So whatever else goes on,
its call ends with that failure (`Shared.failsWith_play`), after one step for each frame and one more
(`Shared.failed_of_steps`).
-/

namespace ConfigCompiler

variable {H : Type}

/-- What a kernel becomes when a frame hands on a failure. -/
def Frame.handOn (k : Kernel H) (e : KernelError) : Frame → Kernel H
  | .land key flight => { k with cache := k.cache.vacate key flight (·.land (.error e)) }
  | _ => k

theorem Frame.handOn_entries (frame : Frame) (k : Kernel H) (e : KernelError) :
    (frame.handOn k e).cache.entries = k.cache.entries := by cases frame <;> rfl

theorem Task.step_failure {t : Task H} {e : KernelError} (hg : t.goal = .answer (.error e)) (k : Kernel H) :
    t.frames = [] ∧ t.step k = (k, .done (.error e)) ∨
      ∃ frame frames, t.frames = frame :: frames ∧
        t.step k = (frame.handOn k e, .next ⟨t.snapshot, .answer (.error e), frames⟩) := by
  unfold Task.step
  rw [hg]
  cases ht : t.frames with
  | nil => exact .inl ⟨rfl, rfl⟩
  | cons frame frames =>
    refine .inr ⟨frame, frames, rfl, ?_⟩
    cases frame <;> rfl

namespace Kernel

/-- A call is on its way to a failure, or has been answered so. -/
def Stage.FailsWith (e : KernelError) : Stage H → Prop
  | .going t => t.goal = .answer (.error e)
  | .done res _ => res = .error e

namespace Shared

variable {s : Shared H} {i : Nat} {e : KernelError}

theorem failsWith_act {c : Call H} (hi : s.calls[i]? = some c) (hc : c.stage.FailsWith e) (a : Act H) :
    ∃ c', (s.act a).calls[i]? = some c' ∧ c'.stage.FailsWith e := by
  have hlt := (List.getElem?_eq_some_iff.1 hi).1
  -- the calls of others do not matter
  have hset {j : Nat} {c' : Call H} (h : j = i → c'.stage.FailsWith e) :
      ∃ c'', (s.calls.set j c')[i]? = some c'' ∧ c''.stage.FailsWith e := by
    by_cases hj : j = i
    · subst hj
      exact ⟨c', List.getElem?_set_self hlt, h rfl⟩
    · exact ⟨c, (List.getElem?_set_ne hj).trans hi, hc⟩
  have happend (c' : Call H) : ∃ c'', (s.calls ++ [c'])[i]? = some c'' ∧ c''.stage.FailsWith e :=
    ⟨c, (List.getElem?_append_left hlt).trans hi, hc⟩
  have hchange := s.act_change a
  generalize (s.act a).kernel = kernel at hchange
  generalize (s.act a).calls = calls at hchange ⊢
  cases hchange with
  | still hk ha => exact ⟨c, hi, hc⟩
  | began ht => exact happend _
  | refused name => exact happend _
  | @stepped j request began t hj =>
    refine hset fun hji => ?_
    subst hji
    cases hi.symm.trans hj
    rcases Task.step_failure hc s.kernel with ⟨-, hstep⟩ | ⟨frame, frames, -, hstep⟩ <;> rw [hstep]
    · rfl
    · rfl
  | @gaveUp j request began t hj =>
    refine hset fun hji => ?_
    subst hji
    cases hi.symm.trans hj
    have hgoal : t.goal = .answer (.error e) := hc
    rcases t.giveUp_cases s.kernel with ⟨key, flight, deadline, production, hg, -, -⟩ | heq
    · rw [hg] at hgoal
      cases hgoal
    · rw [heq]
      exact hc
  | @dropped j request began p hj =>
    refine hset fun hji => ?_
    subst hji
    cases hi.symm.trans hj
    exact hc
  | invalidated doomed he hcache => exact ⟨c, hi, hc⟩

/-- Whatever else goes on, the call comes to no other answer. -/
theorem failsWith_play {c : Call H} (hi : s.calls[i]? = some c) (hc : c.stage.FailsWith e) (acts : List (Act H)) :
    ∃ c', (s.play acts).calls[i]? = some c' ∧ c'.stage.FailsWith e := by
  induction acts generalizing s c with
  | nil => exact ⟨c, hi, hc⟩
  | cons a acts ih =>
    obtain ⟨c', hi', hc'⟩ := failsWith_act hi hc a
    exact ih hi' hc'

/-- The steps of such a call leave the entries of the cache as they are. -/
theorem entries_of_failsWith {c : Call H} (hi : s.calls[i]? = some c) (hc : c.stage.FailsWith e) :
    (s.next (.step i)).kernel.cache.entries = s.kernel.cache.entries := by
  obtain ⟨request, began, stage⟩ := c
  cases stage with
  | going t =>
    rw [next_step hi]
    rcases Task.step_failure hc s.kernel with ⟨-, hstep⟩ | ⟨frame, frames, -, hstep⟩ <;> rw [hstep]
    exact frame.handOn_entries s.kernel e
  | done res kept => simp only [next, hi]

theorem failed_of_steps {request : Request} {began : Snapshot H} {t : Task H}
    (hi : s.calls[i]? = some ⟨request, began, .going t⟩) (hg : t.goal = .answer (.error e)) :
    (s.play (List.replicate (t.frames.length + 1) (.event (.step i)))).calls[i]? =
        some ⟨request, began, .done (.error e) true⟩ ∧
      (s.play (List.replicate (t.frames.length + 1) (.event (.step i)))).kernel =
        t.frames.foldl (fun k frame => frame.handOn k e) s.kernel := by
  have hlt := (List.getElem?_eq_some_iff.1 hi).1
  induction hframes : t.frames generalizing s t with
  | nil =>
    simp only [List.length_nil, List.replicate, play_cons, play_nil, act_event]
    rcases Task.step_failure hg s.kernel with ⟨-, hstep⟩ | ⟨frame, frames, ht, -⟩
    · rw [next_step hi, hstep]
      exact ⟨List.getElem?_set_self hlt, rfl⟩
    · rw [hframes] at ht
      cases ht
  | cons frame frames ih =>
    rw [List.length_cons, List.replicate_succ, play_cons, act_event]
    rcases Task.step_failure hg s.kernel with ⟨ht, -⟩ | ⟨frame', frames', ht, hstep⟩
    · rw [hframes] at ht
      cases ht
    · rw [hframes] at ht
      cases ht
      rw [next_step hi, hstep]
      refine ih (t := ⟨t.snapshot, .answer (.error e), frames⟩) ?_ rfl ?_ rfl
      · exact List.getElem?_set_self hlt
      · rw [List.length_set]
        exact hlt

end Shared

end Kernel

end ConfigCompiler
