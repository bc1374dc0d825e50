import ConfigCompiler.Proofs.Kernel.Provenance

/-!
# Calls to any kernel come to their ends

With whatever passes and views: who leads the flight of a view may wait for a compilation, and who leads that of
a compilation waits for nobody (`Stage.Ordered`, kept by every act). So without collisions not all calls are
blocked (`Traced.exists_step`), and they can all be answered (`Shared.Runs.exists_answered`).
-/

namespace ConfigCompiler

variable {H : Type}

/-- A key is that of a view over the compilation that a snapshot is about. -/
def CacheKey.IsOfView (B : List UInt8 → Prop) (s : Snapshot H) (key : CacheKey) : Prop :=
  ∃ viewId, key.Names B s.source s.passSet (some viewId)

/-- A call that goes on, in good order. -/
def Kernel.Stage.Ordered (B : List UInt8 → Prop) : Kernel.Stage H → Prop
  | going t => t.Ordered fun s key => key.IsOfView B s
  | done _ _ => True

section
variable {B : List UInt8 → Prop} {q : Quantization} {origins : List Value} {r : Request}
variable {k k' : Kernel H} {t : Task H}

theorem Task.Ordered.turn (h : t.Ordered fun s key => key.IsOfView B s) (hs : t.Sourced B q origins r)
    {progress : Task.Progress H} (hturn : t.Turn k k' progress) : (Kernel.Stage.ofProgress progress).Ordered B := by
  have hmove {t' : Task H} (hm : t.Move k k' t') : t'.Ordered fun s key => key.IsOfView B s := by
    refine h.move (fun {key deadline? v params raw} hg => ?_) hm
    have hgoal := hs.goal
    rw [hg] at hgoal
    cases hgoal with | view viewId hr hnames =>
    exact ⟨viewId, hnames⟩
  cases progress with
  | next t' => exact hmove hturn.move
  | blocked t' =>
    cases hturn
    exact h
  | hook name hook t' => exact hmove hturn.move_of_hook
  | done res => trivial

namespace Kernel

variable {calls others : List (Call H)} {request : Request} {began : Snapshot H}

/-! ## Steps that are possible -/

/-- Whoever is blocked waits for a call that leads the flight of the key. -/
theorem Manned.awaitsLeader (h : Manned k calls) {c : Call H} (hc : c ∈ calls) (ht : c.stage = .going t)
    {t' : Task H} (hblocked : (t.step k).2 = .blocked t') : AwaitsLeader calls t := by
  obtain ⟨key, flight, deadline?, production, hg, hrun⟩ :=
    Task.wait_of_blocked (show t.step k = ((t.step k).1, .blocked t') by rw [← hblocked])
  refine ⟨key, flight, deadline?, production, hg, ?_⟩
  rcases h.waits c hc (key, flight) (by rw [ht, Stage.awaits?, hg]; rfl) with hm | ⟨res, hl⟩
  · obtain ⟨c', hc', hled⟩ := List.mem_flatMap.1 hm
    cases hstage : c'.stage with
    | going t' =>
      rw [hstage] at hled
      obtain ⟨frame, hframe, hslot⟩ := List.mem_filterMap.1 hled
      cases frame with
      | land key' flight' =>
        cases hslot
        exact ⟨c', hc', t', hstage, hframe⟩
      | _ => cases hslot
    | done res kept =>
      rw [hstage] at hled
      cases hled
  · cases hrun.symm.trans hl

/-- If calls go on, one of them is not blocked. -/
theorem Traced.exists_step (h : Traced B q origins k calls) (ho : ∀ c ∈ calls, c.stage.Ordered B)
    (hB : ¬ Digest.Collides B) {c : Call H} (hc : c ∈ calls) (ht : c.stage = .going t) :
    ∃ c' ∈ calls, ∃ t', c'.stage = .going t' ∧ ∀ t'', (t'.step k).2 ≠ .blocked t'' := by
  refine exists_unblocked (V := fun s key => key.IsOfView B s) (fun {c t} hc ht => ?_)
    (fun {c t t'} hc ht hb => h.manned.awaitsLeader hc ht hb)
    (fun {c t key flight deadline? raw} hc ht hg s hview => ?_) hc ht
  · have hstage := ho c hc
    rwa [ht] at hstage
  · have hsourced := h.sourced c hc
    rw [ht] at hsourced
    have hgoal := hsourced.goal
    rw [hg] at hgoal
    cases hgoal with | compile hr hcompiled =>
    obtain ⟨viewId, hview⟩ := hview
    cases (hcompiled.inj hview hB rfl).2

/-- Whoever is not blocked comes nearer to its end. -/
theorem Manned.cost_step (h : Manned k (⟨request, began, .going t⟩ :: others))
    (hn : ∀ t', (t.step k).2 ≠ .blocked t') :
    (Stage.ofProgress (t.step k).2).cost < (Stage.going t).cost := by
  refine Task.cost_step (fun {key flight deadline? production} hg habandoned => ?_) hn
  have hw : (Stage.going t).awaits? = some (key, flight) := by
    rw [Stage.awaits?, hg]
    rfl
  -- flights are not abandoned
  rcases h.waits _ List.mem_cons_self _ hw with hled | ⟨res, hl⟩
  · cases habandoned.symm.trans (h.crewed.running _ hled)
  · cases habandoned.symm.trans hl

namespace Shared

variable {s : Shared H} {a : Act H}

theorem ordered_act (h : Traced B q origins s.kernel s.calls) (ho : ∀ c ∈ s.calls, c.stage.Ordered B) :
    ∀ c ∈ (s.act a).calls, c.stage.Ordered B := by
  intro c hc
  have hchange := s.act_change a
  generalize (s.act a).kernel = k at hchange
  generalize (s.act a).calls = calls at hchange hc
  cases hchange with
  | still hk ha => exact ho c hc
  | began ht =>
    rcases List.mem_append.1 hc with hc | hc
    · exact ho c hc
    · cases List.mem_singleton.1 hc
      exact ⟨ht.quiet.afterAsk, fun _ => .inl ht.quiet⟩
  | refused name =>
    rcases List.mem_append.1 hc with hc | hc
    · exact ho c hc
    · cases List.mem_singleton.1 hc
      trivial
  | @stepped i request began t hi =>
    rcases List.mem_or_eq_of_mem_set hc with hc | rfl
    · exact ho c hc
    · have hm := List.mem_of_getElem? hi
      exact Task.Ordered.turn (ho _ hm) (h.sourced _ hm) (t.step_turn s.kernel)
  | @gaveUp i request began t hi =>
    rcases List.mem_or_eq_of_mem_set hc with hc | rfl
    · exact ho c hc
    · have hordered : (Stage.going t).Ordered B := ho _ (List.mem_of_getElem? hi)
      rcases t.giveUp_cases s.kernel with ⟨key, flight, deadline, production, hg, -, heq⟩ | heq
      · rw [heq]
        exact Task.Ordered.idle hordered.afterAsk rfl
      · rw [heq]
        exact hordered
  | dropped hi =>
    rcases List.mem_or_eq_of_mem_set hc with hc | rfl
    · exact ho c hc
    · trivial
  | invalidated doomed he hcache => exact ho c hc

/-- All calls are in order, whatever has been hashed. -/
def Runs (q : Quantization) (s : Shared H) : Prop :=
  ∀ B : List UInt8 → Prop, (∀ b ∈ s.hashed, B b) →
    (∃ origins, Traced B q origins s.kernel s.calls) ∧ ∀ c ∈ s.calls, c.stage.Ordered B

theorem Runs.act (h : s.Runs q) (ha : a.Sized) : (s.act a).Runs q := by
  intro B hh
  obtain ⟨⟨origins, htraced⟩, hordered⟩ := h B fun b hb => hh b (hashed_act s a hb)
  exact ⟨⟨_, traced_act htraced ha hh⟩, ordered_act htraced hordered⟩

theorem Runs.play (h : s.Runs q) {acts : List (Act H)} (ha : ∀ a ∈ acts, a.Sized) : (s.play acts).Runs q := by
  induction acts generalizing s with
  | nil => exact h
  | cons a acts ih =>
    obtain ⟨ha, hacts⟩ := List.forall_mem_cons.1 ha
    exact ih (h.act ha) hacts

theorem runs_start {settings : Settings} {hierarchy : Hierarchy} {k : Kernel H}
    (hk : Kernel.new settings hierarchy = .ok k) : (start k).Runs settings.quantization := by
  intro B _
  exact ⟨⟨[], traced_start hk⟩, by rintro c ⟨⟩⟩

/-- Calls that go on come to their ends if they are let. -/
theorem Runs.exists_answered (h : s.Runs q) :
    ∃ steps : List Nat, Digest.Collides (· ∈ (s.run (steps.map .step)).hashed) ∨
      (s.run (steps.map .step)).Answered := by
  refine exists_answered_of (fun {s} h hcollides hanswered => ?_) h
  obtain ⟨c, hc, t, ht⟩ := exists_going hanswered
  obtain ⟨⟨origins, htraced⟩, hordered⟩ := h _ fun b hb => hb
  obtain ⟨⟨request, began, stage⟩, hc', t', rfl, hblocked⟩ :=
    htraced.exists_step hordered hcollides hc ht
  obtain ⟨i, hi⟩ := List.getElem?_of_mem hc'
  obtain ⟨others, hp, -⟩ := exists_others hi
  have hcost := (htraced.manned.perm hp).cost_step hblocked
  exact ⟨i, h.act (a := .event (.step i)) trivial, cost_next hi hcost⟩

end Shared

end Kernel

end

end ConfigCompiler
