import ConfigCompiler.Proofs.Kernel.Liveness

/-!
# A kernel and those who call it

`Shared.next` lets any number of callers use one kernel in any order: a caller comes, its task makes a step or
gives up, a payload is dropped, and meanwhile the pass list or the hierarchy is replaced and cached payloads
are invalidated. The bytes that calls hash on the way are written down.

Without collisions among these, every event keeps `Inv` (`Shared.inv_next`), so it holds after every history
(`Shared.inv_run`).
-/

namespace ConfigCompiler.Kernel

variable {H : Type}

inductive Event where
  /-- A caller comes. -/
  | call (request : Request)
  /-- Call `i` makes a step. -/
  | step (i : Nat)
  /-- Call `i` reaches its deadline. -/
  | giveUp (i : Nat)
  /-- The caller of call `i` lets go of the payload. -/
  | drop (i : Nat)
  | setPassList (names : List String)
  | replaceHierarchy (hierarchy : Hierarchy)
  | invalidateSource (source : Digest)

/-- What a history brings in from outside is of a size that there is. -/
def Event.Fits : Event → Prop
  | .call request => request.Fits
  | .replaceHierarchy hierarchy => hierarchy.Proper
  | _ => True

structure Shared (H : Type) where
  kernel : Kernel H
  /-- All calls so far, the first one first. -/
  calls : List (Call H)
  /-- The bytes that calls have hashed. -/
  hashed : List (List UInt8)

namespace Shared

def start (k : Kernel H) : Shared H := ⟨k, [], []⟩

def call (s : Shared H) (request : Request) : Shared H :=
  let began := request.snapshot s.kernel
  match Task.ofRequest s.kernel request with
  | .ok t =>
    { s with
      calls := s.calls ++ [⟨request, began, .going t⟩]
      hashed := request.hashes s.kernel ++ s.hashed }
  | .error e => { s with calls := s.calls ++ [⟨request, began, .done (.error e) false⟩] }

/-- One event; those that cannot happen now change nothing. -/
def next (s : Shared H) : Event → Shared H
  | .call request => s.call request
  | .step i =>
    match s.calls[i]? with
    | some ⟨request, began, .going t⟩ =>
      let (kernel, progress) := t.step s.kernel
      ⟨kernel, s.calls.set i ⟨request, began, .ofProgress progress⟩, t.hashes s.kernel ++ s.hashed⟩
    | _ => s
  | .giveUp i =>
    match s.calls[i]? with
    | some ⟨request, began, .going t⟩ =>
      let (kernel, t) := t.giveUp s.kernel
      { s with kernel, calls := s.calls.set i ⟨request, began, .going t⟩ }
    | _ => s
  | .drop i =>
    match s.calls[i]? with
    | some ⟨request, began, .done (.ok p) true⟩ =>
      { s with
        kernel := s.kernel.release p
        calls := s.calls.set i ⟨request, began, .done (.ok p) false⟩ }
    | _ => s
  | .setPassList names =>
    match s.kernel.setPassList names with
    | .ok kernel => { s with kernel }
    | .error _ => s
  | .replaceHierarchy hierarchy => { s with kernel := (s.kernel.replaceHierarchy hierarchy).1 }
  | .invalidateSource source => { s with kernel := (s.kernel.invalidateSource source).1 }

def run (s : Shared H) (events : List Event) : Shared H := events.foldl next s

/-! ## What has been hashed -/

theorem hashed_next (s : Shared H) (e : Event) {b : List UInt8} (h : b ∈ s.hashed) :
    b ∈ (s.next e).hashed := by
  cases e with
  | call request =>
    simp only [next, call]
    split
    · exact List.mem_append_right _ h
    · exact h
  | step i =>
    simp only [next]
    split
    · exact List.mem_append_right _ h
    · exact h
  | giveUp i | drop i | setPassList names =>
    simp only [next]
    split <;> exact h
  | _ => exact h

theorem hashed_run (s : Shared H) (events : List Event) {b : List UInt8} (h : b ∈ s.hashed) :
    b ∈ (s.run events).hashed := by
  induction events generalizing s with
  | nil => exact h
  | cons e events ih => exact ih (s.next e) (hashed_next s e h)

/-! ## What calls have seen -/

/-- A call stays what it was when it began, or begins now. -/
theorem getElem?_next {s : Shared H} {e : Event} {i : Nat} {c : Call H}
    (h : (s.next e).calls[i]? = some c) :
    (∃ c', s.calls[i]? = some c' ∧ c'.request = c.request ∧ c'.began = c.began) ∨
    e = .call c.request ∧ s.calls.length = i ∧ c.began = c.request.snapshot s.kernel := by
  have hold (h : s.calls[i]? = some c) :
      ∃ c', s.calls[i]? = some c' ∧ c'.request = c.request ∧ c'.began = c.began := ⟨c, h, rfl, rfl⟩
  have hset {j : Nat} {request : Request} {began : Snapshot H} {stage stage' : Stage H}
      (hj : s.calls[j]? = some ⟨request, began, stage⟩)
      (h : (s.calls.set j ⟨request, began, stage'⟩)[i]? = some c) :
      ∃ c', s.calls[i]? = some c' ∧ c'.request = c.request ∧ c'.began = c.began := by
    rw [List.getElem?_set] at h
    split at h
    · rename_i hji
      split at h
      · cases h
        exact ⟨⟨request, began, stage⟩, hji ▸ hj, rfl, rfl⟩
      · cases h
    · exact hold h
  have hlast {request : Request} {stage : Stage H}
      (h : (s.calls ++ [⟨request, request.snapshot s.kernel, stage⟩])[i]? = some c) :
      (∃ c', s.calls[i]? = some c' ∧ c'.request = c.request ∧ c'.began = c.began) ∨
      Event.call request = .call c.request ∧ s.calls.length = i ∧
        c.began = c.request.snapshot s.kernel := by
    rw [List.getElem?_append] at h
    split at h
    · exact .inl (hold h)
    · rw [List.getElem?_singleton] at h
      split at h
      · cases h
        exact .inr ⟨rfl, by omega, rfl⟩
      · cases h
  cases e with
  | call request =>
    simp only [next, call] at h
    split at h <;> exact hlast h
  | step i | giveUp i | drop i =>
    simp only [next] at h
    split at h
    · exact .inl (hset ‹_› h)
    · exact .inl (hold h)
  | setPassList names =>
    simp only [next] at h
    split at h <;> exact .inl (hold h)
  | replaceHierarchy hierarchy => exact .inl (hold h)
  | invalidateSource source => exact .inl (hold h)

/-- What a call of a history saw is the kernel as it was when the caller came. -/
theorem began_of_getElem? {s : Shared H} {events : List Event} {i : Nat} {c : Call H}
    (h : (s.run events).calls[i]? = some c) :
    (∃ c', s.calls[i]? = some c' ∧ c'.request = c.request ∧ c'.began = c.began) ∨
    ∃ before after, events = before ++ .call c.request :: after ∧
      (s.run before).calls.length = i ∧ c.began = c.request.snapshot (s.run before).kernel := by
  induction events generalizing s with
  | nil => exact .inl ⟨c, h, rfl, rfl⟩
  | cons e events ih =>
    rcases ih h with ⟨c', hc', hrequest, hbegan⟩ | ⟨before, after, rfl, hlen, hbegan⟩
    · rcases getElem?_next hc' with ⟨c'', hc'', hr, hb⟩ | ⟨rfl, hlen, hb⟩
      · exact .inl ⟨c'', hc'', hr.trans hrequest, hb.trans hbegan⟩
      · rw [hrequest] at hb ⊢
        exact .inr ⟨[], events, rfl, hlen, hbegan.symm.trans hb⟩
    · exact .inr ⟨e :: before, after, rfl, hlen, hbegan⟩

/-! ## Histories -/

variable {B : List UInt8 → Prop} {q : Quantization} {s : Shared H}

/-- One call changes and the others stay, up to their order. -/
theorem exists_others {calls : List (Call H)} {i : Nat} {c : Call H} (h : calls[i]? = some c) :
    ∃ others, calls.Perm (c :: others) ∧ ∀ c', (calls.set i c').Perm (c' :: others) := by
  obtain ⟨hi, rfl⟩ := List.getElem?_eq_some_iff.1 h
  exact ⟨calls.eraseIdx i, (List.getElem_cons_eraseIdx_perm hi).symm,
    fun c' => List.set_perm_cons_eraseIdx hi c'⟩

/-- What every event keeps. -/
structure Kept (B : List UInt8 → Prop) (q : Quantization) (s : Shared H) : Prop where
  inv : Inv B q s.kernel s.calls
  live : Live B q s.kernel s.calls

theorem Kept.next (hB : ¬ Digest.Collides B) (h : s.Kept B q) {e : Event} (he : e.Fits)
    (hh : ∀ b ∈ (s.next e).hashed, B b) : (s.next e).Kept B q := by
  obtain ⟨hi, hl⟩ := h
  cases e with
  | call request =>
    have hp (c : Call H) := (List.perm_append_singleton c s.calls).symm
    simp only [Shared.next, call] at hh ⊢
    rcases hi.call he with ⟨t, ht, hq, hcall⟩ | ⟨e, ht, hcall⟩
    · simp only [ht, List.forall_mem_append] at hh ⊢
      exact ⟨(hcall hh.1).perm (hp _), (hl.call hq).perm (hp _)⟩
    · simp only [ht]
      exact ⟨hcall.perm (hp _), (hl.refused e).perm (hp _)⟩
  | step i =>
    simp only [Shared.next] at hh ⊢
    split
    · rename_i request began t hc
      simp only [hc, List.forall_mem_append] at hh
      obtain ⟨others, hp, hset⟩ := exists_others hc
      exact ⟨((hi.perm hp).step hB hh.1).perm (hset _).symm,
        ((hl.perm hp).step hB (hi.perm hp) hh.1).perm (hset _).symm⟩
    · exact ⟨hi, hl⟩
  | giveUp i =>
    simp only [Shared.next]
    split
    · rename_i request began t hc
      obtain ⟨others, hp, hset⟩ := exists_others hc
      exact ⟨(hi.perm hp).giveUp.perm (hset _).symm, (hl.perm hp).giveUp.perm (hset _).symm⟩
    · exact ⟨hi, hl⟩
  | drop i =>
    simp only [Shared.next]
    split
    · rename_i request began p hc
      obtain ⟨others, hp, hset⟩ := exists_others hc
      exact ⟨(hi.perm hp).drop.perm (hset _).symm, (hl.perm hp).release.perm (hset _).symm⟩
    · exact ⟨hi, hl⟩
  | setPassList names =>
    simp only [Shared.next]
    split
    · rename_i kernel hk
      exact ⟨hi.setPassList hk, hl.setPassList hk⟩
    · exact ⟨hi, hl⟩
  | replaceHierarchy hierarchy => exact ⟨hi.replaceHierarchy he, hl.replaceHierarchy hierarchy⟩
  | invalidateSource source => exact ⟨hi.invalidateSource source, hl.invalidateSource source⟩

/-- Without collisions among what is hashed, every history keeps what each event keeps. -/
theorem Kept.run (hB : ¬ Digest.Collides B) (h : s.Kept B q) {events : List Event}
    (he : ∀ e ∈ events, e.Fits) (hh : ∀ b ∈ (s.run events).hashed, B b) : (s.run events).Kept B q := by
  induction events generalizing s with
  | nil => exact h
  | cons e events ih =>
    obtain ⟨he, hes⟩ := List.forall_mem_cons.1 he
    exact ih (h.next hB he fun b hb => hh b (hashed_run (s.next e) events hb)) hes hh

/-- A kernel that nobody has called. -/
theorem kept_start {settings : Settings} {hierarchy : Hierarchy} {k : Kernel H} (hp : hierarchy.Proper)
    (ho : settings.overridePairs = []) (hk : Kernel.new settings hierarchy = .ok k) :
    (start k).Kept B settings.quantization := by
  obtain ⟨hstandard, hc, hs⟩ := new_standard hp ho hk
  refine ⟨⟨[], sound_of_empty hstandard hc hs, by rintro c ⟨⟩⟩, fun f hf => ?_, by rintro c ⟨⟩⟩
  change f < k.cache.flights.size at hf
  rw [hc] at hf
  cases hf

/-! ## Histories that go on until all calls are answered -/

def Answered (s : Shared H) : Prop := ∀ c ∈ s.calls, ∃ res kept, c.stage = .done res kept

def cost (s : Shared H) : Nat := (s.calls.map (·.stage.cost)).sum

theorem next_step {i : Nat} {request : Request} {began : Snapshot H} {t : Task H}
    (h : s.calls[i]? = some ⟨request, began, .going t⟩) : s.next (.step i) =
      ⟨(t.step s.kernel).1, s.calls.set i ⟨request, began, .ofProgress (t.step s.kernel).2⟩,
        t.hashes s.kernel ++ s.hashed⟩ := by simp only [next, h]

theorem exists_going (h : ¬ s.Answered) : ∃ c ∈ s.calls, ∃ t, c.stage = .going t := by
  refine Classical.byContradiction fun hnone => h fun c hc => ?_
  cases hstage : c.stage with
  | going t => exact absurd ⟨c, hc, t, hstage⟩ hnone
  | done res kept => exact ⟨res, kept, rfl⟩

theorem cost_next {i : Nat} {request : Request} {began : Snapshot H} {t : Task H}
    (hi : s.calls[i]? = some ⟨request, began, .going t⟩)
    (h : (Stage.ofProgress (t.step s.kernel).2).cost < (Stage.going t).cost) : (s.next (.step i)).cost < s.cost := by
  obtain ⟨others, hp, hset⟩ := exists_others hi
  rw [next_step hi, cost, cost, ((hset _).map _).sum_eq, (hp.map _).sum_eq, List.map_cons, List.map_cons,
    List.sum_cons, List.sum_cons]
  exact Nat.add_lt_add_right h _

/-- Calls come to their ends if, as long as some go on, one of them can make a step that brings it nearer. -/
theorem exists_answered_of {P : Shared H → Prop} (hgo : ∀ {s : Shared H}, P s → ¬ Digest.Collides (· ∈ s.hashed) →
      ¬ s.Answered → ∃ i, P (s.next (.step i)) ∧ (s.next (.step i)).cost < s.cost) (hs : P s) :
    ∃ steps : List Nat, Digest.Collides (· ∈ (s.run (steps.map .step)).hashed) ∨
      (s.run (steps.map .step)).Answered := by
  induction hn : s.cost using Nat.strongRecOn generalizing s with
  | _ n ih =>
    by_cases hcollides : Digest.Collides (· ∈ s.hashed)
    · exact ⟨[], .inl hcollides⟩
    by_cases hanswered : s.Answered
    · exact ⟨[], .inr hanswered⟩
    obtain ⟨i, hs', hcost⟩ := hgo hs hcollides hanswered
    obtain ⟨steps, hsteps⟩ := ih _ (hn ▸ hcost) hs' rfl
    exact ⟨i :: steps, hsteps⟩

/-- Calls that go on come to their ends if they are let. -/
theorem exists_answered (hs : ∀ {B}, ¬ Digest.Collides B → (∀ b ∈ s.hashed, B b) → s.Kept B q) :
    ∃ steps : List Nat, Digest.Collides (· ∈ (s.run (steps.map .step)).hashed) ∨
      (s.run (steps.map .step)).Answered := by
  let P (s : Shared H) : Prop := ∀ {B}, ¬ Digest.Collides B → (∀ b ∈ s.hashed, B b) → s.Kept B q
  refine exists_answered_of (P := P) (fun {s} hs hcollides hanswered => ?_) hs
  -- some call goes on, so one of those that do is not blocked
  obtain ⟨c, hc, t, ht⟩ := exists_going hanswered
  have hkept := hs hcollides fun b hb => hb
  obtain ⟨⟨request, began, stage⟩, hc', t', rfl, hblocked⟩ :=
    hkept.live.exists_step hcollides hkept.inv hc ht
  obtain ⟨i, hi⟩ := List.getElem?_of_mem hc'
  obtain ⟨others, hp, -⟩ := exists_others hi
  refine ⟨i, fun hB hh => ?_, cost_next hi ((hkept.inv.perm hp).cost_step hblocked)⟩
  exact (hs hB fun b hb => hh b (hashed_next s _ hb)).next hB trivial hh

end Shared

end ConfigCompiler.Kernel
