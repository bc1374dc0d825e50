import ConfigCompiler.Proofs.Kernel.Turns

/-!
# Steps of calls

`Going`: a task is on its way to the answer of its call. Whatever else goes on in its kernel, each of its steps
keeps it there and keeps the kernel sound (`Task.step_going`), and so does giving up (`Task.giveUp_going`). A
step changes what the task holds, the rest is the same before and after it.
-/

namespace ConfigCompiler

variable {H : Type}

/-! ## What goals hold -/

/-- The payload that a goal holds. -/
def Goal.refs : Goal H → List Payload
  | .answer res => Kernel.handed res
  | _ => []

/-- The nodes that a goal holds. -/
def Goal.nodes : Goal H → List Interned
  | .run r => r.draft.nodes
  | _ => []

/-- How often a goal waits for a flight. -/
def Goal.waits : Goal H → Nat → Nat
  | .wait _ flight _ _, f => if flight = f then 1 else 0
  | _, _ => 0

/-- A task that a call began with a snapshot goes on in a kernel, in which others hold `refs` and `nodes`. -/
structure Going (B : List UInt8 → Prop) (q : Quantization) (dest : List CacheKey) (s : Snapshot H)
    (w : Want) (refs : List Payload) (nodes : List Interned) (waits : Nat → Nat) (k : Kernel H)
    (t : Task H) : Prop where
  snapshot : t.snapshot = s
  toward : t.Toward B q dest w
  sound : k.Sound B q dest (t.goal.refs ++ refs) (t.goal.nodes ++ nodes)
    fun f => waits f + t.goal.waits f

/-- The keys that a production derives; the bytes are hashed. -/
def Production.hashes (s : Snapshot H) : Production → List (List UInt8)
  | .compile _ => []
  | _ => [CacheKey.encoded s.source s.passSet none]

/-- What is hashed by a step: a caller who leads a flight for a view derives the key of its compilation. -/
def Task.hashes (k : Kernel H) (t : Task H) : List (List UInt8) :=
  match t.goal with
  | .ask key _ production =>
    match (k.cache.enter key).2 with
    | .lead _ => production.hashes t.snapshot
    | _ => []
  | _ => []

section
variable {B : List UInt8 → Prop} {q : Quantization} {dest : List CacheKey} {s : Snapshot H}
variable {k : Kernel H} {t : Task H} {w w₁ : Want} {key : CacheKey} {flight : Nat}
variable {refs : List Payload} {nodes : List Interned} {waits : Nat → Nat}
variable {deadline? : Option Deadline} {production : Production} {res : Except KernelError Payload}

/-! ## Productions -/

/-- A production makes what is wanted. -/
inductive Makes (B : List UInt8 → Prop) (q : Quantization) (s : Snapshot H) : Production → Want → Prop
  | compile {raw : Value} (hr : s.Reads B q raw) : Makes B q s (.compile raw) (.compiled raw)
  | view {v : View} {params : Params} {raw : Value} (hv : v ∈ View.builtins) (hr : s.Reads B q raw) :
      Makes B q s (.view v params raw) (.view v params)
  | viewOfCached {v : View} {params : Params} (hv : v ∈ View.builtins) :
      Makes B q s (.viewOfCached v params) (.view v params)

/-- Who leads a flight produces for all who ask for its key, also if it needs less itself. -/
theorem Asks.lead (h : Asks B q s key deadline? production w₁) (hd : dest[flight]? = some key)
    {fs : List Frame} (hs : Stack B q dest s w₁ fs w) :
    ∃ w₂, Makes B q s production w₂ ∧ Stack B q dest s w₂ (.land key flight :: fs) w := by
  cases h with
  | @compile raw hk => exact ⟨.compiled raw, .compile hk.2.2, .land trivial hk hd hs⟩
  | @compileUntil raw _ hk => exact ⟨.compiled raw, .compile hk.2.2, .land trivial hk hd (.loosen hs)⟩
  | @view v params raw _ hk hr => exact ⟨.view v params, .view hk.2.2.1 hr, .land trivial hk hd hs⟩
  | @viewOfCached v params _ hk =>
    exact ⟨.view v params, .viewOfCached hk.2.2.1, .land trivial hk hd hs⟩

theorem produce_going (hB : ¬ Digest.Collides B) (hk : k.Sound B q dest refs nodes waits)
    (hv : s.Valid B q) (ht : t.snapshot = s) (hm : Makes B q s production w₁)
    (hs : Stack B q dest s w₁ t.frames w) (hh : ∀ b ∈ production.hashes s, B b) :
    Going B q dest s w refs nodes waits (Task.produce k t production).1
      (Task.produce k t production).2 := by
  subst ht
  cases hm with
  | @compile raw hr =>
    refine ⟨rfl, ⟨hv, .compiled raw, .run hr ⟨rfl, hv.isStep, rfl⟩, hs⟩, hk⟩
  | @view v params raw hview hr =>
    have hkey : (Want.compiled raw).IsKey B q t.snapshot t.snapshot.compiledKey :=
      ⟨rfl, hh _ List.mem_cons_self, hr⟩
    exact ⟨rfl, ⟨hv, .someCompiled, .ask (.compileUntil none hkey), .materialize _ hview hs⟩, hk⟩
  | @viewOfCached v params hview =>
    have hkey : Want.someCompiled.IsKey B q t.snapshot t.snapshot.compiledKey :=
      ⟨rfl, hh _ List.mem_cons_self⟩
    simp only [Task.produce]
    rcases Cache.get_cases k.cache t.snapshot.compiledKey with ⟨e, hf, hget⟩ | ⟨-, hget⟩
    · simp only [hget]
      obtain ⟨he, hekey⟩ := Cache.find?_eq_some hf
      have hmet := (hekey ▸ hk.sane.entries e he).met hB hv hkey
      exact ⟨rfl, ⟨hv, .someCompiled, .answer hmet, .materialize _ hview hs⟩, hk.hit he⟩
    · simp only [hget]
      refine ⟨rfl, ⟨hv, .view v params, .answer ?_, hs⟩, hk⟩
      exact Want.met_error (fun _ h => by cases h) _

/-! ## Asking and waiting -/

theorem ask_going (hB : ¬ Digest.Collides B) (h : Going B q dest s w refs nodes waits k t)
    (hg : t.goal = .ask key deadline? production) (hh : ∀ b ∈ t.hashes k, B b) :
    ∃ more, Going B q (dest ++ more) s w refs nodes waits (Task.ask k t key deadline? production).1
      (Task.ask k t key deadline? production).2 := by
  obtain ⟨s', goal, frames⟩ := t
  subst hg
  obtain ⟨rfl, ⟨hv, w₁, hgoal, hs⟩, hk⟩ := h
  cases hgoal with | ask ha =>
  have hk : k.Sound B q dest refs nodes waits := hk
  simp only [Task.ask, Task.hashes] at hh ⊢
  rcases Cache.enter_cases k.cache key with ⟨e, hf, he⟩ | ⟨f, hf, hslot, he⟩ | ⟨hf, -, he⟩
  · simp only [he]
    obtain ⟨hmem, hekey⟩ := Cache.find?_eq_some hf
    have hmet := (hekey ▸ hk.sane.entries e hmem).met hB hv ha.isKey
    exact ⟨[], rfl, ⟨hv, w₁, .answer hmet, hs.mono []⟩, (List.append_nil dest).symm ▸ hk.hit hmem⟩
  · simp only [he]
    refine ⟨[], rfl, ⟨hv, w₁, .wait ha (getElem?_of_append (hk.sane.slots hslot).1 []), hs.mono []⟩, ?_⟩
    exact (List.append_nil dest).symm ▸ hk.join hslot
  · simp only [he] at hh ⊢
    have hd : (dest ++ [key])[k.cache.flights.size]? = some key := by
      rw [← hk.sane.size, List.getElem?_concat_length]
    obtain ⟨w₂, hm, hs'⟩ := ha.lead hd (hs.mono [key])
    exact ⟨[key], produce_going hB (hk.takeOff rfl rfl rfl) hv rfl hm hs' hh⟩

/-- What a step comes to: the task goes on, is blocked, or is over with an answer that was wanted. -/
inductive Stepped (B : List UInt8 → Prop) (q : Quantization) (dest : List CacheKey) (s : Snapshot H)
    (w : Want) (refs : List Payload) (nodes : List Interned) (waits : Nat → Nat) (k : Kernel H)
    (t : Task H) : Kernel H × Task.Progress H → Prop
  | next {k' : Kernel H} {t' : Task H} (more : List CacheKey)
      (h : Going B q (dest ++ more) s w refs nodes waits k' t') :
      Stepped B q dest s w refs nodes waits k t (k', .next t')
  | blocked : Stepped B q dest s w refs nodes waits k t (k, .blocked t)
  | done {res : Except KernelError Payload} (hg : t.goal = .answer res) (hm : w.Met B q s res) :
      Stepped B q dest s w refs nodes waits k t (k, .done res)

theorem Stepped.next' {k' : Kernel H} {t' : Task H} (h : Going B q dest s w refs nodes waits k' t') :
    Stepped B q dest s w refs nodes waits k t (k', .next t') :=
  .next [] ((List.append_nil dest).symm ▸ h)

theorem wait_stepped (hB : ¬ Digest.Collides B) (h : Going B q dest s w refs nodes waits k t)
    (hg : t.goal = .wait key flight deadline? production) :
    Stepped B q dest s w refs nodes waits k t (Task.wait k t key flight deadline? production) := by
  obtain ⟨s', goal, frames⟩ := t
  subst hg
  obtain ⟨rfl, ⟨hv, w₁, hgoal, hs⟩, hk⟩ := h
  cases hgoal with | wait ha hd =>
  have hlt : flight < k.cache.flights.size := by
    rw [← hk.sane.size]
    exact (List.getElem?_eq_some_iff.1 hd).1
  simp only [Task.wait]
  cases hl : k.cache.landing flight with
  | running => exact .blocked
  | landed res =>
    obtain ⟨key', hd', hr⟩ := hk.sane.landed hl
    cases hd.symm.trans hd'
    have hk' := hk.coalesce.stopWaiting hlt (Kernel.handed res) (.inr ⟨res, hl, rfl⟩)
    exact .next' ⟨rfl, ⟨hv, w₁, .answer (hr.met hB hv ha.isKey), hs⟩, hk'⟩
  | abandoned => exact .next' ⟨rfl, ⟨hv, w₁, .ask ha, hs⟩, hk.stopWaiting hlt [] (.inl rfl)⟩

/-- A caller with a deadline asks for nothing whose failure would tell anything. -/
theorem Asks.met_error {d : Deadline} (h : Asks B q s key (some d) production w₁) (e : KernelError) :
    w₁.Met B q s (.error e) := by
  refine Want.met_error (fun raw hw => ?_) e
  subst hw
  cases h

theorem Task.giveUp_going (h : Going B q dest s w refs nodes waits k t) :
    Going B q dest s w refs nodes waits (Task.giveUp k t).1 (Task.giveUp k t).2 := by
  rcases t.giveUp_cases k with ⟨key, flight, d, production, hg, -, heq⟩ | heq
  · rw [heq]
    obtain ⟨s', goal, frames⟩ := t
    subst hg
    obtain ⟨rfl, ⟨hv, w₁, hgoal, hs⟩, hk⟩ := h
    cases hgoal with | wait ha hd =>
    have hlt : flight < k.cache.flights.size := by
      rw [← hk.sane.size]
      exact (List.getElem?_eq_some_iff.1 hd).1
    exact ⟨rfl, ⟨hv, w₁, .answer (ha.met_error _), hs⟩, hk.stopWaiting hlt [] (.inl rfl)⟩
  · rw [heq]
    exact h

/-! ## Runs -/

theorem run_stepped (hB : ¬ Digest.Collides B) (h : Going B q dest s w refs nodes waits k t) {r : Run H}
    (hg : t.goal = .run r) : Stepped B q dest s w refs nodes waits k t (Task.run k t r) := by
  obtain ⟨s', goal, frames⟩ := t
  subst hg
  obtain ⟨rfl, ⟨hv, w₁, hgoal, hs⟩, hk⟩ := h
  cases hgoal with | @run raw _ hr hrun =>
  obtain ⟨rfl, hstep, hforecast⟩ := hrun
  have hgiven : (s'.premises k).setting q r.draft.source = s'.setting q r.draft.source := by
    have ho : k.overrides = .none := hk.sane.standard.overrides
    rw [Premises.setting, Snapshot.premises, Snapshot.setting, ho]
  obtain ⟨handles, hstore, hchange⟩ := hk.store
  rw [show (Goal.run r).nodes = r.draft.nodes from rfl, List.append_assoc] at hstore
  have hspec := Run.step_spec hB hstep (s'.premises k) hr.proper hr.hashed hstore
  rw [hgiven, hforecast] at hspec
  unfold Task.run
  rcases hspec with ⟨store, p, r', hr', hrest, hsrc, hs', hx⟩ | ⟨store, tr, c, x, hr', hs', hc, hx⟩ |
    ⟨store, tr, e, hr', hs', hx⟩
  · simp only [hr']
    rw [← List.append_assoc] at hs'
    have hrun' : OnCourse q s' r.draft.source r' :=
      ⟨hsrc, fun p' hp' => hstep p' (hrest ▸ List.mem_cons_of_mem p hp'), hx⟩
    exact .next' ⟨rfl, ⟨hv, _, .run hr hrun', hs⟩, hchange hs'⟩
  · simp only [hr']
    rw [← List.append_assoc] at hs'
    exact .next' ⟨rfl, ⟨hv, .compiled r.draft.source, .answer ⟨c, x, _, rfl, hc, hr, hx⟩, hs⟩,
      ((hchange hs').record _).wrap⟩
  · simp only [hr']
    exact .next' ⟨rfl, ⟨hv, .compiled r.draft.source, .answer hx, hs⟩, hchange hs'⟩

/-! ## Frames -/

theorem resume_expect {kind : Payload.Kind} (hkind : ∀ p, res = .ok p → p.content.kind = kind) :
    Task.resume k t res (.expect kind key) = (k, t.answer res) := by
  cases res with
  | error e => rfl
  | ok p => simp only [Task.resume, hkind p rfl, if_true]

theorem materialize_sound (key : CacheKey) {p : Payload} {v : View} (params : Params)
    (hk : k.Sound B q dest (p :: refs) nodes waits) (hv : v ∈ View.builtins)
    (hm : ShowsCompiled B q s p) :
    (Task.materialize k p key v params).1.Sound B q dest
      (Kernel.handed (Task.materialize k p key v params).2 ++ refs) nodes waits ∧
    (Want.view v params).Met B q s (Task.materialize k p key v params).2 := by
  obtain ⟨c, x, raw, hc, hx, hr, hf⟩ := hm
  unfold Task.materialize
  simp only [hc]
  cases hres : v.materialize c params with
  | error e => exact ⟨hk.release, trivial⟩
  | ok r =>
    have hnodes : ∀ n ∈ (Payload.Content.view r).nodes, n ∈ p.content.nodes := fun n hn => by
      rw [hc]
      exact View.mem_nodes_of_materialize hv hres hn
    have hmade := ((hk.retainAll hnodes).wrap.perm (List.Perm.swap ..) (.refl _)).release
    refine ⟨hmade, r, c, x, raw, rfl, hx, hr, hf, ?_⟩
    rw [hres]
    exact .ok (.refl r)

theorem resume_going (hk : k.Sound B q dest (Kernel.handed res ++ refs) nodes waits)
    (hv : t.snapshot.Valid B q) (ht : t.snapshot = s) (hm : w₁.Met B q s res) {frame : Frame}
    (hs : Stack B q dest s w₁ (frame :: t.frames) w) :
    Going B q dest s w refs nodes waits (Task.resume k t res frame).1 (Task.resume k t res frame).2 := by
  subst ht
  generalize hfs : frame :: t.frames = frames at hs
  induction hs with
  | nil w => cases hfs
  | loosen _ ih => exact ih hm.loosen hfs
  | expectCompiled key h | expectSome key h =>
    cases hfs
    rw [resume_expect fun p hp => ?_]
    · exact ⟨rfl, ⟨hv, _, .answer hm, h⟩, hk⟩
    · subst hp
      obtain ⟨c, x, raw, hc, -⟩ := hm
      rw [hc]
      rfl
  | expectView key h =>
    cases hfs
    rw [resume_expect fun p hp => ?_]
    · exact ⟨rfl, ⟨hv, _, .answer hm, h⟩, hk⟩
    · subst hp
      obtain ⟨r, c, x, raw, hc, -⟩ := hm
      rw [hc]
      rfl
  | @materialize v params fs w key hview h =>
    cases hfs
    cases res with
    | error e => exact ⟨rfl, ⟨hv, .view v params, .answer trivial, h⟩, hk⟩
    | ok p =>
      obtain ⟨hk', hm'⟩ := materialize_sound key params hk hview hm
      exact ⟨rfl, ⟨hv, .view v params, .answer hm', h⟩, hk'⟩
  | @land w w' fs key flight hfirm hkey hd h =>
    cases hfs
    exact ⟨rfl, ⟨hv, w, .answer hm, h⟩, hk.land hd ⟨t.snapshot, w, hv, hfirm, hkey, hm⟩⟩
  | @thenAsk w w' fs key deadline? production hw ha h =>
    cases hfs
    cases res with
    | error e => exact ⟨rfl, ⟨hv, w, .answer (Want.met_error hw e), h⟩, hk⟩
    | ok p => exact ⟨rfl, ⟨hv, w, .ask ha, h⟩, Kernel.Sound.release hk⟩

/-! ## Steps -/

theorem Stack.met_of_nil (h : Stack B q dest s w₁ [] w) (hm : w₁.Met B q s res) : w.Met B q s res := by
  generalize hfs : ([] : List Frame) = frames at h
  induction h with
  | nil w => exact hm
  | loosen _ ih => exact ih hm.loosen hfs
  | _ => cases hfs

/-- Each step of a task keeps it on its way and its kernel sound. -/
theorem Task.step_going (hB : ¬ Digest.Collides B) (h : Going B q dest s w refs nodes waits k t)
    (hh : ∀ b ∈ t.hashes k, B b) : Stepped B q dest s w refs nodes waits k t (t.step k) := by
  unfold Task.step
  cases hg : t.goal with
  | ask key deadline? production =>
    obtain ⟨more, hnext⟩ := ask_going hB h hg hh
    exact .next more hnext
  | wait key flight deadline? production => exact wait_stepped hB h hg
  | run r => exact run_stepped hB h hg
  | answer res =>
    obtain ⟨hsnapshot, ⟨hv, w₁, hgoal, hs⟩, hk⟩ := h
    rw [hg] at hgoal hk
    cases hgoal with | answer hm =>
    rw [hsnapshot] at hv hm hs
    cases hf : t.frames with
    | nil => exact .done hg ((hf ▸ hs).met_of_nil hm)
    | cons frame frames =>
      exact .next' (resume_going (t := { t with frames }) hk (hsnapshot ▸ hv) hsnapshot hm (hf ▸ hs))

end

end ConfigCompiler
