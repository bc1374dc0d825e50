import ConfigCompiler.Proofs.Kernel.Crews
import ConfigCompiler.Proofs.Kernel.Identity
import ConfigCompiler.Proofs.Kernel.Payloads

/-!
# What payloads are derived from

A compilation is derived from the raw configuration that its pipeline ran on, and a view from the one that its
compilation is derived from: `Shared.origins` keeps account of these, for each payload in the order in which
they are made. All that a call asks for, leads and waits for is for the digest of the configuration that it is
about (`Task.Sourced`), and so is every payload that comes its way; hence each entry's payload is derived from a
configuration with the digest that the entry's key names (`Traced`, kept by every act: `Shared.traced_play`).
-/

namespace ConfigCompiler

variable {H : Type}

/-! ## Origins -/

/-- The raw configuration that a request hands over. -/
def Request.raw? : Request → Option Value
  | compile raw => some raw
  | query _ _ raw _ => some raw
  | queryCompiled _ _ _ => none

/--
Whether a payload is derived from a configuration with a digest, where `origins` are the configurations that the
payloads made so far are derived from.
-/
def Payload.isFrom (q : Quantization) (origins : List Value) (source : Digest) (p : Payload) : Bool :=
  origins[p.id]?.any (·.digest q = source)

/--
What the payload is derived from that a call makes with a step, if it makes one: the configuration that the
compilation is derived from that it holds, or that which it was given to compile.
-/
def Task.derives? (request : Request) (origins : List Value) (k : Kernel H) (t : Task H) : Option Value :=
  if (t.step k).1.nextPayload = k.nextPayload then none
  else match t.goal with
    | .answer (.ok p) => origins[p.id]?
    | _ => request.raw?

namespace Kernel.Shared

def derives? (s : Shared H) (origins : List Value) : Act H → Option Value
  | .event (.step i) =>
    match s.calls[i]? with
    | some ⟨request, _, .going t⟩ => t.derives? request origins s.kernel
    | _ => none
  | _ => none

/-- What the payloads are derived from, those known already and those that acts make. -/
def origins (s : Shared H) (known : List Value) : List (Act H) → List Value
  | [] => known
  | a :: acts => (s.act a).origins (known ++ (s.derives? known a).toList) acts

end Kernel.Shared

section
variable {q : Quantization} {origins : List Value} {source source' : Digest} {p : Payload} {raw : Value}

theorem Payload.isFrom_iff :
    p.isFrom q origins source = true ↔ ∃ raw, origins[p.id]? = some raw ∧ raw.digest q = source := by
  simp [isFrom, Option.any_eq_true]

theorem Payload.isFrom_of_getElem? (h : origins[p.id]? = some raw) : p.isFrom q origins (raw.digest q) = true :=
  isFrom_iff.2 ⟨raw, h, rfl⟩

theorem Payload.isFrom_append (h : p.isFrom q origins source = true) (more : List Value) :
    p.isFrom q (origins ++ more) source = true := by
  obtain ⟨raw, hraw, rfl⟩ := isFrom_iff.1 h
  refine isFrom_of_getElem? ?_
  rw [List.getElem?_append_left (List.getElem?_eq_some_iff.1 hraw).1, hraw]

/-- A payload is derived from one configuration. -/
theorem Payload.isFrom_eq (h : p.isFrom q origins source = true) (source' : Digest) :
    p.isFrom q origins source' = decide (source = source') := by
  obtain ⟨raw, hraw, rfl⟩ := isFrom_iff.1 h
  rw [isFrom, hraw, Option.any_some]

end

/-! ## Keys -/

/-- A key is made of these parts, whose bytes have been hashed. -/
structure CacheKey.Names (B : List UInt8 → Prop) (source passSet : Digest) (view? : Option (String × Digest))
    (key : CacheKey) : Prop where
  derived : key = .derive source passSet view?
  sized : ∀ v ∈ view?, v.1.utf8ByteSize < 2 ^ 64
  hashed : B (encoded source passSet view?)

section
variable {B : List UInt8 → Prop} {source passSet source' passSet' : Digest} {view? view?' : Option (String × Digest)}
variable {key key' : CacheKey}

theorem CacheKey.Names.source_eq (h : key.Names B source passSet view?) : key.source = source :=
  congrArg CacheKey.source h.derived

/-- Without collisions, the ids of keys tell all that the keys are made of. -/
theorem CacheKey.Names.inj (h : key.Names B source passSet view?) (h' : key'.Names B source' passSet' view?')
    (hB : ¬ Digest.Collides B) (hid : key.id = key'.id) : key = key' ∧ view? = view?' := by
  rw [h.derived, h'.derived] at hid
  obtain ⟨rfl, rfl, rfl⟩ := derive_inj hB h.sized h'.sized h.hashed h'.hashed hid
  exact ⟨h.derived.trans h'.derived.symm, rfl⟩

end

/-! ## Tasks -/

/-- A production is sought under a key of its kind, for the configuration that its request hands over. -/
inductive Production.Seeks (B : List UInt8 → Prop) (r : Request) (s : Snapshot H) (key : CacheKey) :
    Production → Prop
  | compile {raw : Value} (hr : r.raw? = some raw) (hk : key.Names B s.source s.passSet none) :
      Seeks B r s key (.compile raw)
  | view {v : View} {params : Params} {raw : Value} (viewId : String × Digest) (hr : r.raw? = some raw)
      (hk : key.Names B s.source s.passSet (some viewId)) : Seeks B r s key (.view v params raw)
  | viewOfCached {v : View} {params : Params} (viewId : String × Digest)
      (hk : key.Names B s.source s.passSet (some viewId)) : Seeks B r s key (.viewOfCached v params)

def Goal.Sourced (B : List UInt8 → Prop) (q : Quantization) (origins : List Value) (r : Request) (s : Snapshot H) :
    Goal H → Prop
  | .ask key _ production => production.Seeks B r s key
  | .wait key _ _ production => production.Seeks B r s key
  | .run _ => ∃ raw, r.raw? = some raw
  | .answer res => ∀ p, res = .ok p → p.isFrom q origins s.source = true

def Frame.Sourced (B : List UInt8 → Prop) (r : Request) (s : Snapshot H) : Frame → Prop
  | .land key _ => ∃ view?, key.Names B s.source s.passSet view?
  | .thenAsk key _ production => production.Seeks B r s key
  | _ => True

/-- All that a task deals with is for the configuration that its request is about. -/
structure Task.Sourced (B : List UInt8 → Prop) (q : Quantization) (origins : List Value) (r : Request) (t : Task H) :
    Prop where
  source : ∀ k : Kernel H, k.store.quantization = q → r.source k = t.snapshot.source
  goal : t.goal.Sourced B q origins r t.snapshot
  later : ∀ frame ∈ t.frames, frame.Sourced B r t.snapshot

def Kernel.Stage.Sourced (B : List UInt8 → Prop) (q : Quantization) (origins : List Value) (r : Request) :
    Kernel.Stage H → Prop
  | going t => t.Sourced B q origins r
  | done _ _ => True

section
variable {B : List UInt8 → Prop} {q : Quantization} {origins : List Value} {r : Request} {s : Snapshot H}
variable {key : CacheKey} {production : Production} {k k' : Kernel H} {t : Task H}

theorem Production.Seeks.source_eq (h : production.Seeks B r s key) : key.source = s.source := by
  cases h with
  | compile hr hk => exact hk.source_eq
  | view viewId hr hk => exact hk.source_eq
  | viewOfCached viewId hk => exact hk.source_eq

theorem Production.Seeks.names (h : production.Seeks B r s key) : ∃ view?, key.Names B s.source s.passSet view? := by
  cases h with
  | compile hr hk => exact ⟨_, hk⟩
  | view viewId hr hk => exact ⟨_, hk⟩
  | viewOfCached viewId hk => exact ⟨_, hk⟩

theorem Task.Sourced.digest (h : t.Sourced B q origins r) (hq : k.store.quantization = q) {raw : Value}
    (hr : r.raw? = some raw) : raw.digest q = t.snapshot.source := by
  rw [← h.source k hq, ← hq]
  cases r with
  | compile raw => cases hr; rfl
  | query name params raw deadline? => cases hr; rfl
  | queryCompiled name params source => cases hr

theorem Task.Sourced.mono (h : t.Sourced B q origins r) (more : List Value) : t.Sourced B q (origins ++ more) r where
  source := h.source
  goal := by
    have hgoal := h.goal
    cases hg : t.goal with
    | answer res =>
      rw [hg] at hgoal
      exact fun p hp => Payload.isFrom_append (hgoal p hp) more
    | _ =>
      rw [hg] at hgoal
      exact hgoal
  later := h.later

theorem Kernel.Stage.Sourced.mono {stage : Kernel.Stage H} (h : stage.Sourced B q origins r) (more : List Value) :
    stage.Sourced B q (origins ++ more) r := by
  cases stage with
  | going t => exact Task.Sourced.mono h more
  | done res kept => trivial

/-- The slots that a task leads are for the configuration that it is about. -/
theorem Task.Sourced.led (h : t.Sourced B q origins r) {slot : CacheKey × Nat} (hm : slot ∈ t.led) :
    ∃ view?, slot.1.Names B t.snapshot.source t.snapshot.passSet view? := by
  obtain ⟨frame, hframe, hslot⟩ := List.mem_filterMap.1 hm
  have hlater := h.later frame hframe
  cases frame with
  | land key flight =>
    cases hslot
    exact hlater
  | _ => cases hslot

/-- The next frame is taken off. -/
theorem Task.Sourced.pop (h : t.Sourced B q origins r) {frame : Frame} {frames : List Frame}
    (ht : t.frames = frame :: frames) {goal : Goal H} {origins' : List Value}
    (hgoal : goal.Sourced B q origins' r t.snapshot) : Task.Sourced B q origins' r ⟨t.snapshot, goal, frames⟩ where
  source := h.source
  goal := hgoal
  later frame' hm := h.later frame' (ht ▸ List.mem_cons_of_mem _ hm)

theorem Task.Sourced.toward (h : t.Sourced B q origins r) {goal : Goal H} {origins' : List Value}
    (hgoal : goal.Sourced B q origins' r t.snapshot) : (t.toward goal).Sourced B q origins' r :=
  ⟨h.source, hgoal, h.later⟩

/-- A production that a task leads is begun for the configuration that it is sought for. -/
theorem Task.Sourced.lead (h : t.Sourced B q origins r) {goal : Goal H} {frames : List Frame}
    (hb : production.Begun t.snapshot goal frames) (hseeks : production.Seeks B r t.snapshot key)
    (hh : ∀ b ∈ production.hashes t.snapshot, B b) {origins' : List Value}
    (hanswer : ∀ p, goal = .answer (.ok p) → p.isFrom q origins' t.snapshot.source = true) (flight : Nat) :
    Task.Sourced B q origins' r ⟨t.snapshot, goal, frames ++ .land key flight :: t.frames⟩ := by
  have hland : ∀ frame ∈ Frame.land key flight :: t.frames, frame.Sourced B r t.snapshot :=
    List.forall_mem_cons.2 ⟨hseeks.names, h.later⟩
  cases hb with
  | compile raw =>
    cases hseeks with | compile hr hk =>
    exact ⟨h.source, ⟨raw, hr⟩, hland⟩
  | view v params raw =>
    cases hseeks with | view viewId hr hk =>
    have hcompiled : t.snapshot.compiledKey.Names B t.snapshot.source t.snapshot.passSet none :=
      ⟨rfl, by simp, hh _ List.mem_cons_self⟩
    exact ⟨h.source, .compile hr hcompiled, List.forall_mem_cons.2 ⟨trivial, hland⟩⟩
  | cached v params p =>
    refine ⟨h.source, ?_, List.forall_mem_cons.2 ⟨trivial, hland⟩⟩
    rintro p' ⟨⟩
    exact hanswer p rfl
  | missing v params => exact ⟨h.source, by rintro p ⟨⟩, hland⟩

/-- A turn keeps to the configuration, if the payload that it comes by does. -/
theorem Task.Sourced.turn (h : t.Sourced B q origins r) {progress : Task.Progress H} (hturn : t.Turn k k' progress)
    (hh : ∀ b ∈ t.hashes k, B b) {origins' : List Value} (hobtained : ∀ {t' p}, progress = .next t' →
      t'.goal = .answer (.ok p) → p.isFrom q origins' t.snapshot.source = true) :
    (Kernel.Stage.ofProgress progress).Sourced B q origins' r := by
  have hgoal := h.goal
  have hanswer {t' : Task H} {res : Except KernelError Payload} (hnext : progress = .next t')
      (hg : t'.goal = .answer res) : Goal.Sourced B q origins' r t.snapshot (.answer res) := fun p hp =>
    hobtained hnext (hg.trans (congrArg Goal.answer hp))
  cases hturn with
  | found p hg hk => exact h.toward (hanswer rfl rfl)
  | joined flight hg hk =>
    rw [hg] at hgoal
    exact h.toward hgoal
  | @led key deadline? production goal frames hg hkey hslot hb hk =>
    rw [hg] at hgoal
    rw [Task.hashes, hg] at hh
    refine h.lead hb hgoal ?_ (fun p hp => hobtained rfl hp) _
    simpa only [Cache.enter_leads hkey hslot] using hh
  | blocked hg hl hk =>
    rw [hg] at hgoal
    refine ⟨h.source, ?_, h.later⟩
    rw [hg]
    exact hgoal
  | woken hg hl hk => exact h.toward (hanswer rfl rfl)
  | retried hg hl hk =>
    rw [hg] at hgoal
    exact h.toward hgoal
  | ran hg hr hc hk =>
    rw [hg] at hgoal
    exact h.toward hgoal
  | hooked name hook hg hr hc hk =>
    rw [hg] at hgoal
    exact h.toward hgoal
  | failed failure hg hc hk => exact h.toward (hanswer rfl rfl)
  | compiled p hg hc hk => exact h.toward (hanswer rfl rfl)
  | handed res' hg ht hframe hres hk => exact h.pop ht (hanswer rfl rfl)
  | landed hg ht hk => exact h.pop ht (hanswer rfl rfl)
  | asked hg ht hk =>
    have hlater := h.later
    rw [ht] at hlater
    exact h.pop ht (List.forall_mem_cons.1 hlater).1
  | done hg ht hk => trivial

/-- A call begins. -/
theorem Request.sourced_of_ok (hn : ∀ v ∈ r.view?, v.1.utf8ByteSize < 2 ^ 64) (hh : ∀ b ∈ r.hashes k, B b)
    (ht : Task.ofRequest k r = .ok t) (hq : k.store.quantization = q) : t.Sourced B q origins r := by
  have hsource {raw : Value} (hr : ∀ k : Kernel H, r.source k = k.sourceDigest raw) (k' : Kernel H)
      (hq' : k'.store.quantization = q) : r.source k' = k.sourceDigest raw := by
    rw [hr, Kernel.sourceDigest, Kernel.sourceDigest, hq, hq']
  have hsized {name : String} {params : Params} (hview : r.view? = some (name, params)) :
      ∀ v ∈ some (name, params.digest), v.1.utf8ByteSize < 2 ^ 64 := by
    rintro v ⟨⟩
    exact hn _ hview
  cases Task.opening_of_eq ht with
  | compile hs =>
    simp only [Request.hashes, List.forall_mem_append, List.forall_mem_singleton] at hh
    obtain ⟨-, -, hkey⟩ := hh
    subst hs
    exact ⟨hsource fun _ => rfl, .compile rfl ⟨rfl, by simp, hkey⟩, by simp [Frame.Sourced]⟩
  | @queryUntil name v params raw deadline? s hs hv hfirst =>
    simp only [Request.hashes, List.forall_mem_append, List.forall_mem_cons] at hh
    obtain ⟨-, -, hview, hcompiled⟩ := hh
    have hsnapshot : (Request.query name params raw deadline?).snapshot k = s := hs.symm
    rw [hsnapshot, if_pos hfirst, List.forall_mem_singleton] at hcompiled
    subst hs
    refine ⟨hsource fun _ => rfl, .compile rfl ⟨rfl, by simp, hcompiled⟩, ?_⟩
    have hask : Production.Seeks B (.query name params raw deadline?) (Snapshot.take k (k.sourceDigest raw))
        ((Snapshot.take k (k.sourceDigest raw)).viewKey name params) (.view v params raw) :=
      .view _ rfl ⟨rfl, hsized rfl, hview⟩
    exact List.forall_mem_cons.2 ⟨trivial, List.forall_mem_cons.2 ⟨hask, by simp [Frame.Sourced]⟩⟩
  | query hs hv =>
    simp only [Request.hashes, List.forall_mem_append, List.forall_mem_cons] at hh
    obtain ⟨-, -, hview, -⟩ := hh
    subst hs
    exact ⟨hsource fun _ => rfl, .view _ rfl ⟨rfl, hsized rfl, hview⟩, by simp [Task.forView, Frame.Sourced]⟩
  | queryCompiled hs hv =>
    simp only [Request.hashes, List.forall_mem_append, List.forall_mem_singleton] at hh
    obtain ⟨-, -, hview⟩ := hh
    subst hs
    exact ⟨fun _ _ => rfl, .viewOfCached _ ⟨rfl, hsized rfl, hview⟩, by simp [Task.forView, Frame.Sourced]⟩

end

/-! ## Kernels -/

namespace Kernel

/--
What is cached is derived from configurations with the digests that the keys name, and so is what callers get
who wait; `origins` are the configurations that the payloads so far are derived from.
-/
structure Traced (B : List UInt8 → Prop) (q : Quantization) (origins : List Value) (k : Kernel H)
    (calls : List (Call H)) : Prop where
  manned : Manned k calls
  quantization : k.store.quantization = q
  count : origins.length = k.nextPayload
  entries : ∀ e ∈ k.cache.entries, e.value.isFrom q origins e.key.source = true ∧
    ∃ source passSet view?, e.key.Names B source passSet view?
  sourced : ∀ c ∈ calls, c.stage.Sourced B q origins c.request
  results : ∀ c ∈ calls, ∀ slot, c.stage.awaits? = some slot → ∀ p, k.cache.landing slot.2 = .landed (.ok p) →
    p.isFrom q origins slot.1.source = true

section
variable {B : List UInt8 → Prop} {q : Quantization} {origins : List Value} {k k' : Kernel H}
variable {calls calls' others : List (Call H)} {request : Request} {began : Snapshot H} {stage stage' : Stage H}
variable {t : Task H} {p : Payload}

theorem Traced.perm (h : Traced B q origins k calls) (hp : calls.Perm calls') : Traced B q origins k calls' where
  manned := h.manned.perm hp
  quantization := h.quantization
  count := h.count
  entries := h.entries
  sourced c hc := h.sourced c (hp.mem_iff.2 hc)
  results c hc := h.results c (hp.mem_iff.2 hc)

/-- The results of flights are as they were, or the task has landed with one. -/
theorem Manned.landed_of_step (h : Manned k (⟨request, began, .going t⟩ :: others)) {f : Nat}
    {res : Except KernelError Payload} (hl : (t.step k).1.cache.landing f = .landed res) :
    k.cache.landing f = .landed res ∨ t.goal = .answer res ∧ ∃ key, (key, f) ∈ t.led := by
  have hsame (hf : (t.step k).1.cache.flights = k.cache.flights) : k.cache.landing f = .landed res := by
    rw [Cache.landing, hf] at hl
    exact hl
  have hturn := t.step_turn k
  generalize (t.step k).1 = k' at hl hsame hturn
  generalize (t.step k).2 = progress at hturn
  cases hturn with
  | led hg hkey hslot hb hk =>
    rw [landing_push k.cache f hk.cache.flights] at hl
    split at hl
    · cases hl
    · exact .inl hl
  | @landed res' key flight frames hg ht hk =>
    have hled : (key, flight) ∈ t.led := by
      rw [Task.led, ht]
      exact List.mem_cons_self
    have hrunning := h.crewed.running _ (List.mem_append_left _ hled)
    have hflights := hk.cache.flights.trans (Cache.finish_flights k.cache key flight res')
    rw [landing_modify k.cache f hflights (lt_of_running hrunning)] at hl
    split at hl
    · rename_i heq
      cases hl
      exact .inr ⟨hg, key, heq ▸ hled⟩
    · exact .inl hl
  | blocked hg hl' hk | done hg ht hk => exact .inl (hsame (by rw [hk]))
  | compiled p hg hc hk => exact .inl (hsame hk.cache.flights)
  | _ => exact .inl (hsame (by assumption : Still _ _).cache.flights)

/-- A payload that a task finds is derived from the configuration that the task is about. -/
theorem Traced.finds (h : Traced B q origins k (⟨request, began, .going t⟩ :: others)) (hf : t.Finds k p) :
    p.isFrom q origins t.snapshot.source = true := by
  have hsourced : t.Sourced B q origins request := h.sourced _ List.mem_cons_self
  have hgoal := hsourced.goal
  cases hf with
  | @entry key deadline? production e hg he hkey hvalue =>
    obtain ⟨hfrom, -⟩ := h.entries e he
    rw [hg] at hgoal
    have hsource : e.key.source = t.snapshot.source := by
      rcases hkey with rfl | hkey
      · exact Production.Seeks.source_eq hgoal
      · exact congrArg CacheKey.source hkey
    rw [← hvalue, ← hsource]
    exact hfrom
  | @landed key flight deadline? production hg hl =>
    have hresult := h.results _ List.mem_cons_self (key, flight) (by rw [Stage.awaits?, hg]; rfl) _ hl
    rw [hg] at hgoal
    rw [← Production.Seeks.source_eq hgoal]
    exact hresult
  | held hg =>
    rw [hg] at hgoal
    exact hgoal _ rfl

/-- A new payload is the last one, and a configuration with the digest is what it is derived from. -/
theorem Traced.makes (h : Traced B q origins k calls) {raw : Value} {source : Digest}
    (hn : (t.step k).1.nextPayload = k.nextPayload + 1) (hid : p.id = k.nextPayload)
    (hd : t.derives? request origins k = some raw) (hraw : raw.digest q = source) :
    (origins ++ (t.derives? request origins k).toList).length = (t.step k).1.nextPayload ∧
      p.isFrom q (origins ++ (t.derives? request origins k).toList) source = true := by
  rw [hd, hn, ← hraw, Option.toList_some, List.length_append, h.count]
  refine ⟨rfl, Payload.isFrom_of_getElem? ?_⟩
  rw [hid, ← h.count]
  exact List.getElem?_concat_length

/-- How many payloads there are, and what the one is derived from that a task comes by. -/
theorem Traced.obtained (h : Traced B q origins k (⟨request, began, .going t⟩ :: others)) :
    (origins ++ (t.derives? request origins k).toList).length = (t.step k).1.nextPayload ∧
      ∀ {t' p}, (t.step k).2 = .next t' → t'.goal = .answer (.ok p) →
        p.isFrom q (origins ++ (t.derives? request origins k).toList) t.snapshot.source = true := by
  have hsourced : t.Sourced B q origins request := h.sourced _ List.mem_cons_self
  have hgoal := hsourced.goal
  cases t.step_obtained k with
  | found hn hp =>
    have hnone : t.derives? request origins k = none := if_pos hn
    rw [hnone, Option.toList_none, List.append_nil, h.count]
    exact ⟨hn.symm, fun hnext hg' => h.finds (hp hnext hg')⟩
  | @compiled r p hg hn hid hp =>
    rw [hg] at hgoal
    obtain ⟨raw, hraw⟩ := hgoal
    have hd : t.derives? request origins k = some raw := by
      rw [Task.derives?, if_neg (by omega), hg]
      exact hraw
    obtain ⟨hcount, hfrom⟩ := h.makes hn hid hd (hsourced.digest h.quantization hraw)
    refine ⟨hcount, fun hnext hg' => ?_⟩
    cases hp.symm.trans hnext
    cases hg'
    exact hfrom
  | @viewed p₀ p frames hg hn hid hp =>
    rw [hg] at hgoal
    obtain ⟨raw, hraw, hdigest⟩ := Payload.isFrom_iff.1 (hgoal p₀ rfl)
    have hd : t.derives? request origins k = some raw := by
      rw [Task.derives?, if_neg (by omega), hg]
      exact hraw
    obtain ⟨hcount, hfrom⟩ := h.makes hn hid hd hdigest
    refine ⟨hcount, fun hnext hg' => ?_⟩
    cases hp.symm.trans hnext
    cases hg'
    exact hfrom

theorem Traced.step (h : Traced B q origins k (⟨request, began, .going t⟩ :: others)) (hh : ∀ b ∈ t.hashes k, B b) :
    Traced B q (origins ++ (t.derives? request origins k).toList) (t.step k).1
      (⟨request, began, .ofProgress (t.step k).2⟩ :: others) := by
  have hsourced : t.Sourced B q origins request := h.sourced _ List.mem_cons_self
  obtain ⟨hcount, hobtained⟩ := h.obtained
  have hanswer {p : Payload} (hg : t.goal = .answer (.ok p)) : p.isFrom q origins t.snapshot.source = true := by
    have hgoal := hsourced.goal
    rw [hg] at hgoal
    exact hgoal p rfl
  refine ⟨h.manned.step, ?_, hcount, fun e he => ?_, fun c hc => ?_, fun c hc slot hw p hl => ?_⟩
  · exact (congrArg (fun config => config.2.2) (config_step k t)).trans h.quantization
  · rcases Task.entries_of_step he with he | ⟨flight, frames, hg, ht⟩
    · obtain ⟨hfrom, hnames⟩ := h.entries e he
      exact ⟨Payload.isFrom_append hfrom _, hnames⟩
    · have hland := hsourced.later _ (ht ▸ List.mem_cons_self)
      obtain ⟨view?, hnames⟩ := hland
      rw [hnames.source_eq]
      exact ⟨Payload.isFrom_append (hanswer hg) _, _, _, _, hnames⟩
  · rcases List.mem_cons.1 hc with rfl | hc
    · exact hsourced.turn (t.step_turn k) hh hobtained
    · exact (h.sourced c (List.mem_cons_of_mem _ hc)).mono _
  · refine Payload.isFrom_append ?_ _
    have hwaits : (∃ c ∈ ⟨request, began, .going t⟩ :: others, c.stage.awaits? = some slot) ∨
        slot ∈ k.cache.slots := by
      rcases List.mem_cons.1 hc with rfl | hc
      · exact (awaits_of_step k t hw).imp_left fun hw => ⟨_, List.mem_cons_self, hw⟩
      · exact .inl ⟨c, List.mem_cons_of_mem _ hc, hw⟩
    rcases h.manned.landed_of_step hl with hl | ⟨hg, key, hled⟩
    · rcases hwaits with ⟨c, hc, hw⟩ | hslot
      · exact h.results c hc slot hw p hl
      · cases hl.symm.trans (h.manned.crewed.running slot (h.manned.crewed.slots slot hslot))
    · -- whoever waits for the flight waits for the task
      have hmine : (key, slot.2) ∈ ledBy (⟨request, began, .going t⟩ :: others) := List.mem_append_left _ hled
      have hslot : slot ∈ ledBy (⟨request, began, .going t⟩ :: others) := by
        rcases hwaits with ⟨c, hc, hw⟩ | hslot
        · rcases h.manned.waits c hc slot hw with hm | ⟨res, hended⟩
          · exact hm
          · cases hended.symm.trans (h.manned.crewed.running (key, slot.2) hmine)
        · exact h.manned.crewed.slots slot hslot
      have heq : slot = (key, slot.2) := h.manned.crewed.unique hslot hmine rfl
      obtain ⟨view?, hnames⟩ := hsourced.led hled
      rw [heq, hnames.source_eq]
      exact hanswer hg

/-- Other changes of a kernel make no payloads. -/
theorem Traced.change (h : Traced B q origins k calls) (hm : Manned k' calls')
    (hq : k'.store.quantization = k.store.quantization) (hn : k'.nextPayload = k.nextPayload)
    (he : ∀ e ∈ k'.cache.entries, e ∈ k.cache.entries) (hl : ∀ f, k'.cache.landing f = k.cache.landing f)
    (hc : ∀ c ∈ calls', c.stage.Sourced B q origins c.request ∧
      ∀ slot, c.stage.awaits? = some slot → ∃ c ∈ calls, c.stage.awaits? = some slot) :
    Traced B q origins k' calls' where
  manned := hm
  quantization := hq.trans h.quantization
  count := h.count.trans hn.symm
  entries e hm := h.entries e (he e hm)
  sourced c hm := (hc c hm).1
  results c hm slot hw p hlanded := by
    obtain ⟨c', hm', hw'⟩ := (hc c hm).2 slot hw
    exact h.results c' hm' slot hw' p (hl slot.2 ▸ hlanded)

end

/-- The name of a view that is asked for is of a size that there is. -/
def Act.Sized : Act H → Prop
  | .event (.call request) => ∀ v ∈ request.view?, v.1.utf8ByteSize < 2 ^ 64
  | _ => True

namespace Shared

variable {B : List UInt8 → Prop} {q : Quantization} {origins : List Value} {s : Shared H} {a : Act H}

theorem derives?_eq_none (h : ¬ s.Steps a) : s.derives? origins a = none := by
  unfold derives?
  split
  · split
    · rename_i i _ request began t hi
      exact absurd ⟨i, request, began, t, rfl, hi⟩ h
    · rfl
  · rfl

/-- Calls go on as they are, or begin, or are answered, unless they make a step. -/
theorem sourced_of_act (h : Traced B q origins s.kernel s.calls) (ha : ¬ s.Steps a)
    (hn : a.Sized) (hh : ∀ b ∈ (s.act a).hashed, B b) {c : Call H} (hc : c ∈ (s.act a).calls) :
    c.stage.Sourced B q origins c.request ∧
      ∀ slot, c.stage.awaits? = some slot → ∃ c ∈ s.calls, c.stage.awaits? = some slot := by
  have hold {c : Call H} (hc : c ∈ s.calls) : c.stage.Sourced B q origins c.request ∧
      ∀ slot, c.stage.awaits? = some slot → ∃ c ∈ s.calls, c.stage.awaits? = some slot :=
    ⟨h.sourced c hc, fun slot hw => ⟨c, hc, hw⟩⟩
  have hchange := s.act_change a
  generalize (s.act a).kernel = k at hchange
  generalize hcalls : (s.act a).calls = calls at hchange hc
  cases hchange with
  | still hk ha => exact hold hc
  | @began request t ht =>
    rcases List.mem_append.1 hc with hc | hc
    · exact hold hc
    · cases List.mem_singleton.1 hc
      refine ⟨?_, fun slot hw => by cases ht <;> cases hw⟩
      cases ht' : Task.ofRequest s.kernel request with
      | ok t' =>
        simp only [act, next, call, ht', List.append_cancel_left_eq, List.cons.injEq, Call.mk.injEq, Stage.going.injEq,
          true_and, and_true] at hcalls hh
        subst hcalls
        exact Request.sourced_of_ok hn (fun b hb => hh b (List.mem_append_left _ hb)) ht' h.quantization
      | error e => simp [act, next, call, ht'] at hcalls
  | refused name =>
    rcases List.mem_append.1 hc with hc | hc
    · exact hold hc
    · cases List.mem_singleton.1 hc
      exact ⟨trivial, by rintro slot ⟨⟩⟩
  | @stepped i request began t hi => exact absurd ⟨i, request, began, t, rfl, hi⟩ ha
  | @gaveUp i request began t hi =>
    rcases List.mem_or_eq_of_mem_set hc with hc | rfl
    · exact hold hc
    · have hgoing := hold (List.mem_of_getElem? hi)
      rcases t.giveUp_cases s.kernel with ⟨key, flight, deadline, production, hg, -, heq⟩ | heq
      · rw [heq]
        exact ⟨⟨hgoing.1.source, by rintro p ⟨⟩, hgoing.1.later⟩, by rintro slot ⟨⟩⟩
      · rw [heq]
        exact hgoing
  | dropped hi =>
    rcases List.mem_or_eq_of_mem_set hc with hc | rfl
    · exact hold hc
    · exact ⟨trivial, by rintro slot ⟨⟩⟩
  | invalidated doomed he hcache => exact hold hc

/-- Every act keeps account of what payloads are derived from. -/
theorem traced_act (h : Traced B q origins s.kernel s.calls)
    (hn : a.Sized) (hh : ∀ b ∈ (s.act a).hashed, B b) :
    Traced B q (origins ++ (s.derives? origins a).toList) (s.act a).kernel (s.act a).calls := by
  by_cases ha : s.Steps a
  · obtain ⟨i, request, began, t, rfl, hi⟩ := ha
    obtain ⟨others, hp, hset⟩ := exists_others hi
    have hd : s.derives? origins (.event (.step i)) = t.derives? request origins s.kernel := by
      simp only [derives?, hi]
    rw [act_event, next_step hi] at hh ⊢
    rw [hd]
    exact ((h.perm hp).step fun b hb => hh b (List.mem_append_left _ hb)).perm (hset _).symm
  · rw [derives?_eq_none ha, Option.toList_none, List.append_nil]
    obtain ⟨hnext, hentries⟩ := entries_of_act ha
    exact h.change ((s.act_change a).manned h.manned) (s.quantization_act a) hnext hentries (landing_of_act ha)
      fun c hc => sourced_of_act h ha hn hh hc

theorem traced_play (h : Traced B q origins s.kernel s.calls) {acts : List (Act H)}
    (hn : ∀ a ∈ acts, a.Sized) (hh : ∀ b ∈ (s.play acts).hashed, B b) :
    Traced B q (s.origins origins acts) (s.play acts).kernel (s.play acts).calls := by
  induction acts generalizing s origins with
  | nil => exact h
  | cons a acts ih =>
    obtain ⟨hna, hn⟩ := List.forall_mem_cons.1 hn
    exact ih (traced_act h hna fun b hb => hh b (hashed_play (s.act a) acts hb)) hn hh

theorem traced_start {settings : Settings} {hierarchy : Hierarchy} {k : Kernel H}
    (hk : Kernel.new settings hierarchy = .ok k) :
    Traced B settings.quantization [] (start k).kernel (start k).calls where
  manned := manned_start hk
  quantization := congrArg Store.quantization (new_store hk)
  count := (new_nextPayload hk).symm
  entries e he := by
    change e ∈ k.cache.entries at he
    rw [new_cache hk] at he
    cases he
  sourced c hc := by cases hc
  results c hc := by cases hc

end Shared

end Kernel

end ConfigCompiler
