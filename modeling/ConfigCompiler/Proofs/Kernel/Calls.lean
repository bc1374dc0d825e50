import ConfigCompiler.Proofs.Kernel.Step

/-!
# Calls of a kernel

`Inv`: a kernel is sound for all that its callers hold, and each call is on its way to what was requested, or
has been answered so. A new call (`Inv.call`), the steps of a call (`Inv.step`, `Inv.giveUp`), a payload let go
(`Inv.drop`) and changes of the kernel by others (`Inv.setPassList`, `Inv.replaceHierarchy`,
`Inv.invalidateSource`) all keep it, unless two byte strings that were hashed have one digest.
-/

namespace ConfigCompiler

variable {H : Type}

namespace Request

def source (k : Kernel H) : Request → Digest
  | .compile raw => k.sourceDigest raw
  | .query _ _ raw _ => k.sourceDigest raw
  | .queryCompiled _ _ source => source

/-- What a call sees of the kernel when it begins. -/
def snapshot (k : Kernel H) (r : Request) : Snapshot H := .take k (r.source k)

/-- All lengths fit into a word, and the maps hold each key once. -/
def Fits : Request → Prop
  | .compile raw => raw.Proper
  | .query _ params raw _ => params.Proper ∧ raw.Proper
  | .queryCompiled _ params _ => params.Proper

/-- What is hashed for a pass set. -/
def policyHashes (k : Kernel H) : List (List UInt8) :=
  [Digest.encode Hierarchy.digestDomain k.hierarchy.fields,
    Digest.encode "strata.pass-set.v1" k.passSetFields]

def rawHashes (k : Kernel H) (raw : Value) : List (List UInt8) :=
  raw.parts.map (·.encoded k.store.quantization)

def paramsHashes (p : Params) : List (List UInt8) :=
  p.encoded :: p.entries.flatMap fun e => e.2.parts.map (·.encoded .disabled)

/-- What is hashed when a call begins, up to the key that it asks for first. -/
def hashes (k : Kernel H) (r : Request) : List (List UInt8) :=
  let s := r.snapshot k
  let compiledKey := CacheKey.encoded s.source s.passSet none
  let viewKey name (params : Params) := CacheKey.encoded s.source s.passSet (some (name, params.digest))
  policyHashes k ++ match r with
    | .compile raw => rawHashes k raw ++ [compiledKey]
    | .query name params raw deadline? =>
      rawHashes k raw ++ paramsHashes params ++ viewKey name params ::
        if deadline?.isSome && !k.cache.contains (s.viewKey name params) then [compiledKey] else []
    | .queryCompiled name params _ => paramsHashes params ++ [viewKey name params]

/-- A request is about what a snapshot is about; all that is hashed for it satisfies `B`. -/
def Known (B : List UInt8 → Prop) (q : Quantization) (s : Snapshot H) : Request → Prop
  | .compile raw => s.Reads B q raw
  | .query _ params raw _ => params.Proper ∧ params.Hashed B ∧ s.Reads B q raw
  | .queryCompiled _ params source => params.Proper ∧ params.Hashed B ∧ s.source = source

/-- What an answer to a request is to be. -/
inductive Wants : Request → Want → Prop
  | compile (raw : Value) : Wants (.compile raw) (.compiled raw)
  | query {v : View} (hv : v ∈ View.builtins) (params : Params) (raw : Value)
      (deadline? : Option Deadline) : Wants (.query v.name params raw deadline?) (.view v params)
  | queryCompiled {v : View} (hv : v ∈ View.builtins) (params : Params) (source : Digest) :
      Wants (.queryCompiled v.name params source) (.view v params)

end Request

/-- What a request begins with, where `s` is what its caller sees of the kernel: a task, unless there is no such view. -/
inductive Task.Opening (k : Kernel H) : Request → Except KernelError (Task H) → Prop
  | compile {raw : Value} {s : Snapshot H} (hs : s = .take k (k.sourceDigest raw)) :
      Opening k (.compile raw) (.ok ⟨s, .ask s.compiledKey none (.compile raw), [.expect .compiled s.compiledKey]⟩)
  /-- With a deadline, the compilation is waited for first, unless the view is there. -/
  | queryUntil {name : String} {v : View} {params : Params} {raw : Value} {deadline? : Option Deadline}
      {s : Snapshot H} (hs : s = .take k (k.sourceDigest raw)) (hv : k.views.view name = .ok v)
      (hfirst : (deadline?.isSome && !k.cache.contains (s.viewKey name params)) = true) :
      Opening k (.query name params raw deadline?) (.ok ⟨s, .ask s.compiledKey deadline? (.compile raw),
        [.expect .compiled s.compiledKey, .thenAsk (s.viewKey name params) deadline? (.view v params raw),
          .expect .view (s.viewKey name params)]⟩)
  | query {name : String} {v : View} {params : Params} {raw : Value} {deadline? : Option Deadline}
      {s : Snapshot H} (hs : s = .take k (k.sourceDigest raw)) (hv : k.views.view name = .ok v) :
      Opening k (.query name params raw deadline?)
        (.ok (.forView s (s.viewKey name params) deadline? (.view v params raw)))
  | queryCompiled {name : String} {v : View} {params : Params} {source : Digest} {s : Snapshot H}
      (hs : s = .take k source) (hv : k.views.view name = .ok v) :
      Opening k (.queryCompiled name params source)
        (.ok (.forView s (s.viewKey name params) none (.viewOfCached v params)))
  | refused {name : String} {params : Params} {raw : Value} {deadline? : Option Deadline} {e : KernelError}
      (hv : k.views.view name = .error e) : Opening k (.query name params raw deadline?) (.error e)
  | refusedCompiled {name : String} {params : Params} {source : Digest} {e : KernelError}
      (hv : k.views.view name = .error e) : Opening k (.queryCompiled name params source) (.error e)

theorem Task.ofRequest_opening (k : Kernel H) (request : Request) :
    Task.Opening k request (Task.ofRequest k request) := by
  cases request with
  | compile raw => exact .compile rfl
  | query name params raw deadline? =>
    rw [Task.ofRequest]
    cases hv : k.views.view name with
    | error e => exact .refused hv
    | ok v =>
      simp only [bind, Except.bind]
      split
      · exact .queryUntil rfl hv ‹_›
      · exact .query rfl hv
  | queryCompiled name params source =>
    rw [Task.ofRequest]
    cases hv : k.views.view name with
    | error e => exact .refusedCompiled hv
    | ok v => exact .queryCompiled rfl hv

theorem Task.opening_of_eq {k : Kernel H} {request : Request} {r : Except KernelError (Task H)}
    (h : Task.ofRequest k request = r) : Task.Opening k request r := h ▸ Task.ofRequest_opening k request

namespace Kernel

/-- How far a call has come. -/
inductive Stage (H : Type) where
  | going (t : Task H)
  /-- It was answered; the caller may have kept the payload. -/
  | done (result : Except KernelError Payload) (kept : Bool)

namespace Stage

def refs : Stage H → List Payload
  | going t => t.goal.refs
  | done res true => handed res
  | done _ false => []

def nodes : Stage H → List Interned
  | going t => t.goal.nodes
  | _ => []

def waits : Stage H → Nat → Nat
  | going t, f => t.goal.waits f
  | _, _ => 0

def ofProgress : Task.Progress H → Stage H
  | .next t => going t
  | .blocked t => going t
  | .hook _ _ t => going t
  | .done res => done res true

end Stage

structure Call (H : Type) where
  request : Request
  /-- What it saw of the kernel when it began. -/
  began : Snapshot H
  stage : Stage H

/-! ## Calls on their way -/

section
variable {B : List UInt8 → Prop} {q : Quantization} {dest : List CacheKey}

/-- A call is on its way to what was requested, has been answered so, or was refused. -/
inductive Call.Good (B : List UInt8 → Prop) (q : Quantization) (dest : List CacheKey) : Call H → Prop
  | going {request : Request} {began : Snapshot H} {t : Task H} {w : Want} (hw : request.Wants w)
      (hr : request.Known B q began) (hs : t.snapshot = began) (ht : t.Toward B q dest w) :
      Good B q dest ⟨request, began, .going t⟩
  | done {request : Request} {began : Snapshot H} {res : Except KernelError Payload} {w : Want}
      (kept : Bool) (hw : request.Wants w) (hr : request.Known B q began) (hv : began.Valid B q)
      (hm : w.Met B q began res) :
      Good B q dest ⟨request, began, .done res kept⟩
  /-- There is no such view. -/
  | refused {request : Request} (began : Snapshot H) (e : KernelError)
      (hr : ∀ raw, request ≠ .compile raw) : Good B q dest ⟨request, began, .done (.error e) false⟩

theorem Call.Good.toward {c : Call H} (h : c.Good B q dest) {t : Task H} (ht : c.stage = .going t) :
    ∃ w, t.Toward B q dest w := by
  cases h with
  | going hw hr hs htoward =>
    cases ht
    exact ⟨_, htoward⟩
  | done kept hw hr hv hm => cases ht
  | refused began e hr => cases ht

theorem Call.Good.mono {c : Call H} (h : c.Good B q dest) (more : List CacheKey) :
    c.Good B q (dest ++ more) := by
  cases h with
  | going hw hr hs ht => exact .going hw hr hs (ht.mono more)
  | done kept hw hr hv hm => exact .done kept hw hr hv hm
  | refused began e hr => exact .refused began e hr

/-- What the callers hold. -/
def refsOf (calls : List (Call H)) : List Payload := calls.flatMap (·.stage.refs)

def nodesOfRuns (calls : List (Call H)) : List Interned := calls.flatMap (·.stage.nodes)

def waitsOf (calls : List (Call H)) (f : Nat) : Nat := (calls.map (·.stage.waits f)).sum

theorem waitsOf_cons (c : Call H) (calls : List (Call H)) :
    waitsOf (c :: calls) = fun f => waitsOf calls f + c.stage.waits f := by
  funext f
  rw [waitsOf, List.map_cons, List.sum_cons, Nat.add_comm]
  rfl

/-- A kernel and its calls; the order of the calls does not matter. -/
def Inv (B : List UInt8 → Prop) (q : Quantization) (k : Kernel H) (calls : List (Call H)) : Prop :=
  ∃ dest, k.Sound B q dest (refsOf calls) (nodesOfRuns calls) (waitsOf calls) ∧
    ∀ c ∈ calls, c.Good B q dest

variable {k k' : Kernel H} {calls calls' : List (Call H)} {request : Request} {began : Snapshot H}
variable {t : Task H}

theorem Inv.perm (h : Inv B q k calls) (hp : calls.Perm calls') : Inv B q k calls' := by
  obtain ⟨dest, hs, hc⟩ := h
  have hwaits : waitsOf calls = waitsOf calls' := funext fun f => (hp.map _).sum_eq
  exact ⟨dest, hwaits ▸ hs.perm (hp.symm.flatMap_right _) (hp.flatMap_right _),
    fun c hm => hc c (hp.mem_iff.2 hm)⟩

/-- Soundness is all that a change of the kernel alone has to keep. -/
theorem Inv.change (h : Inv B q k calls) (hs : ∀ {dest refs nodes waits},
    k.Sound B q dest refs nodes waits → k'.Sound B q dest refs nodes waits) : Inv B q k' calls := by
  obtain ⟨dest, hk, hc⟩ := h
  exact ⟨dest, hs hk, hc⟩

/-- One call among the others. -/
theorem inv_going_iff : Inv B q k (⟨request, began, .going t⟩ :: calls) ↔ ∃ dest w,
    request.Wants w ∧ request.Known B q began ∧
    Going B q dest began w (refsOf calls) (nodesOfRuns calls) (waitsOf calls) k t ∧ ∀ c ∈ calls, c.Good B q dest := by
  constructor
  · rintro ⟨dest, hk, hc⟩
    obtain ⟨hg, hothers⟩ := List.forall_mem_cons.1 hc
    rw [waitsOf_cons] at hk
    cases hg with | going hw hr hs ht => exact ⟨dest, _, hw, hr, ⟨hs, ht, hk⟩, hothers⟩
  · rintro ⟨dest, w, hw, hr, ⟨hs, ht, hk⟩, hothers⟩
    refine ⟨dest, ?_, List.forall_mem_cons.2 ⟨.going hw hr hs ht, hothers⟩⟩
    rw [waitsOf_cons]
    exact hk

/-! ## Calls that begin -/

theorem hashed_of_rawHashes {raw : Value} (hq : k.store.quantization = q)
    (h : ∀ b ∈ Request.rawHashes k raw, B b) : raw.Hashed B q := fun _ hu =>
  hq ▸ h _ (List.mem_map_of_mem hu)

theorem hashed_of_paramsHashes {params : Params} (h : ∀ b ∈ Request.paramsHashes params, B b) :
    params.Hashed B where
  self := h _ List.mem_cons_self
  values := fun e he _ hu =>
    h _ (List.mem_cons_of_mem _ (List.mem_flatMap.2 ⟨e, he, List.mem_map_of_mem hu⟩))

/-- None of the frames ends a flight. -/
def Quiet (fs : List Frame) : Prop := ∀ key flight, Frame.land key flight ∉ fs

/-- A task that asks for what leads to the answer of a request. -/
structure Begins (B : List UInt8 → Prop) (q : Quantization) (dest : List CacheKey) (k : Kernel H)
    (request : Request) (t : Task H) (w : Want) : Prop where
  wants : request.Wants w
  snapshot : t.snapshot = request.snapshot k
  asks : ∃ key deadline? production, t.goal = .ask key deadline? production
  quiet : Quiet t.frames
  toward : (∀ b ∈ request.hashes k, B b) →
    request.Known B q (request.snapshot k) ∧ t.Toward B q dest w

theorem valid_of_policyHashes (hk : k.policy.Standard) (hq : k.store.quantization = q) (source : Digest)
    (h : ∀ b ∈ Request.policyHashes k, B b) : (Snapshot.take k source).Valid B q :=
  hk.valid hq source (h _ List.mem_cons_self) (h _ (List.mem_cons_of_mem _ List.mem_cons_self))

theorem reads_of_rawHashes (hq : k.store.quantization = q) {raw : Value} (hp : raw.Proper)
    (h : ∀ b ∈ Request.rawHashes k raw, B b) : (Snapshot.take k (k.sourceDigest raw)).Reads B q raw :=
  ⟨hp, hashed_of_rawHashes hq h, by rw [← hq]; rfl⟩

section
variable {v : View} {params : Params} {raw : Value} {deadline? : Option Deadline} {s : Snapshot H}

theorem begins_compile (hk : k.policy.Standard) (hq : k.store.quantization = q) (hp : raw.Proper)
    (dest : List CacheKey) (hs : s = .take k (k.sourceDigest raw)) :
    Begins B q dest k (.compile raw) ⟨s, .ask s.compiledKey none (.compile raw), [.expect .compiled s.compiledKey]⟩
      (.compiled raw) := by
  refine ⟨.compile raw, hs, ⟨_, _, _, rfl⟩, fun _ _ h => by simp at h, fun hB => ?_⟩
  simp only [Request.hashes, List.forall_mem_append, List.forall_mem_singleton] at hB
  obtain ⟨hpolicy, hraw, hkey⟩ := hB
  subst hs
  have hr := reads_of_rawHashes hq hp hraw
  exact ⟨hr, valid_of_policyHashes hk hq _ hpolicy, _, .ask (.compile ⟨rfl, hkey, hr⟩), .expectCompiled _ (.nil _)⟩

/-- A caller with a deadline asks for the compilation first, if the view is not there. -/
theorem begins_queryUntil (hk : k.policy.Standard) (hq : k.store.quantization = q) (hv : v ∈ View.builtins)
    (hparams : params.Proper) (hp : raw.Proper) (dest : List CacheKey) (hs : s = .take k (k.sourceDigest raw))
    (hfirst : (deadline?.isSome && !k.cache.contains (s.viewKey v.name params)) = true) :
    Begins B q dest k (.query v.name params raw deadline?)
      ⟨s, .ask s.compiledKey deadline? (.compile raw),
        [.expect .compiled s.compiledKey, .thenAsk (s.viewKey v.name params) deadline? (.view v params raw),
          .expect .view (s.viewKey v.name params)]⟩ (.view v params) := by
  refine ⟨.query hv params raw deadline?, hs, ⟨_, _, _, rfl⟩, fun _ _ h => by simp at h, fun hB => ?_⟩
  simp only [Request.hashes, List.forall_mem_append, List.forall_mem_cons] at hB
  obtain ⟨hpolicy, ⟨hraw, hph⟩, hkey, hcompiled⟩ := hB
  have hsnapshot : (Request.query v.name params raw deadline?).snapshot k = s := hs.symm
  rw [hsnapshot, if_pos hfirst, List.forall_mem_singleton] at hcompiled
  subst hs
  have hr := reads_of_rawHashes hq hp hraw
  have hph := hashed_of_paramsHashes hph
  have hask := Asks.view deadline? ⟨rfl, hkey, hv, hparams, hph⟩ hr
  exact ⟨⟨hparams, hph, hr⟩, valid_of_policyHashes hk hq _ hpolicy, .someCompiled,
    .ask (.compileUntil deadline? ⟨rfl, hcompiled, hr⟩),
    .expectSome _ (.thenAsk (fun _ h => by cases h) hask (.expectView _ (.nil _)))⟩

theorem begins_query (hk : k.policy.Standard) (hq : k.store.quantization = q) (hv : v ∈ View.builtins)
    (hparams : params.Proper) (hp : raw.Proper) (dest : List CacheKey) (hs : s = .take k (k.sourceDigest raw)) :
    Begins B q dest k (.query v.name params raw deadline?)
      (.forView s (s.viewKey v.name params) deadline? (.view v params raw)) (.view v params) := by
  refine ⟨.query hv params raw deadline?, hs, ⟨_, _, _, rfl⟩, fun _ _ h => by simp [Task.forView] at h, fun hB => ?_⟩
  simp only [Request.hashes, List.forall_mem_append, List.forall_mem_cons] at hB
  obtain ⟨hpolicy, ⟨hraw, hph⟩, hkey, -⟩ := hB
  subst hs
  have hr := reads_of_rawHashes hq hp hraw
  have hph := hashed_of_paramsHashes hph
  exact ⟨⟨hparams, hph, hr⟩, valid_of_policyHashes hk hq _ hpolicy, .view v params,
    .ask (.view deadline? ⟨rfl, hkey, hv, hparams, hph⟩ hr), .expectView _ (.nil _)⟩

theorem begins_queryCompiled (hk : k.policy.Standard) (hq : k.store.quantization = q) (hv : v ∈ View.builtins)
    (hparams : params.Proper) (dest : List CacheKey) {source : Digest} (hs : s = .take k source) :
    Begins B q dest k (.queryCompiled v.name params source)
      (.forView s (s.viewKey v.name params) none (.viewOfCached v params)) (.view v params) := by
  refine ⟨.queryCompiled hv params source, hs, ⟨_, _, _, rfl⟩, fun _ _ h => by simp [Task.forView] at h,
    fun hB => ?_⟩
  simp only [Request.hashes, List.forall_mem_append, List.forall_mem_singleton] at hB
  obtain ⟨hpolicy, hph, hkey⟩ := hB
  subst hs
  have hph := hashed_of_paramsHashes hph
  exact ⟨⟨hparams, hph, rfl⟩, valid_of_policyHashes hk hq _ hpolicy, .view v params,
    .ask (.viewOfCached none ⟨rfl, hkey, hv, hparams, hph⟩), .expectView _ (.nil _)⟩

end

/-- A call begins, unless there is no such view. -/
theorem ofRequest_cases (hk : k.policy.Standard) (hq : k.store.quantization = q)
    (hf : request.Fits) (dest : List CacheKey) :
    (∃ t w, Task.ofRequest k request = .ok t ∧ Begins B q dest k request t w) ∨
    ∃ e, Task.ofRequest k request = .error e ∧ ∀ raw, request ≠ .compile raw := by
  have hviews {name : String} {v : View} (hv : k.views.view name = .ok v) : v ∈ View.builtins ∧ v.name = name := by
    rcases Catalog.view_cases k.views name with ⟨v', hm, hname, hv'⟩ | ⟨e, hv'⟩
    · cases hv.symm.trans hv'
      exact ⟨hk.views ▸ hm, hname⟩
    · cases hv.symm.trans hv'
  have hopening := Task.ofRequest_opening k request
  generalize Task.ofRequest k request = r at hopening ⊢
  cases hopening with
  | compile hs => exact .inl ⟨_, _, rfl, begins_compile hk hq hf dest hs⟩
  | queryUntil hs hv hfirst =>
    obtain ⟨hm, rfl⟩ := hviews hv
    exact .inl ⟨_, _, rfl, begins_queryUntil hk hq hm hf.1 hf.2 dest hs hfirst⟩
  | query hs hv =>
    obtain ⟨hm, rfl⟩ := hviews hv
    exact .inl ⟨_, _, rfl, begins_query hk hq hm hf.1 hf.2 dest hs⟩
  | queryCompiled hs hv =>
    obtain ⟨hm, rfl⟩ := hviews hv
    exact .inl ⟨_, _, rfl, begins_queryCompiled hk hq hm hf dest hs⟩
  | refused hv => exact .inr ⟨_, rfl, fun _ h => by cases h⟩
  | refusedCompiled hv => exact .inr ⟨_, rfl, fun _ h => by cases h⟩

theorem Inv.call (h : Inv B q k calls) (hf : request.Fits) :
    (∃ t, Task.ofRequest k request = .ok t ∧ Quiet t.frames ∧ ((∀ b ∈ request.hashes k, B b) →
      Inv B q k (⟨request, request.snapshot k, .going t⟩ :: calls))) ∨
    ∃ e, Task.ofRequest k request = .error e ∧
      Inv B q k (⟨request, request.snapshot k, .done (.error e) false⟩ :: calls) := by
  obtain ⟨dest, hk, hc⟩ := h
  rcases ofRequest_cases (B := B) hk.sane.standard hk.quantization hf dest with
    ⟨t, w, ht, hbegins⟩ | ⟨e, ht, hr⟩
  · refine .inl ⟨t, ht, hbegins.quiet, fun hB => inv_going_iff.2 ⟨dest, w, hbegins.wants,
      (hbegins.toward hB).1, ⟨hbegins.snapshot, (hbegins.toward hB).2, ?_⟩, hc⟩⟩
    obtain ⟨key, deadline?, production, hg⟩ := hbegins.asks
    rw [hg]
    exact hk
  · refine .inr ⟨e, ht, dest, ?_, List.forall_mem_cons.2 ⟨.refused _ e hr, hc⟩⟩
    rw [waitsOf_cons]
    exact hk

/-! ## Events -/

theorem Inv.step (hB : ¬ Digest.Collides B) (h : Inv B q k (⟨request, began, .going t⟩ :: calls))
    (hh : ∀ b ∈ t.hashes k, B b) :
    Inv B q (t.step k).1 (⟨request, began, .ofProgress (t.step k).2⟩ :: calls) := by
  obtain ⟨dest, w, hw, hr, hgoing, hothers⟩ := inv_going_iff.1 h
  have hstep := t.step_going hB hgoing hh
  generalize t.step k = r at hstep
  cases hstep with
  | next more hnext =>
    exact inv_going_iff.2 ⟨dest ++ more, w, hw, hr, hnext, fun c hc => (hothers c hc).mono more⟩
  | blocked => exact h
  | done hg hm =>
    obtain ⟨rfl, ⟨hv, -⟩, hk⟩ := hgoing
    rw [hg] at hk
    refine ⟨dest, ?_, List.forall_mem_cons.2 ⟨.done true hw hr hv hm, hothers⟩⟩
    rw [waitsOf_cons]
    exact hk

theorem Inv.giveUp (h : Inv B q k (⟨request, began, .going t⟩ :: calls)) :
    Inv B q (t.giveUp k).1 (⟨request, began, .going (t.giveUp k).2⟩ :: calls) := by
  obtain ⟨dest, w, hw, hr, hgoing, hothers⟩ := inv_going_iff.1 h
  exact inv_going_iff.2 ⟨dest, w, hw, hr, Task.giveUp_going hgoing, hothers⟩

theorem Inv.drop {p : Payload} (h : Inv B q k (⟨request, began, .done (.ok p) true⟩ :: calls)) :
    Inv B q (k.release p) (⟨request, began, .done (.ok p) false⟩ :: calls) := by
  obtain ⟨dest, hk, hc⟩ := h
  obtain ⟨hg, hothers⟩ := List.forall_mem_cons.1 hc
  rw [waitsOf_cons] at hk
  cases hg with | done _ hw hr hv hm =>
  refine ⟨dest, ?_, List.forall_mem_cons.2 ⟨.done false hw hr hv hm, hothers⟩⟩
  rw [waitsOf_cons]
  exact Sound.release hk

theorem Inv.setPassList {names : List String} (h : Inv B q k calls)
    (hk : k.setPassList names = .ok k') : Inv B q k' calls := by
  refine h.change fun hs => ?_
  have hstandard := setPassList_standard hs.sane.standard hk
  obtain ⟨pipeline, -, rfl⟩ := setPassList_eq hk
  exact hs.configure hstandard rfl rfl rfl rfl rfl

theorem Inv.replaceHierarchy {hierarchy : Hierarchy} (h : Inv B q k calls) (hp : hierarchy.Proper) :
    Inv B q (k.replaceHierarchy hierarchy).1 calls := by
  refine h.change fun hs => ?_
  have hstandard : ({ k with hierarchy } : Kernel H).policy.Standard :=
    { hs.sane.standard with hierarchy := hp }
  exact (hs.configure hstandard rfl rfl rfl rfl rfl).invalidate _

theorem Inv.invalidateSource (h : Inv B q k calls) (source : Digest) :
    Inv B q (k.invalidateSource source).1 calls := h.change fun hs => hs.invalidate _

end

end Kernel

end ConfigCompiler
