import ConfigCompiler.Proofs.Kernel.Keys

/-!
# Right answers

Each goal of a task has a want: what its answer is to be (`Want.Met`). The frames of a task pass an answer
from want to want (`Stack`), down to that of the call. A result is right for a key (`Right`) if it meets the
want of some snapshot that the key belongs to; without collisions it then meets the wants of all snapshots
that the key belongs to (`Right.met`), which is what makes sharing safe.
-/

namespace ConfigCompiler

/-- What an answer is to be. -/
inductive Want where
  /-- The compilation of a configuration, or a failure if that fails. -/
  | compiled (raw : Value)
  /-- A compilation, or any failure. -/
  | someCompiled
  /-- The result of a view, or any failure. -/
  | view (v : View) (params : Params)

namespace Want

/-- Whether an answer may be shared under the key of the want. -/
def Firm : Want → Prop
  | someCompiled => False
  | _ => True

end Want

section
variable {H : Type} {B B' : List UInt8 → Prop} {q : Quantization} {s s' : Snapshot H}
variable {res : Except KernelError Payload} {key : CacheKey} {w w' : Want}

/-! ## Wants -/

/-- A payload holds what the passes of a snapshot make of its configuration. -/
def ShowsCompiled (B : List UInt8 → Prop) (q : Quantization) (s : Snapshot H) (p : Payload) : Prop :=
  ∃ c x raw, p.content = .compiled c ∧ c.Shows x ∧ s.Reads B q raw ∧ s.forecast q raw = some x

/-- A payload holds what a view makes of such a compilation. -/
def ShowsView (B : List UInt8 → Prop) (q : Quantization) (s : Snapshot H) (v : View) (params : Params)
    (p : Payload) : Prop :=
  ∃ r c x raw, p.content = .view r ∧ c.Shows x ∧ s.Reads B q raw ∧ s.forecast q raw = some x ∧
    View.SameAnswer (v.materialize c params) (.ok r)

/-- An answer is what was wanted. -/
def Want.Met (B : List UInt8 → Prop) (q : Quantization) (s : Snapshot H) :
    Want → Except KernelError Payload → Prop
  | compiled _, .ok p => ShowsCompiled B q s p
  | compiled raw, .error _ => s.forecast q raw = none
  | someCompiled, .ok p => ShowsCompiled B q s p
  | someCompiled, .error _ => True
  | view v params, .ok p => ShowsView B q s v params p
  | view _ _, .error _ => True

/-- A key is that of the want in a snapshot. -/
def Want.IsKey (B : List UInt8 → Prop) (q : Quantization) (s : Snapshot H) (key : CacheKey) :
    Want → Prop
  | compiled raw => key = s.compiledKey ∧ B (CacheKey.encoded s.source s.passSet none) ∧ s.Reads B q raw
  | someCompiled => key = s.compiledKey ∧ B (CacheKey.encoded s.source s.passSet none)
  | view v params => key = s.viewKey v.name params ∧
      B (CacheKey.encoded s.source s.passSet (some (v.name, params.digest))) ∧
      v ∈ View.builtins ∧ params.Proper ∧ params.Hashed B

theorem Want.Met.loosen {raw : Value} (h : (Want.compiled raw).Met B q s res) :
    Want.someCompiled.Met B q s res := by
  cases res with
  | ok p => exact h
  | error e => trivial

/-- A failure meets all wants but that of a compilation. -/
theorem Want.met_error (hw : ∀ raw, w ≠ .compiled raw) (e : KernelError) : w.Met B q s (.error e) := by
  cases w with
  | compiled raw => exact absurd rfl (hw raw)
  | someCompiled => trivial
  | view v params => trivial

/-! ## Results under a key -/

/-- A result meets the want that a key belongs to. -/
def Right (H : Type) (B : List UInt8 → Prop) (q : Quantization) (key : CacheKey)
    (res : Except KernelError Payload) : Prop :=
  ∃ (s : Snapshot H) (w : Want), s.Valid B q ∧ w.Firm ∧ w.IsKey B q s key ∧ w.Met B q s res

theorem Snapshot.Reads.of_source {raw : Value} (h : s.Reads B q raw) (hs : s.source = s'.source) :
    s'.Reads B q raw := ⟨h.proper, h.hashed, h.digest.trans hs⟩

theorem ShowsCompiled.transfer (hB : ¬ Digest.Collides B) (hv : s.Valid B q) (hv' : s'.Valid B q)
    (hs : s.source = s'.source) (hp : s.passSet = s'.passSet) {p : Payload} (h : ShowsCompiled B q s p) :
    ShowsCompiled B q s' p := by
  obtain ⟨c, x, raw, hc, hx, hr, hf⟩ := h
  have hr' := hr.of_source hs
  exact ⟨c, x, raw, hc, hx, hr', (Snapshot.forecast_eq hB hv hv' hs hp hr hr').symm.trans hf⟩

theorem View.SameAnswer.trans {a b c : Except ViewError View.Result} (h : View.SameAnswer a b)
    (h' : View.SameAnswer b c) : View.SameAnswer a c := by
  cases h with
  | ok h => cases h' with | ok h' => exact .ok (h.trans h')
  | error e => exact h'

theorem ShowsView.transfer (hB : ¬ Digest.Collides B) (hv : s.Valid B q) (hv' : s'.Valid B q)
    (hs : s.source = s'.source) (hp : s.passSet = s'.passSet) {v : View} (hview : v ∈ View.builtins)
    {params params' : Params} (hparams : params'.Alike params) {p : Payload}
    (h : ShowsView B q s v params p) : ShowsView B q s' v params' p := by
  obtain ⟨r, c, x, raw, hc, hx, hr, hf, hsame⟩ := h
  have hr' := hr.of_source hs
  exact ⟨r, c, x, raw, hc, hx, hr', (Snapshot.forecast_eq hB hv hv' hs hp hr hr').symm.trans hf,
    (View.materialize_congr hx hx hparams hview).trans hsame⟩

/-- Without collisions, a result that is right for a key meets every want that the key belongs to. -/
theorem Right.met (hB : ¬ Digest.Collides B) (h : Right H B q key res) (hv : s.Valid B q)
    (hk : w.IsKey B q s key) : w.Met B q s res := by
  obtain ⟨s₀, w₀, hv₀, hfirm, hk₀, hm⟩ := h
  have hcompiled {raw : Value} (hk₀ : (Want.compiled raw).IsKey B q s₀ key)
      (hk : key = s.compiledKey ∧ B (CacheKey.encoded s.source s.passSet none)) :
      s₀.source = s.source ∧ s₀.passSet = s.passSet :=
    CacheKey.compiled_inj hB hk₀.2.1 hk.2 (hk₀.1.symm.trans hk.1)
  cases w₀ with
  | someCompiled => cases hfirm
  | compiled raw₀ =>
    cases w with
    | compiled raw =>
      obtain ⟨hs, hp⟩ := hcompiled hk₀ ⟨hk.1, hk.2.1⟩
      cases res with
      | ok p => exact ShowsCompiled.transfer hB hv₀ hv hs hp hm
      | error e => exact (Snapshot.forecast_eq hB hv₀ hv hs hp hk₀.2.2 hk.2.2).symm.trans hm
    | someCompiled =>
      obtain ⟨hs, hp⟩ := hcompiled hk₀ hk
      cases res with
      | ok p => exact ShowsCompiled.transfer hB hv₀ hv hs hp hm
      | error e => trivial
    | view v params =>
      exact absurd (hk₀.1.symm.trans hk.1)
        (CacheKey.compiled_ne_view hB (View.name_size hk.2.2.1) hk₀.2.1 hk.2.1)
  | view v₀ params₀ =>
    cases w with
    | compiled raw =>
      exact absurd (hk.1.symm.trans hk₀.1)
        (CacheKey.compiled_ne_view hB (View.name_size hk₀.2.2.1) hk.2.1 hk₀.2.1)
    | someCompiled =>
      exact absurd (hk.1.symm.trans hk₀.1)
        (CacheKey.compiled_ne_view hB (View.name_size hk₀.2.2.1) hk.2 hk₀.2.1)
    | view v params =>
      obtain ⟨hs, hp, hn, hd⟩ := CacheKey.view_inj hB (View.name_size hk₀.2.2.1)
        (View.name_size hk.2.2.1) hk₀.2.1 hk.2.1 (hk₀.1.symm.trans hk.1)
      obtain rfl := View.eq_of_name hk₀.2.2.1 hk.2.2.1 hn
      have halike := Params.alike_of_digest_eq hB hk.2.2.2.1 hk₀.2.2.2.1 hk.2.2.2.2 hk₀.2.2.2.2 hd.symm
      cases res with
      | ok p => exact ShowsView.transfer hB hv₀ hv hs hp hk₀.2.2.1 halike hm
      | error e => trivial

/-! ## Goals and frames -/

/-- A key is asked for with the production that belongs to the want. -/
inductive Asks (B : List UInt8 → Prop) (q : Quantization) (s : Snapshot H) (key : CacheKey) :
    Option Deadline → Production → Want → Prop
  | compile {raw : Value} (hk : (Want.compiled raw).IsKey B q s key) :
      Asks B q s key none (.compile raw) (.compiled raw)
  | compileUntil {raw : Value} (deadline? : Option Deadline) (hk : (Want.compiled raw).IsKey B q s key) :
      Asks B q s key deadline? (.compile raw) .someCompiled
  | view {v : View} {params : Params} {raw : Value} (deadline? : Option Deadline)
      (hk : (Want.view v params).IsKey B q s key) (hr : s.Reads B q raw) :
      Asks B q s key deadline? (.view v params raw) (.view v params)
  | viewOfCached {v : View} {params : Params} (deadline? : Option Deadline)
      (hk : (Want.view v params).IsKey B q s key) :
      Asks B q s key deadline? (.viewOfCached v params) (.view v params)

theorem Asks.isKey {deadline? : Option Deadline} {production : Production}
    (h : Asks B q s key deadline? production w) : w.IsKey B q s key := by
  cases h with
  | compile hk => exact hk
  | compileUntil _ hk => exact ⟨hk.1, hk.2.1⟩
  | view _ hk _ => exact hk
  | viewOfCached _ hk => exact hk

/-- Frames make of an answer to one want an answer to another; `dest` are the keys of the flights so far. -/
inductive Stack (B : List UInt8 → Prop) (q : Quantization) (dest : List CacheKey) (s : Snapshot H) :
    Want → List Frame → Want → Prop
  | nil (w : Want) : Stack B q dest s w [] w
  | loosen {raw : Value} {fs : List Frame} {w : Want} (h : Stack B q dest s .someCompiled fs w) :
      Stack B q dest s (.compiled raw) fs w
  | expectCompiled {raw : Value} {fs : List Frame} {w : Want} (key : CacheKey)
      (h : Stack B q dest s (.compiled raw) fs w) :
      Stack B q dest s (.compiled raw) (.expect .compiled key :: fs) w
  | expectSome {fs : List Frame} {w : Want} (key : CacheKey) (h : Stack B q dest s .someCompiled fs w) :
      Stack B q dest s .someCompiled (.expect .compiled key :: fs) w
  | expectView {v : View} {params : Params} {fs : List Frame} {w : Want} (key : CacheKey)
      (h : Stack B q dest s (.view v params) fs w) :
      Stack B q dest s (.view v params) (.expect .view key :: fs) w
  | materialize {v : View} {params : Params} {fs : List Frame} {w : Want} (key : CacheKey)
      (hv : v ∈ View.builtins) (h : Stack B q dest s (.view v params) fs w) :
      Stack B q dest s .someCompiled (.materialize key v params :: fs) w
  | land {w w' : Want} {fs : List Frame} {key : CacheKey} {flight : Nat} (hfirm : w.Firm)
      (hk : w.IsKey B q s key) (hd : dest[flight]? = some key) (h : Stack B q dest s w fs w') :
      Stack B q dest s w (.land key flight :: fs) w'
  | thenAsk {w w' : Want} {fs : List Frame} {key : CacheKey} {deadline? : Option Deadline}
      {production : Production} (hw : ∀ raw, w ≠ .compiled raw) (ha : Asks B q s key deadline? production w)
      (h : Stack B q dest s w fs w') :
      Stack B q dest s .someCompiled (.thenAsk key deadline? production :: fs) w'

/-- A run that comes to what is foreseen for a configuration. -/
structure OnCourse (q : Quantization) (s : Snapshot H) (raw : Value) (r : Run H) : Prop where
  source : r.draft.source = raw
  isStep : ∀ p ∈ r.rest, p.action.IsStep
  forecast : Outline.forecast (s.setting q raw) r.rest (r.draft.outline q) = s.forecast q raw

/-- A goal is on its way to an answer to the want. -/
inductive Goal.Toward (B : List UInt8 → Prop) (q : Quantization) (dest : List CacheKey) (s : Snapshot H) :
    Goal H → Want → Prop
  | ask {key : CacheKey} {deadline? : Option Deadline} {production : Production} {w : Want}
      (h : Asks B q s key deadline? production w) : Toward B q dest s (.ask key deadline? production) w
  | wait {key : CacheKey} {flight : Nat} {deadline? : Option Deadline} {production : Production} {w : Want}
      (h : Asks B q s key deadline? production w) (hd : dest[flight]? = some key) :
      Toward B q dest s (.wait key flight deadline? production) w
  | run {raw : Value} {r : Run H} (hr : s.Reads B q raw) (h : OnCourse q s raw r) :
      Toward B q dest s (.run r) (.compiled raw)
  | answer {res : Except KernelError Payload} {w : Want} (h : w.Met B q s res) :
      Toward B q dest s (.answer res) w

/-- A task is on its way to an answer to the want of its call. -/
def Task.Toward (B : List UInt8 → Prop) (q : Quantization) (dest : List CacheKey) (t : Task H) (w : Want) :
    Prop :=
  t.snapshot.Valid B q ∧ ∃ w₁, t.goal.Toward B q dest t.snapshot w₁ ∧
    Stack B q dest t.snapshot w₁ t.frames w

/-! ## Later flights -/

variable {dest dest' : List CacheKey}

theorem getElem?_of_append {key : CacheKey} {f : Nat} (h : dest[f]? = some key) (more : List CacheKey) :
    (dest ++ more)[f]? = some key := by
  obtain ⟨hlt, -⟩ := List.getElem?_eq_some_iff.1 h
  rw [List.getElem?_append_left hlt, h]

theorem Stack.mono {fs : List Frame} (h : Stack B q dest s w fs w') (more : List CacheKey) :
    Stack B q (dest ++ more) s w fs w' := by
  induction h with
  | nil => exact .nil _
  | loosen _ ih => exact .loosen ih
  | expectCompiled key _ ih => exact .expectCompiled key ih
  | expectSome key _ ih => exact .expectSome key ih
  | expectView key _ ih => exact .expectView key ih
  | materialize key hv _ ih => exact .materialize key hv ih
  | land hfirm hk hd _ ih => exact .land hfirm hk (getElem?_of_append hd more) ih
  | thenAsk hw ha _ ih => exact .thenAsk hw ha ih

theorem Goal.Toward.mono {g : Goal H} (h : g.Toward B q dest s w) (more : List CacheKey) :
    g.Toward B q (dest ++ more) s w := by
  cases h with
  | ask h => exact .ask h
  | wait h hd => exact .wait h (getElem?_of_append hd more)
  | run hr h => exact .run hr h
  | answer h => exact .answer h

theorem Task.Toward.mono {t : Task H} (h : t.Toward B q dest w) (more : List CacheKey) :
    t.Toward B q (dest ++ more) w := by
  obtain ⟨hv, w₁, hg, hs⟩ := h
  exact ⟨hv, w₁, hg.mono more, hs.mono more⟩

end

end ConfigCompiler
