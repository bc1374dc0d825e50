import ConfigCompiler.Proofs.Interner.Canonical
import ConfigCompiler.Proofs.Pipeline.Outline

/-!
# Where the entries of a compilation come from

Nothing is assumed here about the digests that a run works with. As long as no step fails, all that a draft
holds can be traced to its source: the keys are those of the expansions of the root, and each node stands
for the root value at the origin of its key (`Draft.Traced`). Every step of a compilation keeps this
(`Action.run_traced`), so what a run ends with is traced as well (`Run.all_traced`).
-/

namespace ConfigCompiler

open Store (Sound Represents)

/-- The key is bound to a node that stands for the root value at the origin of the expansion. -/
structure Binds (q : Quantization) (root : Entries Value) (x : Expansion) (e : Key × Interned) : Prop where
  key : e.1 = x.key
  value : ∃ r, root[x.origin]? = some r ∧ Represents q r.2 e.2

/-- The source is a map with these expansions. -/
structure Expanded (q : Quantization) (given : Premises) (source : Value) (root : Entries Value)
    (xs : List Expansion) : Prop where
  source : source = .map root
  expansions : Action.expansions q given root = .ok xs

/-- What a draft of a source holds, comes from the source. -/
structure Draft.Traced (q : Quantization) (given : Premises) (source : Value) (d : Draft) : Prop where
  of_source : d.source = source
  expansions : ∀ {xs}, d.expansions? = some xs → ∃ root, Expanded q given source root xs
  entries : ∀ {es}, d.entries? = some es →
    ∃ root xs, Expanded q given source root xs ∧ List.Forall₂ (Binds q root) xs es
  index : ∀ {x}, d.index? = some x →
    ∃ root xs, Expanded q given source root xs ∧ x = .build (xs.map Expansion.key)

/-- A compilation of a source binds the keys of its expansions, and is indexed by them. -/
def Compilation.Traced (q : Quantization) (given : Premises) (source : Value) (c : Compilation) : Prop :=
  ∃ root xs es stats, Expanded q given source root xs ∧ List.Forall₂ (Binds q root) xs es ∧
    c = .assemble es (.build (es.map Prod.fst)) given.source given.passSet stats

section
variable {H : Type} {q : Quantization} {given : Premises} {source : Value} {root : Entries Value}
variable {s s' : Store} {handles : List Interned} {d d' : Draft}

theorem Expanded.unique {root' : Entries Value} {xs xs' : List Expansion}
    (h : Expanded q given source root xs) (h' : Expanded q given source root' xs') :
    root' = root ∧ xs' = xs := by
  obtain ⟨rfl, hx⟩ := h
  obtain ⟨hsource, hx'⟩ := h'
  cases hsource
  cases hx.symm.trans hx'
  exact ⟨rfl, rfl⟩

theorem keys_of_binds {xs : List Expansion} {es : List (Key × Interned)}
    (h : List.Forall₂ (Binds q root) xs es) : es.map Prod.fst = xs.map Expansion.key := by
  induction h with
  | nil => rfl
  | cons hb _ ih => rw [List.map_cons, List.map_cons, hb.key, ih]

/-! ## Interning the origins -/

/-- The nodes of the origins so far are held, and stand for the values at the origins. -/
def MemoTraced (q : Quantization) (root : Entries Value) (handles : List Interned)
    (memo : Action.Memo) : Prop :=
  ∀ e ∈ memo, e.2 ∈ handles ∧ ∃ r, root[e.1]? = some r ∧ Represents q r.2 e.2

theorem MemoTraced.cons {memo : Action.Memo} (h : MemoTraced q root handles memo) (n : Interned) :
    MemoTraced q root (n :: handles) memo := fun e he =>
  ⟨List.mem_cons_of_mem n (h e he).1, (h e he).2⟩

theorem originNode_traced (hroot : ∀ e ∈ root, e.2.Proper) {memo memo' : Action.Memo}
    (hm : MemoTraced q root handles memo) (hs : Sound (fun _ => True) q s handles) {origin : Nat}
    {n : Interned} (h : Action.originNode s root memo origin = (s', .ok (memo', n))) :
    Sound (fun _ => True) q s' (n :: handles) ∧ MemoTraced q root (n :: handles) memo' ∧
      ∃ r, root[origin]? = some r ∧ Represents q r.2 n := by
  unfold Action.originNode at h
  cases hl : memo.lookup origin with
  | some m =>
    rw [hl] at h
    cases h
    obtain ⟨hn, hr⟩ := hm _ (mem_of_lookup hl)
    exact ⟨hs.retain hn, hm.cons n, hr⟩
  | none =>
    rw [hl] at h
    cases hr : root[origin]? with
    | none =>
      rw [hr] at h
      cases h
    | some r =>
      cases hi : s.intern r.2 with | mk s₁ result =>
      cases result with
      | error e =>
        simp only [hr, hi] at h
        cases h
      | ok m =>
        simp only [hr, hi] at h
        cases h
        obtain ⟨hs', hn⟩ := Client.represents_of_intern hs (hroot r (List.mem_of_getElem? hr)) hi
        refine ⟨hs', ?_, r, rfl, hn⟩
        intro e he
        rcases List.mem_cons.1 he with rfl | he
        · exact ⟨List.mem_cons_self, r, hr, hn⟩
        · exact hm.cons n e he

theorem internAll_traced (hroot : ∀ e ∈ root, e.2.Proper) {memo : Action.Memo}
    (hm : MemoTraced q root handles memo) (hs : Sound (fun _ => True) q s handles)
    {xs : List Expansion} {es : List (Key × Interned)}
    (h : Action.internAll root xs s memo = (s', .ok es)) :
    Sound (fun _ => True) q s' (es.map Prod.snd ++ handles) ∧ List.Forall₂ (Binds q root) xs es := by
  induction xs generalizing s handles memo es with
  | nil =>
    cases h
    exact ⟨hs, .nil⟩
  | cons x xs ih =>
    unfold Action.internAll at h
    split at h
    · cases h
    · rename_i s₁ memo₁ n hn
      obtain ⟨hs₁, hm₁, hr⟩ := originNode_traced hroot hm hs hn
      split at h
      · cases h
      · rename_i s₂ rest hrest
        cases h
        obtain ⟨hs₂, hbinds⟩ := ih hm₁ hs₁ hrest
        exact ⟨hs₂.perm List.perm_middle, .cons ⟨rfl, hr⟩ hbinds⟩

/-! ## Steps -/

theorem Draft.traced_ofSource : (Draft.ofSource source).Traced q given source where
  of_source := rfl
  expansions h := nomatch h
  entries h := nomatch h
  index h := nomatch h

theorem source_of_root (h : d.root = .ok root) : d.source = .map root := by
  rcases d.root_cases with ⟨root', hsource, hroot⟩ | ⟨-, e, hroot⟩
  · cases hroot.symm.trans h
    exact hsource
  · cases hroot.symm.trans h

theorem Action.transform_validate (h : (validate : Action H).transform given s d = (s', .ok d')) :
    s' = s ∧ d' = d := by
  simp only [transform] at h
  cases hv : d.source.validate with
  | error e =>
    rw [hv] at h
    cases h
  | ok u =>
    rw [hv] at h
    cases h
    exact ⟨rfl, rfl⟩

theorem Action.transform_expand (h : (expand : Action H).transform given s d = (s', .ok d')) :
    ∃ root xs, d.source = .map root ∧ expansions s.quantization given root = .ok xs ∧ s' = s ∧
      d' = { d with expansions? := some xs } := by
  simp only [transform] at h
  cases hroot : d.root with
  | error e =>
    rw [hroot] at h
    cases h
  | ok root =>
    cases hx : expansions s.quantization given root with
    | error e =>
      simp only [hroot, hx, bind, Except.bind] at h
      cases h
    | ok xs =>
      simp only [hroot, hx, bind, Except.bind] at h
      cases h
      exact ⟨root, xs, source_of_root hroot, hx, rfl, rfl⟩

theorem Action.transform_intern (h : (intern : Action H).transform given s d = (s', .ok d')) :
    ∃ root xs s₁ es, d.source = .map root ∧ d.expansions? = some xs ∧
      internAll root xs s [] = (s₁, .ok es) ∧ s' = s₁.releaseAll d.nodes ∧
      d' = { d with entries? := some es } := by
  simp only [transform] at h
  split at h
  · cases h
  · cases h
  · rename_i xs root hx hroot
    split at h
    · cases h
    · rename_i s₁ es hi
      cases h
      exact ⟨root, xs, s₁, es, source_of_root hroot, hx, hi, rfl, rfl⟩

theorem Action.transform_index (h : (index : Action H).transform given s d = (s', .ok d')) :
    ∃ es, d.entries? = some es ∧ s' = s ∧
      d' = { d with index? := some (.build (es.map Prod.fst)) } := by
  simp only [transform] at h
  split at h
  · cases h
  · rename_i es hes
    cases h
    exact ⟨es, hes, rfl, rfl⟩

/-- A step that does not fail leaves a draft traced. -/
theorem Action.run_traced {a : Action H} (ha : a.IsStep) (hp : source.Proper)
    (hs : Sound (fun _ => True) q s (d.nodes ++ handles)) (ht : d.Traced q given source)
    (h : a.run given s d = (s', .ok d')) :
    Sound (fun _ => True) q s' (d'.nodes ++ handles) ∧ d'.Traced q given source := by
  have htransform : a.transform given s d = (s', .ok d') := by
    unfold Action.run at h
    split at h
    · rename_i hok
      cases h
      exact hok
    · cases h
  cases ha with
  | validate =>
    obtain ⟨rfl, rfl⟩ := transform_validate htransform
    exact ⟨hs, ht⟩
  | expand =>
    obtain ⟨root, xs, hsource, hx, rfl, rfl⟩ := transform_expand htransform
    rw [hs.quantization] at hx
    refine ⟨hs, { ht with expansions := ?_ }⟩
    intro ys hys
    cases hys
    exact ⟨root, ht.of_source ▸ hsource, hx⟩
  | intern =>
    obtain ⟨root, xs, s₁, es, hsource, hx, hi, rfl, rfl⟩ := transform_intern htransform
    rw [ht.of_source] at hsource
    obtain ⟨root', hexpanded⟩ := ht.expansions hx
    cases hsource.symm.trans hexpanded.source
    have hentries : ∀ e ∈ root, e.2.Proper := fun e he => (hsource ▸ hp).entry he
    have hmemo : MemoTraced q root (d.nodes ++ handles) [] := fun e he => absurd he List.not_mem_nil
    obtain ⟨hs₁, hbinds⟩ := internAll_traced hentries hmemo hs hi
    refine ⟨Sound.releaseAll (hs₁.perm (List.perm_append_comm_assoc ..)), { ht with entries := ?_ }⟩
    intro es' hes'
    cases hes'
    exact ⟨root, xs, hexpanded, hbinds⟩
  | index =>
    obtain ⟨es, hes, rfl, rfl⟩ := transform_index htransform
    obtain ⟨root, xs, hexpanded, hbinds⟩ := ht.entries hes
    refine ⟨hs, { ht with index := ?_ }⟩
    intro x hx
    cases hx
    exact ⟨root, xs, hexpanded, by rw [keys_of_binds hbinds]⟩

/-! ## Runs -/

/-- What publication makes of a traced draft is traced. -/
theorem Run.publish_traced {c : Compilation} (hs : Sound (fun _ => True) q s (d.nodes ++ handles))
    (ht : d.Traced q given source) (h : Run.publish given s d = (s', .ok c)) :
    Sound (fun _ => True) q s' (c.nodes ++ handles) ∧ c.Traced q given source := by
  unfold Run.publish at h
  split at h
  · cases h
  · cases h
  · rename_i es index hes hindex
    cases h
    obtain ⟨root, xs, hexpanded, hbinds⟩ := ht.entries hes
    obtain ⟨root', xs', hexpanded', rfl⟩ := ht.index hindex
    obtain ⟨rfl, rfl⟩ := hexpanded.unique hexpanded'
    have hnodes : d.nodes = es.map Prod.snd := by rw [Draft.nodes, hes, Option.getD_some]
    rw [hnodes] at hs
    exact ⟨hs, root', xs', es, s.stats, hexpanded, hbinds, by rw [keys_of_binds hbinds]⟩

/-- Only steps are still to come, and the draft is traced. -/
structure Run.Traced (q : Quantization) (given : Premises) (source : Value) (handles : List Interned)
    (s : Store) (r : Run H) : Prop where
  steps : ∀ p ∈ r.rest, p.action.IsStep
  sound : Sound (fun _ => True) q s (r.draft.nodes ++ handles)
  draft : r.draft.Traced q given source

/-- What a traced run goes on to. -/
inductive Run.GoesOn (q : Quantization) (given : Premises) (source : Value) (handles : List Interned) :
    Store × Run.Progress H → Prop
  | next {s : Store} {r : Run H} : r.Traced q given source handles s →
      GoesOn q given source handles (s, .next r)
  | ok {s : Store} {transitions : List Transition} {c : Compilation} :
      Sound (fun _ => True) q s (c.nodes ++ handles) → c.Traced q given source →
      GoesOn q given source handles (s, .done transitions (.ok c))
  | error {s : Store} {transitions : List Transition} {e : PassFailure} :
      GoesOn q given source handles (s, .done transitions (.error e))

theorem Run.step_traced {r : Run H} (hp : source.Proper) (hr : r.Traced q given source handles s) :
    Run.GoesOn q given source handles (r.step given s) := by
  cases hrest : r.rest with
  | nil =>
    unfold Run.step
    simp only [hrest]
    cases hpub : Run.publish given s r.draft with | mk s' result =>
    cases result with
    | error e => exact .error
    | ok c =>
      obtain ⟨hs', hc⟩ := Run.publish_traced hr.sound hr.draft hpub
      exact .ok hs' hc
  | cons p rest =>
    have hstep := hr.steps p (hrest ▸ List.mem_cons_self)
    rw [Run.step_cons hrest hstep]
    cases hrun : p.action.run given s r.draft with | mk s' result =>
    cases result with
    | error e => exact .error
    | ok d =>
      obtain ⟨hs', hd⟩ := Action.run_traced hstep hp hr.sound hr.draft hrun
      exact .next ⟨fun p' hp' => hr.steps p' (hrest ▸ List.mem_cons_of_mem p hp'), hs', hd⟩

theorem Run.toEnd_traced {r : Run H} (hp : source.Proper) (hr : r.Traced q given source handles s)
    {fuel : Nat} {transitions : List Transition} {c : Compilation}
    (h : Run.toEnd given fuel s r = (s', transitions, .ok c)) :
    Sound (fun _ => True) q s' (c.nodes ++ handles) ∧ c.Traced q given source := by
  induction fuel generalizing s r with
  | zero => cases h
  | succ fuel ih =>
    unfold Run.toEnd at h
    have hgoes := Run.step_traced hp hr
    cases hstep : r.step given s with | mk s₁ progress =>
    rw [hstep] at hgoes
    simp only [hstep] at h
    cases hgoes with
    | next hr' => exact ih hr' h
    | ok hs' hc =>
      cases h
      exact ⟨hs', hc⟩
    | error => cases h

/-- What any run of steps ends with can be traced to the configuration that it began with. -/
theorem Run.all_traced {passes : List (Pass H)} (hsteps : ∀ p ∈ passes, p.action.IsStep)
    (hp : source.Proper) (hs : Sound (fun _ => True) q s handles) {transitions : List Transition}
    {c : Compilation} (h : Run.all given s passes source = (s', transitions, .ok c)) :
    Sound (fun _ => True) q s' (c.nodes ++ handles) ∧ c.Traced q given source :=
  Run.toEnd_traced hp ⟨hsteps, hs, Draft.traced_ofSource⟩ h

end

end ConfigCompiler
