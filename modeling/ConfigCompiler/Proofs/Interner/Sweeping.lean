import ConfigCompiler.Proofs.Interner.Levels

/-!
# Sweeps are not observed

Clients that do the same, but have the table swept at different moments, get the same answers and see the same
nodes and counts; only the size of the table tells them apart (`Client.sweeps_unobserved`).

A sweep in one of two runs shifts all the later automatic ones, so the tables differ from then on, but only in
dead slots: what a lookup finds depends on the handles alone (`Sound.lookup_eq`). So two stores that are sound for
the same handles and agree on their counts (`Twins`) still do after each has interned the same value
(`intern_twins`).
-/

namespace ConfigCompiler

namespace Store

variable {q : Quantization} {handles : List Interned} {s t : Store}

/-- What is found depends on the handles only. -/
theorem Sound.lookup_eq {B : List UInt8 → Prop} (hs : Sound B q s handles) (ht : Sound B q t handles)
    (d : Digest) : s.lookup d = t.lookup d :=
  Option.ext fun _ => hs.lookup_iff.trans ht.lookup_iff.symm

/-! ## Twins -/

/-- Stores that hold the same nodes and have counted the same. -/
structure Twins (q : Quantization) (handles : List Interned) (s t : Store) : Prop where
  left : Sound (fun _ => True) q s handles
  right : Sound (fun _ => True) q t handles
  tally : s.tally = t.tally

theorem Twins.perm {handles' : List Interned} (h : Twins q handles s t) (hp : handles.Perm handles') :
    Twins q handles' s t := ⟨h.left.perm hp, h.right.perm hp, h.tally⟩

theorem Twins.retain {n : Interned} (h : Twins q handles s t) (hn : Live handles n) :
    Twins q (n :: handles) (s.retain n) (t.retain n) :=
  ⟨h.left.retain_live hn, h.right.retain_live hn, by simpa using h.tally⟩

theorem Twins.release {n : Interned} (h : Twins q (n :: handles) s t) :
    Twins q handles (s.release n) (t.release n) :=
  ⟨h.left.release, h.right.release, by simpa using h.tally⟩

theorem Twins.sweep_left (h : Twins q handles s t) : Twins q handles s.sweep.1 t :=
  ⟨h.left.sweep, h.right, by simpa using h.tally⟩

/-- The same result twice, each in one of two twins. -/
inductive TwinResults {α : Type} (q : Quantization) (handles : List Interned) (nodes : α → List Interned) :
    Store × Except IntegrityError α → Store × Except IntegrityError α → Prop
  | ok {s t : Store} {x : α} : Twins q (nodes x ++ handles) s t →
      TwinResults q handles nodes (s, .ok x) (t, .ok x)
  | error {s t : Store} {e : IntegrityError} : Twins q handles s t →
      TwinResults q handles nodes (s, .error e) (t, .error e)

theorem TwinResults.of_yields {α : Type} {nodes : α → List Interned} {P : α → Prop}
    {r r' : Store × Except IntegrityError α} (h : Yields (fun _ => True) q handles nodes P r)
    (h' : Yields (fun _ => True) q handles nodes P r') (hr : r.2 = r'.2) (ht : r.1.tally = r'.1.tally) :
    TwinResults q handles nodes r r' := by
  cases h with
  | ok hs _ =>
    cases h' with
    | ok hs' _ =>
      cases hr
      exact .ok ⟨hs, hs', ht⟩
    | error _ _ => cases hr
  | error hs _ =>
    cases h' with
    | ok _ _ => cases hr
    | error hs' _ =>
      cases hr
      exact .error ⟨hs, hs', ht⟩

/-! ## Interning in twins -/

theorem Twins.resolve {d : Digest} {shape : Shape Interned} (h : Twins q (shape.children ++ handles) s t)
    (hb : Backed (fun _ => True) q d shape) :
    TwinResults q handles (fun n => [n]) (s.resolve d shape) (t.resolve d shape) := by
  have heq : ((s.resolve d shape).1.tally, (s.resolve d shape).2) =
      ((t.resolve d shape).1.tally, (t.resolve d shape).2) := by
    rw [resolve_tally, resolve_tally, h.tally, h.left.lookup_eq h.right]
  obtain ⟨ht, hr⟩ := Prod.mk.inj heq
  exact .of_yields (h.left.resolve_yields hb) (h.right.resolve_yields hb) hr ht

theorem internItems_twins {items : List Value} (hitems : ∀ v ∈ items, ∀ {handles s t}, Twins q handles s t →
      TwinResults q handles (fun n => [n]) (s.intern v) (t.intern v)) (h : Twins q handles s t) :
    TwinResults q handles id (s.internItems items) (t.internItems items) := by
  induction items generalizing handles s t with
  | nil =>
    rw [internItems, internItems]
    exact .ok h
  | cons v items ih =>
    have hv := hitems v List.mem_cons_self h
    rw [internItems, internItems]
    cases hs : s.intern v with | mk s₁ r =>
    cases ht : t.intern v with | mk t₁ r' =>
    rw [hs, ht] at hv
    cases hv with
    | error h₁ => exact .error h₁
    | ok h₁ =>
      have hrest := ih (fun w hw => hitems w (List.mem_cons_of_mem _ hw)) h₁
      simp only
      cases hs' : s₁.internItems items with | mk s₂ r =>
      cases ht' : t₁.internItems items with | mk t₂ r' =>
      rw [hs', ht'] at hrest
      cases hrest with
      | error h₂ => exact .error h₂.release
      | ok h₂ => exact .ok (h₂.perm List.perm_middle)

/-- Twins intern a value alike, whatever dead slots their tables have. -/
theorem intern_twins {v : Value} (hv : v.Proper) (h : Twins q handles s t) :
    TwinResults q handles (fun n => [n]) (s.intern v) (t.intern v) := by
  induction v using Value.child_induction generalizing handles s t with
  | h v ih =>
    have hitems := internItems_twins (fun c hc _ _ _ => ih c hc (hv.child hc)) h
    have hy := internItems_yields (fun c hc => intern_yields (hv.child hc)) h.left fun _ _ => trivial
    cases hs : s.internItems v.children with | mk s' r =>
    cases ht : t.internItems v.children with | mk t' r' =>
    rw [hs, ht] at hitems
    rw [hs] at hy
    cases hitems with
    | error h' =>
      rw [intern_error hs, intern_error ht]
      exact .error h'
    | ok h' =>
      cases hy with
      | ok _ hns =>
        rw [intern_resolve h.left.quantization hs hns, intern_resolve h.right.quantization ht hns]
        exact (h'.perm ((assemble_children hns).symm.append_right _)).resolve (backed_assemble hv.fits hns)

/-! ## What twins show -/

theorem Twins.holderCount_eq (h : Twins q handles s t) (n : Interned) :
    s.holderCount n = t.holderCount n := by
  obtain ⟨live, hs⟩ := h.left.exact
  obtain ⟨live', ht⟩ := h.right.exact
  have hchildren : (childrenOf live).Perm (childrenOf live') := (hs.perm ht).flatMap_right _
  rw [hs.holders, ht.holders, mentions_perm hchildren]

end Store

namespace Client

open Store (Live Sound Twins)

/-! ## Traces -/

def Op.isReclaim : Op → Bool
  | reclaim => true
  | _ => false

/-- What an operation answers. -/
inductive Answer where
  | interned (result : Except IntegrityError Interned)
  | found (n? : Option Interned)
  | done

def answer (c : Client) : Op → Answer
  | .intern v => .interned (c.store.intern v).2
  | .lookup d => .found (c.store.lookup d)
  | .get i path => .found (c.handles[i]?.bind (·.at? path))
  | .drop _ => .done
  | .reclaim => .done

/-- All that a client sees of its interner but the size of the table and what sweeps have removed. -/
structure Sight where
  handles : List Interned
  /-- The numbers of holders of the nodes of the handles. -/
  holders : List Nat
  calls : Nat
  hits : Nat
  distinct : Nat
  bytesSaved : Nat

def sight (c : Client) : Sight where
  handles := c.handles
  holders := c.handles.map c.store.holderCount
  calls := c.store.stats.calls
  hits := c.store.stats.hits
  distinct := c.store.stats.distinct
  bytesSaved := c.store.stats.bytesSaved

/-- The answers along a run and what is seen after each of them; nothing is noted for a sweep. -/
def trace (c : Client) : List Op → List (Answer × Sight)
  | [] => []
  | op :: ops =>
    if op.isReclaim then (c.step op).trace ops
    else (c.answer op, (c.step op).sight) :: (c.step op).trace ops

/-- Clients with the same handles whose stores are twins. -/
structure Alike (q : Quantization) (c c' : Client) : Prop where
  handles : c.handles = c'.handles
  store : Twins q c.handles c.store c'.store

variable {q : Quantization} {c c' : Client}

theorem Alike.sight_eq (h : Alike q c c') : c.sight = c'.sight := by
  obtain ⟨-, hcalls, hhits, hbytes⟩ := Store.Tally.mk.inj h.store.tally
  simp only [sight, Store.stats, Sight.mk.injEq]
  refine ⟨h.handles, ?_, hcalls, hhits, h.store.left.distinct_eq h.store.right, hbytes⟩
  rw [h.handles]
  exact List.map_congr_left fun n _ => h.store.holderCount_eq n

theorem Alike.keep (h : Alike q c c') {n? : Option Interned} (hn : ∀ n, n? = some n → Live c.handles n) :
    Alike q (c.keep n?) (c'.keep n?) := by
  cases n? with
  | none => exact h
  | some n => exact ⟨congrArg (n :: ·) h.handles, h.store.retain (hn n rfl)⟩

theorem Alike.reclaim (h : Alike q c c') : Alike q (c.step .reclaim) c' := ⟨h.handles, h.store.sweep_left⟩

/-- An operation gets the same answer from both, and leaves them alike. -/
theorem Alike.step (h : Alike q c c') {op : Op} (hp : op.Proper) (hop : op.isReclaim = false) :
    c.answer op = c'.answer op ∧ Alike q (c.step op) (c'.step op) := by
  obtain ⟨hh, hs⟩ := h
  cases op with
  | intern v =>
    have hv := Store.intern_twins hp hs
    simp only [answer, Client.step]
    cases hr : c.store.intern v with | mk s r =>
    cases hr' : c'.store.intern v with | mk s' r' =>
    rw [hr, hr'] at hv
    cases hv with
    | ok h => exact ⟨rfl, congrArg (_ :: ·) hh, h⟩
    | error h => exact ⟨rfl, hh, h⟩
  | lookup d =>
    have hl := hs.left.lookup_eq hs.right d
    rw [answer, answer, Client.step, Client.step, ← hl]
    exact ⟨rfl, Alike.keep ⟨hh, hs⟩ fun n hn => (hs.left.lookup_iff.1 hn).1⟩
  | get i path =>
    rw [answer, answer, Client.step, Client.step, ← hh]
    refine ⟨rfl, Alike.keep ⟨hh, hs⟩ fun n hn => ?_⟩
    obtain ⟨m, hm, hn⟩ := Option.bind_eq_some_iff.1 hn
    exact (Live.held (List.mem_of_getElem? hm)).at? hn
  | drop i =>
    refine ⟨rfl, ?_⟩
    rw [Client.step, Client.step, ← hh]
    split
    · exact ⟨hh, hs⟩
    · rename_i n hn
      obtain ⟨hi, rfl⟩ := List.getElem?_eq_some_iff.1 hn
      exact ⟨rfl, (hs.perm (List.getElem_cons_eraseIdx_perm hi).symm).release⟩
  | reclaim => cases hop

/-- A run shows the same as the run without its sweeps. -/
theorem Alike.run (h : Alike q c c') {ops : List Op} (hp : ∀ op ∈ ops, op.Proper) :
    c.trace ops = c'.trace (ops.filter (!·.isReclaim)) ∧
      Alike q (c.run ops) (c'.run (ops.filter (!·.isReclaim))) := by
  induction ops generalizing c c' with
  | nil => exact ⟨rfl, h⟩
  | cons op ops ih =>
    have hrest : ∀ op ∈ ops, op.Proper := fun op hm => hp op (List.mem_cons_of_mem _ hm)
    rw [run_cons, trace]
    cases hop : op.isReclaim with
    | true =>
      rw [if_pos rfl, List.filter_cons_of_neg (by simp [hop])]
      cases op with
      | reclaim => exact ih h.reclaim hrest
      | _ => cases hop
    | false =>
      obtain ⟨hanswer, hstep⟩ := h.step (hp op List.mem_cons_self) hop
      obtain ⟨htrace, halike⟩ := ih hstep hrest
      rw [List.filter_cons_of_pos (by simp [hop]), run_cons, trace, hop, if_neg Bool.false_ne_true,
        if_neg Bool.false_ne_true, hanswer, hstep.sight_eq, htrace]
      exact ⟨rfl, halike⟩

theorem alike_start (q : Quantization) : Alike q (start q) (start q) :=
  ⟨rfl, sound_start _ q, sound_start _ q, rfl⟩

/--
Two runs of the same operations, which may sweep at different moments, show the same: every answer, and after
every operation the handles with the identities and the contents of their nodes, the numbers of holders, and all
counts but the size of the table and the number of removed slots.
-/
theorem sweeps_unobserved (q : Quantization) {ops ops' : List Op} (hp : ∀ op ∈ ops, op.Proper)
    (hsame : ops.filter (!·.isReclaim) = ops'.filter (!·.isReclaim)) :
    (start q).trace ops = (start q).trace ops' ∧
      ((start q).run ops).sight = ((start q).run ops').sight := by
  have hp' : ∀ op ∈ ops', op.Proper := by
    intro op hm
    cases op with
    | reclaim => trivial
    | _ => exact hp _ (List.mem_filter.1 (hsame ▸ List.mem_filter.2 ⟨hm, rfl⟩)).1
  obtain ⟨ht, ha⟩ := (alike_start q).run hp
  obtain ⟨ht', ha'⟩ := (alike_start q).run hp'
  exact ⟨ht.trans (hsame ▸ ht'.symm), ha.sight_eq.trans (hsame ▸ ha'.sight_eq.symm)⟩

/-- A zero is interned and let go: a sweep takes its slot, and nothing that is seen shows it. -/
theorem sweeps_unobserved_zero :
    let v := Value.float negativeZero
    let c := (start (.epsilon .nan)).run [.intern v, .drop 0]
    let c' := (start (.epsilon .nan)).run [.intern v, .drop 0, .reclaim]
    (∀ op ∈ [Op.intern v, .drop 0], op.Proper) ∧
      [Op.intern v, .drop 0].filter (!·.isReclaim) =
        [Op.intern v, .drop 0, .reclaim].filter (!·.isReclaim) ∧
      (start (.epsilon .nan)).trace [.intern v, .drop 0] =
        (start (.epsilon .nan)).trace [.intern v, .drop 0, .reclaim] ∧
      c.sight = c'.sight ∧ c.store.table[v.digest (.epsilon .nan)]?.isSome = true ∧
        c'.store.table[v.digest (.epsilon .nan)]? = none := by
  intro v c c'
  have hv : v.Proper := proper_float negativeZero
  have hops : ∀ op ∈ [Op.intern v, .drop 0], op.Proper := by simp [Op.Proper, hv]
  have hsame : [Op.intern v, .drop 0].filter (!·.isReclaim) =
      [Op.intern v, .drop 0, .reclaim].filter (!·.isReclaim) := rfl
  obtain ⟨htrace, hsight⟩ := sweeps_unobserved (.epsilon .nan) hops hsame
  obtain ⟨s, n, hr, hs, hd⟩ := Store.intern_ok not_collides_zeroStrings hv
    ((hashed_seq_float rfl).item List.mem_cons_self) (sound_start _ (.epsilon .nan))
  have hc : c = ⟨s.release n, [],
      (start (.epsilon .nan)).hashed ++ (start (.epsilon .nan)).store.hashing v⟩ := by
    change ((start (.epsilon .nan)).step (.intern v)).step (.drop 0) = _
    rw [step_intern_ok hr]
    rfl
  have hslot : s.table[v.digest (.epsilon .nan)]? = some n :=
    (Option.filter_eq_some_iff.1 (hs.lookup_iff.2 ⟨.held List.mem_cons_self, hd⟩)).1
  refine ⟨hops, hsame, htrace, hsight, ?_, ?_⟩
  · rw [hc, Store.release_frame, hslot]
    rfl
  · refine Option.eq_none_iff_forall_ne_some.2 fun m hm => ?_
    change (c.store.sweep.1).table[v.digest (.epsilon .nan)]? = some m at hm
    rw [hc] at hm
    exact Store.not_live_nil (hs.release.sweep_table.1 hm).1

end Client

end ConfigCompiler
