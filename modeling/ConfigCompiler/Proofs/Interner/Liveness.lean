import Mathlib.Data.List.Nodup
import ConfigCompiler.Proofs.Interner.Canonical

/-!
# What an interner keeps alive

The handles of a client are all that keeps nodes alive: the table holds none of them, and after any run just
the nodes that the handles reach are found, counted and held (`liveness_exact`).

Interning may sweep the table before it is done, while it holds nodes that no caller has yet. `sweeps` lists
the stores that are swept while a value is interned, each with the handles to nodes that are held then. Each
of these stores is sound for its handles, and all that the counter of removed slots has counted was removed by
these sweeps (`sweeps_spec`), so no sweep takes the slot of a live node (`Sound.sweep_table`).
-/

namespace ConfigCompiler

namespace Store

/-! ## Letting go -/

theorem releaseAll_frame_of {ns : List Interned}
    (hrel : ∀ n ∈ ns, ∀ s : Store, s.release n = { s with holders := (s.release n).holders }) (s : Store) :
    s.releaseAll ns = { s with holders := (s.releaseAll ns).holders } := by
  induction ns generalizing s with
  | nil => rw [releaseAll]
  | cons n ns ih =>
    rw [releaseAll, ih fun m hm => hrel m (List.mem_cons_of_mem _ hm)]
    rw [hrel n List.mem_cons_self s]

/-- Letting go of a node changes nothing but who is held. -/
theorem release_frame (s : Store) (n : Interned) :
    s.release n = { s with holders := (s.release n).holders } := by
  rw [release_eq]
  split
  · exact releaseAll_frame_of (fun c hc s => release_frame s c) _
  · rfl
termination_by sizeOf n
decreasing_by exact sizeOf_child_lt hc

theorem releaseAll_frame (s : Store) (ns : List Interned) :
    s.releaseAll ns = { s with holders := (s.releaseAll ns).holders } :=
  releaseAll_frame_of (fun n _ s => release_frame s n) s

theorem reclaimed_release (s : Store) (n : Interned) : (s.release n).reclaimed = s.reclaimed := by
  rw [release_frame]

theorem reclaimed_releaseAll (s : Store) (ns : List Interned) :
    (s.releaseAll ns).reclaimed = s.reclaimed := by
  rw [releaseAll_frame]

/-! ## Sweeps while a value is interned -/

/-- The store that is swept when a shape is resolved, if one is; the new node is held then. -/
def resolveSweeps (s : Store) (handles : List Interned) (digest : Digest) (shape : Shape Interned) :
    List (Store × List Interned) :=
  let s := { s with calls := s.calls + 1 }
  match s.lookup digest with
  | some _ => []
  | none =>
    if (s.added digest shape).sweepAt ≤ (s.added digest shape).table.size
    then [(s.added digest shape, .node s.nextId digest shape :: handles)] else []

mutual

/-- The stores that are swept while a value is interned, each with the handles that are held then. -/
def sweeps (s : Store) (handles : List Interned) : Value → List (Store × List Interned)
  | .null => s.resolveSweeps handles Digest.null .null
  | .bool b => s.resolveSweeps handles (Digest.ofValueFields [.bool b]) (.bool b)
  | .int i => s.resolveSweeps handles (Digest.ofValueFields [.int i]) (.int i)
  | .float x => s.resolveSweeps handles (Digest.ofValueFields [.float x s.quantization])
      (.float (s.quantization.apply x))
  | .str t => s.resolveSweeps handles (Digest.ofValueFields [.text t]) (.str t)
  | .seq items => s.sweepsItems handles items ++
    match s.internItems items with
    | (_, .error _) => []
    | (s, .ok ns) => s.resolveSweeps handles (seqDigest ns) (.seq ns)
  | .map entries => s.sweepsEntries handles entries ++
    match s.internEntries entries with
    | (_, .error _) => []
    | (s, .ok ns) => s.resolveSweeps handles (mapDigest (Entries.sorted ns)) (.map (Entries.sorted ns))

/-- The nodes of the items before are held, too. -/
def sweepsItems (s : Store) (handles : List Interned) : List Value → List (Store × List Interned)
  | [] => []
  | v :: vs => s.sweeps handles v ++
    match s.intern v with
    | (_, .error _) => []
    | (s, .ok n) => s.sweepsItems (n :: handles) vs

def sweepsEntries (s : Store) (handles : List Interned) :
    List (String × Value) → List (Store × List Interned)
  | [] => []
  | (_, v) :: es => s.sweeps handles v ++
    match s.intern v with
    | (_, .error _) => []
    | (s, .ok n) => s.sweepsEntries (n :: handles) es

end

theorem sweepsEntries_eq (s : Store) (handles : List Interned) (entries : Entries Value) :
    s.sweepsEntries handles entries = s.sweepsItems handles (entries.map (·.2)) := by
  induction entries generalizing s handles with
  | nil => simp [sweepsEntries, sweepsItems]
  | cons e entries ih =>
    obtain ⟨key, v⟩ := e
    simp only [sweepsEntries, sweepsItems, List.map_cons, ih]

theorem sweeps_scalar {q : Quantization} {v : Value} {shape : Shape Interned}
    (hv : v.scalar? q = some shape) {s : Store} (hs : s.quantization = q) (handles : List Interned) :
    s.sweeps handles v = s.resolveSweeps handles (v.digest q) shape := by
  subst hs
  cases v <;> cases hv <;> rw [sweeps, Value.digest]

/-- The number of slots that some sweeps remove. -/
def removedBy (ts : List (Store × List Interned)) : Nat := (ts.map (·.1.sweep.2)).sum

@[simp] theorem removedBy_append (ts us : List (Store × List Interned)) :
    removedBy (ts ++ us) = removedBy ts + removedBy us := by simp [removedBy]

/-- All that is removed on the way to a result is removed by sweeps of sound stores. -/
structure SweepsSoundly {α : Type} (B : List UInt8 → Prop) (q : Quantization) (s : Store)
    (ts : List (Store × List Interned)) (r : Store × Except IntegrityError α) : Prop where
  sound : ∀ t ∈ ts, Sound B q t.1 t.2
  reclaimed : r.1.reclaimed = s.reclaimed + removedBy ts

section
variable {B : List UInt8 → Prop} {q : Quantization} {s : Store} {handles : List Interned}

theorem Sound.resolve_sweeps {d : Digest} {shape : Shape Interned}
    (h : Sound B q s (shape.children ++ handles)) (hb : Backed B q d shape) :
    SweepsSoundly B q s (s.resolveSweeps handles d shape) (s.resolve d shape) := by
  rw [resolve, resolveSweeps]
  dsimp only
  cases hl : Store.lookup { s with calls := s.calls + 1 } d with
  | some n =>
    refine ⟨by simp, ?_⟩
    simp only [reuse]
    split <;> exact reclaimed_releaseAll _ _
  | none =>
    obtain ⟨live, hi⟩ := h.called
    have hadd : Sound B q (Store.added { s with calls := s.calls + 1 } d shape)
        (.node s.nextId d shape :: handles) := ⟨_, hi.add hl hb⟩
    simp only [create_eq]
    split
    · exact ⟨by simpa using hadd, by simp [removedBy, Store.sweep, added]⟩
    · exact ⟨by simp, rfl⟩

theorem SweepsSoundly.append {α β : Type} {ts us : List (Store × List Interned)}
    {r : Store × Except IntegrityError α} {r' : Store × Except IntegrityError β}
    (h : SweepsSoundly B q s ts r) (h' : SweepsSoundly B q r.1 us r') :
    SweepsSoundly B q s (ts ++ us) r' where
  sound t ht := (List.mem_append.1 ht).elim (h.sound t) (h'.sound t)
  reclaimed := by rw [h'.reclaimed, h.reclaimed, removedBy_append, Nat.add_assoc]

theorem sweepsItems_spec {items : List Value} (hp : ∀ v ∈ items, v.Proper)
    (hitems : ∀ v ∈ items, ∀ {s handles}, Sound (fun _ => True) q s handles →
      SweepsSoundly (fun _ => True) q s (s.sweeps handles v) (s.intern v))
    (h : Sound (fun _ => True) q s handles) :
    SweepsSoundly (fun _ => True) q s (s.sweepsItems handles items) (s.internItems items) := by
  induction items generalizing s handles with
  | nil =>
    rw [sweepsItems, internItems]
    exact ⟨by simp, rfl⟩
  | cons v items ih =>
    have hv := hitems v List.mem_cons_self h
    have hy := intern_yields (hp v List.mem_cons_self) h fun _ _ => trivial
    rw [sweepsItems, internItems]
    cases hr : s.intern v with | mk s₁ r =>
    rw [hr] at hv hy
    cases hy with
    | error _ _ => exact hv.append ⟨by simp, rfl⟩
    | @ok _ n hs _ =>
      have hrest := ih (fun w hw => hp w (List.mem_cons_of_mem _ hw))
        (fun w hw => hitems w (List.mem_cons_of_mem _ hw)) hs
      refine hv.append ⟨hrest.sound, Eq.trans ?_ hrest.reclaimed⟩
      simp only
      rcases s₁.internItems items with ⟨s₂, e | ns⟩
      · exact reclaimed_release s₂ n
      · rfl

/-- Interning a value removes slots by sweeps of sound stores only. -/
theorem sweeps_spec {v : Value} (hv : v.Proper) (h : Sound (fun _ => True) q s handles) :
    SweepsSoundly (fun _ => True) q s (s.sweeps handles v) (s.intern v) := by
  induction v using Value.induction_scalar q generalizing s handles with
  | scalar v shape hshape =>
    obtain ⟨hdesc, hnil, heq⟩ := intern_scalar hshape
    rw [(heq s h.quantization).1, sweeps_scalar hshape h.quantization]
    exact Sound.resolve_sweeps (by rw [hnil]; exact h) (backed_of_encoded hdesc hv.fits trivial)
  | seq items ih =>
    have hitems := sweepsItems_spec (fun v hm => hv.item hm) (fun v hm _ _ => ih v hm (hv.item hm)) h
    have hy := internItems_yields (fun v hm => intern_yields (hv.item hm)) h fun _ _ => trivial
    rw [sweeps, intern]
    cases hr : s.internItems items with | mk s₁ r =>
    rw [hr] at hitems hy
    cases hy with
    | error _ _ => exact hitems.append ⟨by simp, rfl⟩
    | @ok _ ns hs hns =>
      refine hitems.append (Sound.resolve_sweeps hs ?_)
      rw [seqDigest_eq hns]
      exact backed_of_encoded (seq_fields hns ▸ .seq ns) hv.fits trivial
  | map entries ih =>
    have hproper : ∀ v ∈ entries.map (·.2), v.Proper := List.forall_mem_map.2 fun _ he => hv.entry he
    have hitems := sweepsItems_spec hproper
      (List.forall_mem_map.2 fun e he _ _ => ih e he (hv.entry he)) h
    have hy := internItems_yields (fun v hm => intern_yields (hproper v hm)) h fun _ _ => trivial
    rw [sweeps, intern, sweepsEntries_eq, internEntries_eq]
    cases hr : s.internItems (entries.map (·.2)) with | mk s₁ r =>
    rw [hr] at hitems hy
    cases hy with
    | error _ _ => exact hitems.append ⟨by simp [Except.map], rfl⟩
    | @ok _ ns hs hns =>
      have hs' : Sound (fun _ => True) q s₁ ((Shape.map (keyed entries ns)).children ++ handles) :=
        hs.perm ((keyed_children hns).symm.append_right _)
      refine hitems.append (Sound.resolve_sweeps hs' ?_)
      change Backed _ q (mapDigest (keyed entries ns)) (.map (keyed entries ns))
      rw [mapDigest_eq hns]
      exact backed_of_encoded (map_fields hns ▸ .map _) hv.fits trivial

/-! ## Accounts -/

/-- The live slots are those that a lookup finds. -/
theorem getElem?_filter_isLive (s : Store) (d : Digest) :
    (s.table.filter fun _ n => s.isLive n)[d]? = s.lookup d := Std.HashMap.getElem?_filter'

/-- A sweep leaves just the slots of live nodes. -/
theorem Sound.sweep_table (h : Sound B q s handles) {d : Digest} {n : Interned} :
    s.sweep.1.table[d]? = some n ↔ Live handles n ∧ n.digest = d := by
  rw [← h.lookup_iff, ← getElem?_filter_isLive]
  rfl

/-- The live slots of the table are those of the live nodes. -/
theorem Inv.distinct {live : List Interned} (h : Inv B q s live handles) :
    s.stats.distinct = live.length := by
  have hmem (e : Digest × Interned) : e ∈ (s.table.filter fun _ n => s.isLive n).toList ↔
      e.2 ∈ live ∧ e.2.digest = e.1 := by
    rw [← h.lookup_eq_some_iff, ← getElem?_filter_isLive]
    exact Std.HashMap.mem_toList_iff_getElem?_eq_some
  have hkeys : ((s.table.filter fun _ n => s.isLive n).toList).Pairwise fun a b => a.1 ≠ b.1 :=
    Std.HashMap.distinct_keys_toList.imp fun hab => by simpa using hab
  have hperm : ((s.table.filter fun _ n => s.isLive n).toList.map (·.2)).Perm live := by
    rw [List.perm_ext_iff_of_nodup ?_ (h.ids_nodup.of_map _)]
    · intro n
      constructor
      · intro hn
        obtain ⟨e, he, rfl⟩ := List.mem_map.1 hn
        exact ((hmem e).1 he).1
      · exact fun hn => List.mem_map.2 ⟨(n.digest, n), (hmem _).2 ⟨hn, rfl⟩, rfl⟩
    · -- nodes in slots of different digests have different digests
      refine List.pairwise_map.2 (hkeys.imp_of_mem fun {a b} ha hb hne hab => hne ?_)
      rw [← ((hmem a).1 ha).2, ← ((hmem b).1 hb).2, hab]
  rw [stats, ← Std.HashMap.length_toList, ← hperm.length_eq, List.length_map]

theorem Inv.holderCount_eq {live : List Interned} (h : Inv B q s live handles) (n : Interned) :
    s.holderCount n = mentions handles n.id + mentions (childrenOf live) n.id := by
  rw [← mentions_append]
  cases hc : s.holders.contains n.id with
  | true =>
    obtain ⟨m, hm, hid⟩ := h.contains.1 hc
    rw [← hid, ← h.count hm, holderCount, holderCount, hid]
  | false =>
    rw [holderCount, Std.HashMap.getD_eq_fallback_of_contains_eq_false hc, eq_comm, mentions,
      List.countP_eq_zero]
    intro m hm hid
    have hlive : m ∈ live := by
      rcases List.mem_append.1 hm with hm | hm
      · exact h.held hm
      · obtain ⟨p, hp, hm⟩ := List.mem_flatMap.1 hm
        exact h.children hp hm
    rw [h.contains.2 ⟨m, hlive, by simpa using hid⟩] at hc
    cases hc

/-- Just the nodes that handles keep are found and counted, and each is held by those who refer to it. -/
structure Exact (s : Store) (handles live : List Interned) : Prop where
  live_iff : ∀ n, n ∈ live ↔ Live handles n
  ids_nodup : (live.map Interned.id).Nodup
  lookup_iff : ∀ d n, s.lookup d = some n ↔ Live handles n ∧ n.digest = d
  distinct : s.stats.distinct = live.length
  holders : ∀ n, s.holderCount n = mentions handles n.id + mentions (childrenOf live) n.id

theorem Sound.exact (h : Sound B q s handles) : ∃ live, Exact s handles live := by
  obtain ⟨live, hi⟩ := id h
  exact ⟨live, fun _ => hi.mem_iff, hi.ids_nodup, fun _ _ => h.lookup_iff, hi.distinct,
    hi.holderCount_eq⟩

/-- The live nodes are known from the handles. -/
theorem Exact.perm {t : Store} {live live' : List Interned} (h : Exact s handles live)
    (h' : Exact t handles live') : live.Perm live' :=
  (List.perm_ext_iff_of_nodup (h.ids_nodup.of_map _) (h'.ids_nodup.of_map _)).2 fun n =>
    (h.live_iff n).trans (h'.live_iff n).symm

/-- How many nodes are live depends on the handles only. -/
theorem Sound.distinct_eq {t : Store} (hs : Sound B q s handles) (ht : Sound B q t handles) :
    s.stats.distinct = t.stats.distinct := by
  obtain ⟨live, h⟩ := hs.exact
  obtain ⟨live', h'⟩ := ht.exact
  rw [h.distinct, h'.distinct, (h.perm h').length_eq]

end

end Store

namespace Client

open Store (Live Sound Exact)

/-- The stores that an operation sweeps, each with the handles that are held then. -/
def sweeps (c : Client) : Op → List (Store × List Interned)
  | .intern v => c.store.sweeps c.handles v
  | .reclaim => [(c.store, c.handles)]
  | _ => []

theorem reclaimed_keep (c : Client) (n? : Option Interned) :
    (c.keep n?).store.reclaimed = c.store.reclaimed := by
  cases n? <;> rfl

/-- Every operation sweeps sound stores only, and removes nothing from the table otherwise. -/
theorem sweeps_step {q : Quantization} {c : Client} (h : Sound (fun _ => True) q c.store c.handles)
    {op : Op} (hp : op.Proper) : (∀ t ∈ c.sweeps op, Sound (fun _ => True) q t.1 t.2) ∧
      (c.step op).store.reclaimed = c.store.reclaimed + Store.removedBy (c.sweeps op) := by
  cases op with
  | intern v =>
    obtain ⟨hsound, hcount⟩ := Store.sweeps_spec hp h
    refine ⟨hsound, Eq.trans ?_ hcount⟩
    rw [step]
    rcases c.store.intern v with ⟨s, e | n⟩ <;> rfl
  | lookup d => exact ⟨by simp [sweeps], reclaimed_keep ..⟩
  | get i path => exact ⟨by simp [sweeps], reclaimed_keep ..⟩
  | drop i =>
    refine ⟨by simp [sweeps], ?_⟩
    rw [step]
    split
    · rfl
    · exact Store.reclaimed_release _ _
  | reclaim => exact ⟨by simpa [sweeps] using h, by simp [step, sweeps, Store.removedBy, Store.sweep]⟩

/--
In every state that a client can reach, the handles are all that keeps nodes alive: a digest finds the node of
this digest that the handles reach, the number of live nodes is right, and each node has as many holders as
there are handles to it and occurrences of it as a child of live nodes. Whatever is done next, each sweep on
the way leaves just the slots of the nodes that are live then, and only these sweeps remove slots.
-/
theorem liveness_exact (q : Quantization) {ops : List Op} (hp : ∀ op ∈ ops, op.Proper) :
    let c := (start q).run ops
    (∃ live, Exact c.store c.handles live) ∧
    ∀ op : Op, op.Proper →
      (∀ t ∈ c.sweeps op, ∀ d n, t.1.sweep.1.table[d]? = some n ↔ Live t.2 n ∧ n.digest = d) ∧
      (c.step op).store.reclaimed = c.store.reclaimed + Store.removedBy (c.sweeps op) := by
  intro c
  have hc : Sound (fun _ => True) q c.store c.handles := sound_run (sound_start _ q) hp fun _ _ => trivial
  refine ⟨hc.exact, fun op hop => ?_⟩
  obtain ⟨hsound, hcount⟩ := sweeps_step hc hop
  exact ⟨fun t ht _ _ => (hsound t ht).sweep_table, hcount⟩

/-- When the handle to a sequence is dropped, its item stays alive by a handle of its own, and nothing else. -/
theorem liveness_exact_item :
    ∃ n m : Interned, n.at? [.item 0] = some m ∧
      let c := (start (.epsilon .nan)).run
        [.intern (.seq [.float negativeZero]), .get 0 [.item 0], .drop 1]
      c.handles = [m] ∧ c.store.stats.distinct = 1 ∧ c.store.holderCount m = 1 ∧
        c.store.lookup m.digest = some m ∧ c.store.lookup n.digest = none ∧
        c.store.sweep.1.table[m.digest]? = some m ∧ c.store.sweep.1.table[n.digest]? = none := by
  have hv := proper_seq_float negativeZero
  obtain ⟨s, n, hr, -, -⟩ := Store.intern_ok not_collides_zeroStrings hv (hashed_seq_float rfl)
    (sound_start _ (.epsilon .nan))
  obtain ⟨-, hn⟩ := represents_of_intern (sound_start _ (.epsilon .nan)) hv hr
  have hitem : (Value.seq [.float negativeZero]).at? [.item 0] = some (.float negativeZero) := rfl
  obtain ⟨m, hm, hrm, -⟩ := hn.at? hv hitem
  have hops : ∀ op ∈ [Op.intern (.seq [.float negativeZero]), .get 0 [.item 0], .drop 1], op.Proper := by
    simp [Op.Proper, hv]
  have hhandles : ((start (.epsilon .nan)).run
      [.intern (.seq [.float negativeZero]), .get 0 [.item 0], .drop 1]).handles = [m] := by
    rw [run_cons, step_intern_ok hr]
    simp [run, step, start, keep, hm]
  obtain ⟨⟨live, hexact⟩, hsweeps⟩ := liveness_exact (.epsilon .nan) hops
  have hreclaim := (hsweeps .reclaim trivial).1 _ (List.mem_singleton_self _)
  simp only [hhandles] at hexact hreclaim
  -- a float has no children, so it alone is live
  have hshape : m.shape.children = [] := by
    cases hrm with
    | scalar _ hs => rw [← Option.some.inj hs]; rfl
  have hlive (k : Interned) : Live [m] k ↔ k = m := by
    constructor
    · intro hk
      induction hk with
      | held hk => exact List.mem_singleton.1 hk
      | child _ hc ih => rw [ih, hshape] at hc; cases hc
    · rintro rfl
      exact .held (List.mem_singleton_self k)
  have hone : live = [m] := List.perm_singleton.1 <|
    (List.perm_ext_iff_of_nodup (hexact.ids_nodup.of_map _) (List.nodup_singleton m)).2 fun k => by
      rw [hexact.live_iff, hlive, List.mem_singleton]
  subst hone
  have hne : m.digest ≠ n.digest := by
    rw [hrm.digest, hn.digest, Value.digest_eq_ofValueFields, Value.digest_eq_ofValueFields]
    exact digest_zero_ne
  have hnone {found : Option Interned}
      (h : ∀ k, found = some k ↔ Live [m] k ∧ k.digest = n.digest) : found = none :=
    Option.eq_none_iff_forall_ne_some.2 fun k hk => by
      obtain ⟨hl, hd⟩ := (h k).1 hk
      exact hne ((hlive k).1 hl ▸ hd)
  refine ⟨n, m, hm, hhandles, hexact.distinct, ?_, ?_, hnone (hexact.lookup_iff _), ?_,
    hnone (hreclaim _)⟩
  · rw [hexact.holders]
    simp [Store.mentions, Store.childrenOf, hshape]
  · exact (hexact.lookup_iff _ _).2 ⟨(hlive m).2 rfl, rfl⟩
  · exact (hreclaim _ _).2 ⟨(hlive m).2 rfl, rfl⟩

end Client

end ConfigCompiler
