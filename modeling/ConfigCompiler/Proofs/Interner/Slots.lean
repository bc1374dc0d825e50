import Mathlib.Data.Set.Card
import ConfigCompiler.Proofs.Interner.Levels

/-!
# How many slots the table has

Dead slots do not pile up: the table stays below twice the number of nodes that were live after the last sweep, or
below the size at which sweeps begin, and every slot that is there or was removed is paid for by a call that
found no node (`Client.slots_bounded`).

The invariant is `Slots`; the number of nodes that were live after the last sweep is read off the sweeps of a run
(`lastLive`), those in the middle of interning a value included.
-/

namespace ConfigCompiler

namespace Store

/-! ## Live nodes after a sweep -/

theorem ncard_eq_length {α : Type} {l : List α} (hn : l.Nodup) {S : Set α} (h : ∀ x, x ∈ l ↔ x ∈ S) :
    S.ncard = l.length := by
  classical
  have hS : S = ↑l.toFinset := by
    ext x
    simp [h]
  rw [hS, Set.ncard_coe_finset, List.toFinset_card_of_nodup hn]

/-- The number of nodes that handles keep alive. -/
noncomputable def liveCount (handles : List Interned) : Nat := {n | Live handles n}.ncard

/-- The number of live nodes after the last of some sweeps, or `k` if there are none. -/
noncomputable def lastLive (k : Nat) (ts : List (Store × List Interned)) : Nat :=
  (ts.getLast?.map fun t => liveCount t.2).getD k

theorem lastLive_append (k : Nat) (ts us : List (Store × List Interned)) :
    lastLive k (ts ++ us) = lastLive (lastLive k ts) us := by
  rw [lastLive, lastLive, List.getLast?_append]
  cases us.getLast? <;> simp [lastLive]

variable {B : List UInt8 → Prop} {q : Quantization} {s : Store} {handles live : List Interned} {k : Nat}

theorem Exact.liveCount_eq (h : Exact s handles live) : liveCount handles = live.length :=
  ncard_eq_length h.ids_nodup.of_map h.live_iff

/-- A sweep leaves as many slots as there are live nodes. -/
theorem Sound.size_sweep (h : Sound B q s handles) : s.sweep.1.table.size = liveCount handles := by
  obtain ⟨live, hexact⟩ := h.exact
  exact hexact.distinct.trans hexact.liveCount_eq.symm

theorem size_sweep_le (s : Store) : s.sweep.1.table.size ≤ s.table.size := Std.HashMap.size_filter_le_size

theorem reclaimed_sweep (s : Store) :
    s.sweep.1.table.size + s.sweep.1.reclaimed = s.table.size + s.reclaimed := by
  have := s.size_sweep_le
  show s.sweep.1.table.size + (s.reclaimed + (s.table.size - s.sweep.1.table.size)) = _
  omega

/-! ## Slots -/

/-- The slots of a store when `k` nodes were live after the last sweep. -/
structure Slots (k : Nat) (s : Store) : Prop where
  sweepAt : s.sweepAt = max (2 * k) minSweepAt
  size_lt : s.table.size < s.sweepAt
  /-- Slots that are there or were removed, and calls that found a node, are all different calls. -/
  counted : s.table.size + s.reclaimed + s.hits ≤ s.calls

theorem slots_empty (q : Quantization) : Slots 0 (empty q) := by
  refine ⟨rfl, ?_, ?_⟩ <;> simp [empty, minSweepAt]

theorem Slots.congr {t : Store} (h : Slots k s) (hsweep : t.sweepAt = s.sweepAt) (htable : t.table = s.table)
    (hreclaimed : t.reclaimed = s.reclaimed) (hcalls : t.hits + s.calls ≤ s.hits + t.calls) : Slots k t where
  sweepAt := hsweep.trans h.sweepAt
  size_lt := by rw [hsweep, htable]; exact h.size_lt
  counted := by have := h.counted; rw [htable, hreclaimed]; omega

theorem Slots.retain (h : Slots k s) (n : Interned) : Slots k (s.retain n) :=
  h.congr rfl rfl rfl (Nat.le_refl _)

theorem Slots.release (h : Slots k s) (n : Interned) : Slots k (s.release n) := by
  rw [release_frame]
  exact h.congr rfl rfl rfl (Nat.le_refl _)

theorem Slots.releaseAll (h : Slots k s) (ns : List Interned) : Slots k (s.releaseAll ns) := by
  rw [releaseAll_frame]
  exact h.congr rfl rfl rfl (Nat.le_refl _)

/-- A sweep restores the bound, however large the table was. -/
theorem Slots.of_sweep (h : Sound B q s handles) (hc : s.table.size + s.reclaimed + s.hits ≤ s.calls) :
    Slots (liveCount handles) s.sweep.1 := by
  have hsize := h.size_sweep
  have hsweepAt : s.sweep.1.sweepAt = max (2 * liveCount handles) minSweepAt := by
    rw [← hsize]
    rfl
  refine ⟨hsweepAt, ?_, ?_⟩
  · rw [hsweepAt, hsize, minSweepAt]
    omega
  · rw [reclaimed_sweep]
    exact hc

/-- A new node takes a new slot, or the one of a dead node. -/
theorem size_added_le (s : Store) (d : Digest) (shape : Shape Interned) :
    (s.added d shape).table.size ≤ s.table.size + 1 := Std.HashMap.size_insert_le

theorem Slots.resolve {d : Digest} {shape : Shape Interned} (h : Slots k s)
    (hs : Sound B q s (shape.children ++ handles)) (hb : Backed B q d shape) :
    Slots (lastLive k (s.resolveSweeps handles d shape)) (s.resolve d shape).1 := by
  rw [Store.resolve, resolveSweeps]
  dsimp only
  cases hl : Store.lookup { s with calls := s.calls + 1 } d with
  | some n =>
    simp only [reuse]
    split
    · have hhit : Slots k { s with
          calls := s.calls + 1
          hits := s.hits + 1
          bytesSaved := s.bytesSaved + shape.shallowSize } := h.congr rfl rfl rfl (by simp only; omega)
      exact (hhit.retain n).releaseAll _
    · have hcall : Slots k { s with calls := s.calls + 1 } := h.congr rfl rfl rfl (by simp only; omega)
      exact hcall.releaseAll _
  | none =>
    obtain ⟨live, hi⟩ := hs.called
    have hadd : Sound B q (Store.added { s with calls := s.calls + 1 } d shape)
        (.node s.nextId d shape :: handles) := ⟨_, hi.add hl hb⟩
    have hsize := size_added_le { s with calls := s.calls + 1 } d shape
    have hcounted : (Store.added { s with calls := s.calls + 1 } d shape).table.size + s.reclaimed + s.hits ≤
        s.calls + 1 := by
      have := h.counted
      simp only at hsize
      omega
    simp only [create_eq]
    split
    · exact Slots.of_sweep hadd hcounted
    · rename_i hlt
      exact ⟨h.sweepAt, Nat.lt_of_not_le hlt, hcounted⟩

theorem Slots.internItems {items : List Value} (hp : ∀ v ∈ items, v.Proper)
    (hitems : ∀ v ∈ items, ∀ {s handles k}, Sound (fun _ => True) q s handles → Slots k s →
      Slots (lastLive k (s.sweeps handles v)) (s.intern v).1)
    (hs : Sound (fun _ => True) q s handles) (h : Slots k s) :
    Slots (lastLive k (s.sweepsItems handles items)) (s.internItems items).1 := by
  induction items generalizing s handles k with
  | nil =>
    rw [sweepsItems, Store.internItems]
    exact h
  | cons v items ih =>
    have hv := hitems v List.mem_cons_self hs h
    have hturn : Turn q handles s v items (s.internItems (v :: items)) :=
      internItems_turn (hp v List.mem_cons_self) hs
    generalize s.internItems (v :: items) = r at hturn ⊢
    rw [sweepsItems]
    cases hturn with
    | first hr =>
      rw [hr] at hv ⊢
      simpa using hv
    | later hr hs₁ hrest =>
      rw [hr] at hv ⊢
      have := ih (fun w hw => hp w (List.mem_cons_of_mem _ hw))
        (fun w hw => hitems w (List.mem_cons_of_mem _ hw)) hs₁ hv
      rw [lastLive_append]
      rw [hrest] at this
      exact this.release _
    | all hr hs₁ _ hrest =>
      rw [hr] at hv ⊢
      have := ih (fun w hw => hp w (List.mem_cons_of_mem _ hw))
        (fun w hw => hitems w (List.mem_cons_of_mem _ hw)) hs₁ hv
      rw [lastLive_append]
      rw [hrest] at this
      exact this

/-- The bound holds after a value is interned, whether that succeeds or not. -/
theorem Slots.intern {v : Value} (hv : v.Proper) (hs : Sound (fun _ => True) q s handles) (h : Slots k s) :
    Slots (lastLive k (s.sweeps handles v)) (s.intern v).1 := by
  induction v using Value.child_induction generalizing s handles k with
  | h v ih =>
    have hitems := h.internItems (fun c hc => hv.child hc) (fun c hc _ _ _ => ih c hc (hv.child hc)) hs
    have hlevel := intern_level hv hs
    generalize s.intern v = r at hlevel ⊢
    cases hlevel with
    | failed hr =>
      rw [sweeps_error hr]
      rwa [hr] at hitems
    | resolved hr hns hs' =>
      rw [sweeps_resolve hs.quantization hr hns, lastLive_append]
      rw [hr] at hitems
      exact hitems.resolve hs' (backed_assemble hv.fits hns)

end Store

namespace Client

open Store (Live Sound Slots lastLive liveCount)

/-! ## Runs -/

/-- The stores that a run sweeps, each with the handles that are held then. -/
def sweepsAlong (c : Client) : List Op → List (Store × List Interned)
  | [] => []
  | op :: ops => c.sweeps op ++ (c.step op).sweepsAlong ops

variable {q : Quantization} {c : Client} {k : Nat}

theorem slots_keep (h : Slots k c.store) (n? : Option Interned) : Slots k (c.keep n?).store := by
  cases n? with
  | none => exact h
  | some n => exact h.retain n

theorem slots_step (hs : Sound (fun _ => True) q c.store c.handles) (h : Slots k c.store) {op : Op}
    (hp : op.Proper) : Slots (lastLive k (c.sweeps op)) (c.step op).store := by
  cases op with
  | intern v =>
    have hv := h.intern hp hs
    rw [step]
    cases hr : c.store.intern v with | mk s r =>
    rw [hr] at hv
    cases r <;> exact hv
  | lookup d => exact slots_keep h _
  | get i path => exact slots_keep h _
  | drop i =>
    rw [step]
    split
    · exact h
    · exact h.release _
  | reclaim => exact Slots.of_sweep hs h.counted

theorem slots_run (hs : Sound (fun _ => True) q c.store c.handles) (h : Slots k c.store) {ops : List Op}
    (hp : ∀ op ∈ ops, op.Proper) : Slots (lastLive k (c.sweepsAlong ops)) (c.run ops).store := by
  induction ops generalizing c k with
  | nil => exact h
  | cons op ops ih =>
    have hop := hp op List.mem_cons_self
    rw [sweepsAlong, Store.lastLive_append, run_cons]
    exact ih (sound_step hs hop fun _ _ => trivial) (slots_step hs h hop) fun op hm =>
      hp op (List.mem_cons_of_mem _ hm)

/--
After every run of a client, the table has fewer slots than twice the nodes that were live after the last sweep,
or fewer than 1024; the live slots are among them; and those that are there or were removed are no more than the
calls that were no hits.
-/
theorem slots_bounded (q : Quantization) {ops : List Op} (hp : ∀ op ∈ ops, op.Proper) :
    let stats := ((start q).run ops).store.stats
    stats.tableSize < max 1024 (2 * lastLive 0 ((start q).sweepsAlong ops)) ∧
      stats.distinct ≤ stats.tableSize ∧
      stats.tableSize + stats.reclaimed ≤ stats.calls - stats.hits := by
  have h := slots_run (sound_start _ q) (Store.slots_empty q) hp
  refine ⟨?_, Store.size_sweep_le _, Nat.le_sub_of_add_le h.counted⟩
  have := h.size_lt
  rwa [h.sweepAt, Nat.max_comm] at this

/-- With one zero alive at the last sweep, the bound is the size below which no table is swept on its own. -/
theorem slots_bounded_zero :
    let ops := [Op.intern (.float negativeZero), .reclaim]
    let stats := ((start (.epsilon .nan)).run ops).store.stats
    (∀ op ∈ ops, op.Proper) ∧ lastLive 0 ((start (.epsilon .nan)).sweepsAlong ops) = 1 ∧
      stats.tableSize < 1024 ∧ stats.distinct ≤ stats.tableSize ∧
      stats.tableSize + stats.reclaimed ≤ stats.calls - stats.hits := by
  intro ops stats
  have hv := proper_float negativeZero
  have hops : ∀ op ∈ ops, op.Proper := by simp [ops, Op.Proper, hv]
  obtain ⟨hsize, hdistinct, hcounted⟩ := slots_bounded (.epsilon .nan) hops
  obtain ⟨s, n, hr, -, -⟩ := Store.intern_ok not_collides_zeroStrings hv
    ((hashed_seq_float rfl).item List.mem_cons_self) (sound_start _ (.epsilon .nan))
  have hlast : lastLive 0 ((start (.epsilon .nan)).sweepsAlong ops) = liveCount [n] := by
    simp only [ops, sweepsAlong, Store.lastLive_append, step_intern_ok hr]
    rfl
  have hone : liveCount [n] = 1 := by
    obtain ⟨ns, hns, hshape⟩ := (represents_of_intern (sound_start _ _) hv hr).2.assemble
    have hset : {m | Live [n] m} = {n} := by
      ext m
      refine ⟨fun hm => ?_, fun hm => .held (List.mem_singleton.2 hm)⟩
      induction hm with
      | held hm => exact List.mem_singleton.1 hm
      | child _ hc ih =>
        obtain rfl := ih
        rw [hshape] at hc
        cases hc
    rw [liveCount, hset, Set.ncard_singleton]
  rw [hlast, hone] at hsize
  exact ⟨hops, hlast.trans hone, hsize, hdistinct, hcounted⟩

end Client

end ConfigCompiler
