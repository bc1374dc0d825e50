import Mathlib.Data.List.Nodup
import Mathlib.Data.List.Perm.Subperm
import ConfigCompiler.Kernel.Basic
import ConfigCompiler.Proofs.Interner.Invariant

/-!
# Who holds the payloads of a kernel

`Books B q k refs nodes`: the kernel `k` counts no fewer holders of a payload than `refs` refers to it, and its
interner is sound for the nodes of these payloads and for `nodes`, which are held by others. So a payload lets
go of its nodes only when nobody refers to it, and each change of the counts changes `refs` by what it says:
`Books.retain`, `Books.release`, `Books.wrap`. What is not let go of costs memory and nothing else, hence
`Books.weaken`.
-/

namespace ConfigCompiler

open Store (Sound)

theorem Store.Sound.retainAll {B : List UInt8 → Prop} {q : Quantization} {s : Store}
    {handles ns : List Interned} (h : Sound B q s handles) (hn : ∀ n ∈ ns, n ∈ handles) :
    Sound B q (ns.foldl Store.retain s) (ns ++ handles) := by
  induction ns generalizing s handles with
  | nil => exact h
  | cons n ns ih =>
    have hnext := ih (h.retain (hn n List.mem_cons_self)) fun m hm =>
      List.mem_cons_of_mem _ (hn m (List.mem_cons_of_mem _ hm))
    exact hnext.perm List.perm_middle

namespace Kernel

/-- How many of the payloads have an id. -/
def cites (ps : List Payload) (id : Nat) : Nat := ps.countP (·.id == id)

theorem cites_cons (p : Payload) (ps : List Payload) (id : Nat) :
    cites (p :: ps) id = cites ps id + if p.id = id then 1 else 0 := by
  simp [cites, List.countP_cons]

theorem cites_append (ps qs : List Payload) (id : Nat) :
    cites (ps ++ qs) id = cites ps id + cites qs id := List.countP_append

theorem cites_replicate (n : Nat) (p : Payload) (id : Nat) :
    cites (List.replicate n p) id = if p.id = id then n else 0 := by
  simp [cites, List.countP_replicate]

/-- The nodes of payloads. -/
def nodesOf (ps : List Payload) : List Interned := ps.flatMap (·.content.nodes)

section
variable {H : Type}

/-- The `alive` payloads are counted, and the interner is sound for their nodes. -/
structure Ledger (B : List UInt8 → Prop) (q : Quantization) (k : Kernel H) (refs : List Payload)
    (nodes : List Interned) (alive : List Payload) : Prop where
  ids_nodup : (alive.map Payload.id).Nodup
  fresh : ∀ p ∈ alive, p.id < k.nextPayload
  held : ∀ p ∈ refs, p ∈ alive
  count : ∀ p ∈ alive, cites refs p.id ≤ k.holderCount p
  store : Sound B q k.store (nodesOf alive ++ nodes)

def Books (B : List UInt8 → Prop) (q : Quantization) (k : Kernel H) (refs : List Payload)
    (nodes : List Interned) : Prop := ∃ alive, Ledger B q k refs nodes alive

end

section
variable {H : Type} {B : List UInt8 → Prop} {q : Quantization} {k k' : Kernel H}
variable {refs refs' : List Payload} {nodes nodes' : List Interned} {p : Payload}

theorem Books.congr (h : Books B q k refs nodes) (hs : k'.store = k.store) (hh : k'.holders = k.holders)
    (hn : k'.nextPayload = k.nextPayload) : Books B q k' refs nodes := by
  obtain ⟨alive, h⟩ := h
  have hcount (p : Payload) : k'.holderCount p = k.holderCount p := by rw [holderCount, hh]; rfl
  exact ⟨alive, { h with
    fresh := fun p hp => hn ▸ h.fresh p hp
    count := fun p hp => hcount p ▸ h.count p hp
    store := hs ▸ h.store }⟩

theorem Books.weaken (h : Books B q k refs nodes) (hs : refs'.Subperm refs) : Books B q k refs' nodes := by
  obtain ⟨alive, h⟩ := h
  exact ⟨alive, { h with
    held := fun p hp => h.held p (hs.subset hp)
    count := fun p hp => Nat.le_trans (hs.countP_le _) (h.count p hp) }⟩

theorem Books.perm (h : Books B q k refs nodes) (hp : refs'.Perm refs) : Books B q k refs' nodes :=
  h.weaken hp.subperm

theorem Books.perm_nodes (h : Books B q k refs nodes) (hp : nodes.Perm nodes') :
    Books B q k refs nodes' := by
  obtain ⟨alive, h⟩ := h
  exact ⟨alive, { h with store := h.store.perm (hp.append_left _) }⟩

/-- The interner is sound for the nodes and for others, which a change of it may not touch. -/
theorem Books.sound (h : Books B q k refs nodes) : ∃ handles, Sound B q k.store (nodes ++ handles) ∧
    ∀ {s' : Store} {nodes' : List Interned}, Sound B q s' (nodes' ++ handles) →
      Books B q { k with store := s' } refs nodes' := by
  obtain ⟨alive, h⟩ := h
  refine ⟨nodesOf alive, h.store.perm List.perm_append_comm, fun hs' => ⟨alive, { h with
    store := hs'.perm List.perm_append_comm }⟩⟩

theorem Books.quantization (h : Books B q k refs nodes) : k.store.quantization = q := by
  obtain ⟨alive, h⟩ := h
  obtain ⟨live, hs⟩ := h.store
  exact hs.quantization

/-! ## Counting -/

theorem holderCount_insert (k : Kernel H) (p p' : Payload) (n : Nat) :
    ({ k with holders := k.holders.insert p.id n } : Kernel H).holderCount p' =
      if p.id = p'.id then n else k.holderCount p' := by
  simp only [holderCount, Std.HashMap.getD_insert, beq_iff_eq]

theorem holderCount_erase (k : Kernel H) (p p' : Payload) :
    ({ k with holders := k.holders.erase p.id } : Kernel H).holderCount p' =
      if p.id = p'.id then 0 else k.holderCount p' := by
  simp only [holderCount, Std.HashMap.getD_erase, beq_iff_eq]

theorem holderCount_congr {p' : Payload} (h : p.id = p'.id) : k.holderCount p = k.holderCount p' := by
  rw [holderCount, holderCount, h]

theorem Books.retain (h : Books B q k refs nodes) (hp : p ∈ refs) (n : Nat) :
    Books B q (k.retain p n) (List.replicate n p ++ refs) nodes := by
  obtain ⟨alive, h⟩ := h
  refine ⟨alive, { h with
    held := fun p' hp' => ?_
    count := fun p' hp' => ?_ }⟩
  · rcases List.mem_append.1 hp' with hp' | hp'
    · exact (List.eq_of_mem_replicate hp') ▸ h.held p hp
    · exact h.held p' hp'
  · have hc := h.count p' hp'
    rw [cites_append, cites_replicate, Kernel.retain, holderCount_insert]
    split
    · rename_i hid
      rw [holderCount_congr hid]
      omega
    · omega

/-- The last holder of a payload lets it go, and it lets go of its nodes. -/
theorem Ledger.die {alive : List Payload} (h : Ledger B q k (p :: refs) nodes alive)
    (hc : k.holderCount p ≤ 1) :
    Ledger B q { k with
        holders := k.holders.erase p.id
        store := k.store.releaseAll p.content.nodes } refs nodes (alive.filter (·.id != p.id)) := by
  have hp : p ∈ alive := h.held p List.mem_cons_self
  have hzero : cites refs p.id = 0 := by
    have := h.count p hp
    rw [cites_cons, if_pos rfl] at this
    omega
  have hmem {p' : Payload} : p' ∈ alive.filter (·.id != p.id) ↔ p' ∈ alive ∧ p'.id ≠ p.id := by simp
  have halive : alive.Perm (p :: alive.filter (·.id != p.id)) := by
    have hsplit := (List.filter_append_perm (·.id == p.id) alive).symm
    have hone : alive.filter (·.id == p.id) = [p] := by
      refine List.perm_singleton.1 ((List.perm_ext_iff_of_nodup ?_ (List.nodup_singleton p)).2 ?_)
      · exact (List.Nodup.of_map _ h.ids_nodup).filter _
      · intro p'
        rw [List.mem_filter, List.mem_singleton]
        constructor
        · rintro ⟨hp', hid⟩
          exact List.inj_on_of_nodup_map h.ids_nodup hp' hp (by simpa using hid)
        · rintro rfl
          exact ⟨hp, by simp⟩
    rw [hone] at hsplit
    exact hsplit
  refine
    { ids_nodup := h.ids_nodup.sublist (List.filter_sublist.map _)
      fresh := fun p' hp' => h.fresh p' (hmem.1 hp').1
      held := fun p' hp' => ?_
      count := fun p' hp' => ?_
      store := ?_ }
  · refine hmem.2 ⟨h.held p' (List.mem_cons_of_mem _ hp'), fun hid => ?_⟩
    have : 0 < cites refs p.id := List.countP_pos_iff.2 ⟨p', hp', by simpa using hid⟩
    omega
  · obtain ⟨hp', hne⟩ := hmem.1 hp'
    have hc' := h.count p' hp'
    rw [cites_cons, if_neg (Ne.symm hne)] at hc'
    change cites refs p'.id ≤ ({ k with holders := k.holders.erase p.id } : Kernel H).holderCount p'
    rw [holderCount_erase, if_neg (Ne.symm hne)]
    exact hc'
  · refine Sound.releaseAll (h.store.perm ?_)
    rw [← List.append_assoc]
    exact (halive.flatMap_right _).append_right nodes

theorem Books.release (h : Books B q k (p :: refs) nodes) : Books B q (k.release p) refs nodes := by
  obtain ⟨alive, h⟩ := h
  unfold Kernel.release
  split
  · rename_i hc
    exact ⟨_, h.die hc⟩
  · refine ⟨alive, { h with
      held := fun p' hp' => h.held p' (List.mem_cons_of_mem _ hp')
      count := fun p' hp' => ?_ }⟩
    have hc := h.count p' hp'
    rw [cites_cons] at hc
    rw [holderCount_insert]
    split
    · rename_i hid
      rw [if_pos hid, ← holderCount_congr hid] at hc
      omega
    · omega

theorem Books.releaseAll {ps : List Payload} (h : Books B q k (ps ++ refs) nodes) :
    Books B q (k.releaseAll ps) refs nodes := by
  induction ps generalizing k with
  | nil => exact h
  | cons p ps ih => exact ih h.release

/-- A new payload takes over the nodes of its content. -/
theorem Books.wrap {content : Payload.Content} (h : Books B q k refs (content.nodes ++ nodes)) :
    Books B q (k.wrap content).1 ((k.wrap content).2 :: refs) nodes := by
  obtain ⟨alive, h⟩ := h
  have hne {p : Payload} (hp : p ∈ alive) : k.nextPayload ≠ p.id := Nat.ne_of_gt (h.fresh p hp)
  refine ⟨⟨k.nextPayload, content⟩ :: alive,
    { ids_nodup := ?_, fresh := ?_, held := ?_, count := ?_, store := ?_ }⟩
  · refine List.nodup_cons.2 ⟨fun hm => ?_, h.ids_nodup⟩
    obtain ⟨p, hp, hid⟩ := List.mem_map.1 hm
    exact hne hp hid.symm
  · intro p hp
    rcases List.mem_cons.1 hp with rfl | hp
    · exact Nat.lt_succ_self _
    · exact Nat.lt_succ_of_lt (h.fresh p hp)
  · intro p hp
    rcases List.mem_cons.1 hp with rfl | hp
    · exact List.mem_cons_self
    · exact List.mem_cons_of_mem _ (h.held p hp)
  · intro p hp
    change cites (⟨k.nextPayload, content⟩ :: refs) p.id ≤
      ({ k with holders := k.holders.insert k.nextPayload 1 } : Kernel H).holderCount p
    rw [cites_cons, holderCount_insert k ⟨k.nextPayload, content⟩]
    rcases List.mem_cons.1 hp with rfl | hp
    · have hzero : cites refs k.nextPayload = 0 := by
        refine List.countP_eq_zero.2 fun p hp => ?_
        simpa using (hne (h.held p hp)).symm
      simp [hzero]
    · simp only [if_neg (hne hp)]
      exact h.count p hp
  · change Sound B q k.store (content.nodes ++ nodesOf alive ++ nodes)
    rw [List.append_assoc]
    exact h.store.perm (List.perm_append_comm_assoc ..)

end

end Kernel

end ConfigCompiler
