import ConfigCompiler.Proofs.Kernel.Sane

/-!
# Sound kernels

`Kernel.Sound B q dest k refs nodes waits`: what the kernel `k` may answer with is right, callers hold the
payloads `refs`, runs hold the nodes `nodes`, and `waits` says how many wait for each flight. There is one
lemma for each thing that a call does to its kernel, and each says what the callers hold afterwards.
-/

namespace ConfigCompiler.Kernel

variable {H : Type} {B : List UInt8 → Prop} {q : Quantization} {dest : List CacheKey}
variable {k k' : Kernel H} {key : CacheKey} {f : Nat} {p : Payload}
variable {refs refs' : List Payload} {nodes nodes' : List Interned} {waits : Nat → Nat}
variable {res : Except KernelError Payload}

/-- What a kernel may answer with is right, and it counts all holders of what is alive. -/
structure Sound (B : List UInt8 → Prop) (q : Quantization) (dest : List CacheKey) (k : Kernel H)
    (refs : List Payload) (nodes : List Interned) (waits : Nat → Nat) : Prop where
  sane : k.Sane B q dest
  books : Books B q k (k.held ++ refs) nodes
  waiting : ∀ f, waits f ≤ k.waiting.getD f 0

/-- A kernel that has cached and interned nothing. -/
theorem sound_of_empty (hp : k.policy.Standard) {capacity : Capacity} (hc : k.cache = .empty capacity)
    (hs : k.store = .empty q) : k.Sound B q [] [] [] fun _ => 0 where
  sane :=
    { standard := hp
      size := by rw [hc]; rfl
      kept := by rw [hc]; rintro f ⟨⟩
      entries := by rw [hc]; rintro e ⟨⟩
      slots := by rw [hc]; rintro key f ⟨⟩
      landed := by rw [hc]; rintro f res ⟨⟩ }
  books := by
    have hheld : k.held = [] := by
      rw [held, Cache.values, shares, hc]
      rfl
    rw [hheld]
    exact ⟨[],
      { ids_nodup := List.nodup_nil
        fresh := by rintro p ⟨⟩
        held := by rintro p ⟨⟩
        count := by rintro p ⟨⟩
        store := ⟨[], hs ▸ Store.inv_empty B q⟩ }⟩
  waiting := fun f => Nat.zero_le _

/-! ## What a change leaves as it was -/

theorem release_cache (k : Kernel H) (p : Payload) : (k.release p).cache = k.cache := by
  unfold release
  split <;> rfl

theorem release_waiting (k : Kernel H) (p : Payload) : (k.release p).waiting = k.waiting := by
  unfold release
  split <;> rfl

theorem releaseAll_cache (k : Kernel H) (ps : List Payload) : (k.releaseAll ps).cache = k.cache := by
  induction ps generalizing k with
  | nil => rfl
  | cons p ps ih => exact (ih (k.release p)).trans (release_cache k p)

theorem releaseAll_waiting (k : Kernel H) (ps : List Payload) :
    (k.releaseAll ps).waiting = k.waiting := by
  induction ps generalizing k with
  | nil => rfl
  | cons p ps ih => exact (ih (k.release p)).trans (release_waiting k p)

/-- A change of the books alone. -/
theorem Sound.rebook (h : k.Sound B q dest refs nodes waits) (hp : k'.policy = k.policy)
    (hc : k'.cache = k.cache) (hw : k'.waiting = k.waiting)
    (hb : Books B q k' (k.held ++ refs') nodes') : k'.Sound B q dest refs' nodes' waits where
  sane := h.sane.congr hp hc
  books := by
    rw [held_eq hc hw]
    exact hb
  waiting := hw ▸ h.waiting

theorem Sound.perm (h : k.Sound B q dest refs nodes waits) (hr : refs'.Perm refs)
    (hn : nodes.Perm nodes') : k.Sound B q dest refs' nodes' waits :=
  h.rebook rfl rfl rfl ((h.books.perm (hr.append_left _)).perm_nodes hn)

theorem Sound.quantization (h : k.Sound B q dest refs nodes waits) : k.store.quantization = q :=
  h.books.quantization

/-! ## Payloads that change hands -/

theorem Sound.release (h : k.Sound B q dest (p :: refs) nodes waits) :
    (k.release p).Sound B q dest refs nodes waits :=
  h.rebook (release_policy k p) (release_cache k p) (release_waiting k p)
    (h.books.perm List.perm_middle.symm).release

theorem Sound.wrap {content : Payload.Content}
    (h : k.Sound B q dest refs (content.nodes ++ nodes) waits) :
    (k.wrap content).1.Sound B q dest ((k.wrap content).2 :: refs) nodes waits :=
  h.rebook rfl rfl rfl (h.books.wrap.perm List.perm_middle)

theorem Sound.record (h : k.Sound B q dest refs nodes waits) (passes : List String) :
    (k.record passes).Sound B q dest refs nodes waits := by
  unfold Kernel.record
  dsimp only
  split <;> exact h.rebook rfl rfl rfl (h.books.congr rfl rfl rfl)

/-- A run may change the store as long as it keeps to its own nodes. -/
theorem Sound.store (h : k.Sound B q dest refs nodes waits) :
    ∃ handles, Store.Sound B q k.store (nodes ++ handles) ∧
      ∀ {s' : Store} {nodes' : List Interned}, Store.Sound B q s' (nodes' ++ handles) →
        ({ k with store := s' } : Kernel H).Sound B q dest refs nodes' waits := by
  obtain ⟨handles, hs, hbooks⟩ := h.books.sound
  exact ⟨handles, hs, fun hs' => h.rebook rfl rfl rfl (hbooks hs')⟩

/-- Payloads of a new content take a part of the nodes that a caller's payload holds. -/
theorem Sound.retainAll (h : k.Sound B q dest (p :: refs) nodes waits) {ns : List Interned}
    (hn : ∀ n ∈ ns, n ∈ p.content.nodes) :
    ({ k with store := ns.foldl Store.retain k.store } : Kernel H).Sound B q dest (p :: refs)
      (ns ++ nodes) waits := by
  obtain ⟨alive, hb⟩ := h.books
  have hp : p ∈ alive := hb.held p (List.mem_append_right _ List.mem_cons_self)
  have hstore := hb.store.retainAll fun n hm =>
    List.mem_append_left nodes (List.mem_flatMap.2 ⟨p, hp, hn n hm⟩)
  exact h.rebook rfl rfl rfl
    ⟨alive, { hb with store := hstore.perm (List.perm_append_comm_assoc ..) }⟩

/-- A caller is given the payload of an entry. -/
theorem Sound.hit (h : k.Sound B q dest refs nodes waits) {e : Cache.Entry CacheKey Payload}
    (he : e ∈ k.cache.entries) :
    (({ k with cache := k.cache.hit e } : Kernel H).retain e.value 1).Sound B q dest (e.value :: refs)
      nodes waits where
  sane := (h.sane.entries_subset (fun _ hx => Cache.mem_hit he hx) rfl rfl).congr rfl rfl
  books := by
    have hmem : e.value ∈ k.held ++ refs := List.mem_append_left refs
      (List.mem_append_left _ (List.mem_map_of_mem he))
    have hvalues : (k.cache.hit e).values.Subperm k.cache.values := Cache.hit_subperm he
    have hheld : ({ k with cache := k.cache.hit e } : Kernel H).held.Subperm k.held :=
      hvalues.append (List.Subperm.refl k.shares)
    have hbooks : Books B q (k.retain e.value 1) (k.held ++ e.value :: refs) nodes :=
      (h.books.retain hmem 1).perm List.perm_middle
    exact (hbooks.weaken (hheld.append (List.Subperm.refl _))).congr rfl rfl rfl
  waiting := h.waiting

theorem Sound.coalesce (h : k.Sound B q dest refs nodes waits) :
    ({ k with cache := k.cache.coalesce } : Kernel H).Sound B q dest refs nodes waits where
  sane := h.sane.entries_subset (fun _ he => he) rfl rfl
  books := h.books.congr rfl rfl rfl
  waiting := h.waiting

/-! ## Flights -/

theorem share_of_running (h : k.cache.landing f = .running) : k.share f = [] := by
  rw [share, h]

/-- A caller joins a flight. -/
theorem Sound.join (h : k.Sound B q dest refs nodes waits) (hf : (key, f) ∈ k.cache.slots) :
    ({ k with waiting := k.waiting.insert f (k.waiting.getD f 0 + 1) } : Kernel H).Sound B q dest refs
      nodes (fun g => waits g + if f = g then 1 else 0) where
  sane := h.sane.congr rfl rfl
  books := by
    have hshares : ({ k with waiting := k.waiting.insert f (k.waiting.getD f 0 + 1) } : Kernel H).shares =
        k.shares := by
      refine shares_congr rfl fun g => ?_
      by_cases hg : f = g
      · subst hg
        have hrun := (h.sane.slots hf).2
        rw [share_of_running hrun]
        exact share_of_running hrun
      · simp only [share, Std.HashMap.getD_insert, beq_iff_eq, if_neg hg]
    rw [held, hshares]
    exact h.books.congr rfl rfl rfl
  waiting := fun g => by
    have hg := h.waiting g
    simp only [Std.HashMap.getD_insert, beq_iff_eq]
    split
    · rename_i hfg
      subst hfg
      omega
    · omega

/-- A caller leads a flight. -/
theorem Sound.takeOff (h : k.Sound B q dest refs nodes waits)
    {cache : Cache CacheKey KernelError Payload} (he : cache.entries = k.cache.entries)
    (hs : cache.slots = (key, k.cache.flights.size) :: k.cache.slots)
    (hf : cache.flights = k.cache.flights.push .takeOff) :
    ({ k with cache } : Kernel H).Sound B q (dest ++ [key]) refs nodes waits where
  sane := h.sane.takeOff he hs hf
  books := by
    have hl (g : Nat) : cache.landing g = _ := landing_push k.cache g hf
    have hshares : ({ k with cache } : Kernel H).shares = k.shares := by
      rw [shares, shares, hf, Array.size_push, List.range_succ, List.flatMap_append]
      have hlast : ({ k with cache } : Kernel H).share k.cache.flights.size = [] := by
        refine share_of_running ?_
        rw [hl, if_pos rfl]
      rw [List.flatMap_singleton, hlast, List.append_nil]
      refine List.flatMap_congr fun g hg => ?_
      rw [share, share, hl, if_neg (Nat.ne_of_lt (List.mem_range.1 hg))]
    rw [held, hshares, Cache.values_congr he]
    exact h.books.congr rfl rfl rfl
  waiting := h.waiting

theorem share_stopWaiting (k : Kernel H) (f g : Nat) :
    (Task.stopWaiting k f).share g = if f = g then (k.share g).tail else k.share g := by
  simp only [share, Task.stopWaiting, Std.HashMap.getD_insert, beq_iff_eq]
  by_cases hg : f = g
  · subst hg
    simp only [if_true]
    split
    · rw [List.tail_replicate]
    · rfl
  · simp only [if_neg hg]

/-- What a landing hands to a caller. -/
def handed : Except KernelError Payload → List Payload
  | .ok p => [p]
  | .error _ => []

theorem share_of_landed (h : k.cache.landing f = .landed res)
    (hw : 0 < k.waiting.getD f 0) : k.share f = handed res ++ (k.share f).tail := by
  rw [share, h]
  obtain ⟨n, hn⟩ := Nat.exists_eq_succ_of_ne_zero (Nat.ne_of_gt hw)
  cases res with
  | error e => rfl
  | ok p => rw [hn]; rfl

/-- A caller who waits for a flight leaves it, with what it was handed. -/
theorem Sound.stopWaiting (h : k.Sound B q dest refs nodes fun g => waits g + if f = g then 1 else 0)
    (hf : f < k.cache.flights.size) (given : List Payload)
    (hgiven : given = [] ∨ ∃ res, k.cache.landing f = .landed res ∧ given = handed res) :
    (Task.stopWaiting k f).Sound B q dest (given ++ refs) nodes waits where
  sane := h.sane.congr rfl rfl
  books := by
    have hwf : 0 < k.waiting.getD f 0 := by
      have := h.waiting f
      simp only [if_true] at this
      omega
    have hothers : ∀ g, g ≠ f → (Task.stopWaiting k f).share g = k.share g := fun g hg => by
      rw [share_stopWaiting, if_neg (Ne.symm hg)]
    obtain ⟨rest, hp, hp'⟩ := exists_shares hothers rfl hf
    have hshare : ((k.share f).tail ++ given).Subperm (k.share f) := by
      rcases hgiven with rfl | ⟨res, hl, rfl⟩
      · rw [List.append_nil]
        exact (List.tail_sublist _).subperm
      · refine List.perm_append_comm.subperm.trans ?_
        rw [← share_of_landed hl hwf]
    rw [share_stopWaiting, if_pos rfl] at hp'
    refine (h.books.weaken ?_).congr rfl rfl rfl
    have hheld : ((Task.stopWaiting k f).shares ++ given).Subperm k.shares := by
      have hmiddle : ((Task.stopWaiting k f).shares ++ given).Perm
          (((k.share f).tail ++ given) ++ rest) := by
        refine (hp'.append_right given).trans ?_
        rw [List.append_assoc, List.append_assoc]
        exact List.perm_append_comm.append_left _
      exact hmiddle.subperm.trans ((hshare.append (List.Subperm.refl rest)).trans hp.symm.subperm)
    rw [held, held, List.append_assoc, List.append_assoc, ← List.append_assoc _ given]
    exact (List.Subperm.refl _).append (hheld.append (List.Subperm.refl refs))
  waiting := fun g => by
    have hg := h.waiting g
    simp only [Task.stopWaiting, Std.HashMap.getD_insert, beq_iff_eq]
    split
    · rename_i hfg
      subst hfg
      simp only [if_true] at hg
      omega
    · rename_i hfg
      rw [if_neg hfg] at hg
      omega

/-- When a flight lands, its payload is referred to by the cache and by all who wait. -/
theorem held_land_subperm {cache : Cache CacheKey KernelError Payload} {left : List Payload}
    (hf : f < k.cache.flights.size) (hsize : cache.flights.size = k.cache.flights.size)
    (hl : ∀ g, cache.landing g = if g = f then .landed res else k.cache.landing g)
    (hv : (cache.values ++ left).Subperm (handed res ++ k.cache.values)) :
    (left ++ ({ k with cache } : Kernel H).held).Subperm
      ((handed res).flatMap (List.replicate (1 + k.waiting.getD f 0)) ++ k.held) := by
  have hothers : ∀ g, g ≠ f → ({ k with cache } : Kernel H).share g = k.share g := fun g hg => by
    rw [share, share, hl, if_neg hg]
  obtain ⟨rest, hp, hp'⟩ := exists_shares hothers hsize hf
  have hshare : ({ k with cache } : Kernel H).share f =
      (handed res).flatMap (List.replicate (k.waiting.getD f 0)) := by
    rw [share, hl, if_pos rfl]
    cases res with
    | ok p => exact (List.flatMap_singleton ..).symm
    | error e => rfl
  classical
  refine List.subperm_ext_iff.2 fun x _ => ?_
  have hvalues := hv.count_le x
  have hshares := hp.count_eq x
  have hshares' := hp'.count_eq x
  rw [hshare] at hshares'
  cases res with
  | error e =>
    simp only [held, handed, List.flatMap_nil, List.count_append, List.count_nil] at *
    omega
  | ok p =>
    simp only [held, handed, List.flatMap_singleton, List.count_append, List.count_cons, List.count_nil,
      List.count_replicate] at *
    by_cases hx : (p == x) = true
    · simp only [if_pos hx] at *
      omega
    · simp only [if_neg hx] at *
      omega

/-- So many more holders of what a landing hands on. -/
def grant (k : Kernel H) (res : Except KernelError Payload) (n : Nat) : Kernel H :=
  match res with
  | .ok p => k.retain p n
  | .error _ => k

theorem grant_congr (k : Kernel H) (res : Except KernelError Payload) (n : Nat)
    (cache : Cache CacheKey KernelError Payload) :
    ({ k.grant res n with cache } : Kernel H).policy = ({ k with cache } : Kernel H).policy ∧
    ({ k.grant res n with cache } : Kernel H).held = ({ k with cache } : Kernel H).held ∧
    (k.grant res n).waiting = k.waiting := by
  cases res <;> exact ⟨rfl, rfl, rfl⟩

theorem Books.grant (h : Books B q k refs nodes) (hres : ∀ p ∈ handed res, p ∈ refs) (n : Nat) :
    Books B q (k.grant res n) ((handed res).flatMap (List.replicate n) ++ refs) nodes := by
  cases res with
  | error e => exact h
  | ok p =>
    simp only [handed, List.flatMap_singleton]
    exact h.retain (hres p List.mem_cons_self) n

theorem land_eq (k : Kernel H) (key : CacheKey) (f : Nat) (res : Except KernelError Payload) :
    Task.land k key f res =
      ({ k.grant res (1 + k.waiting.getD f 0) with cache := (k.cache.finish key f res).1 } :
        Kernel H).releaseAll (k.cache.finish key f res).2 := by
  cases res <;> rfl

/-- Payloads that the cache gave back are let go. -/
theorem Sane.releaseAll (h : k.Sane B q dest) {left : List Payload}
    (hb : Books B q k (left ++ (k.held ++ refs)) nodes) (hw : ∀ f, waits f ≤ k.waiting.getD f 0) :
    (k.releaseAll left).Sound B q dest refs nodes waits where
  sane := h.congr (releaseAll_policy k left) (releaseAll_cache k left)
  books := by
    rw [held_eq (releaseAll_cache k left) (releaseAll_waiting k left)]
    exact hb.releaseAll
  waiting := fun f => by
    rw [releaseAll_waiting]
    exact hw f

/-- A flight lands; its leader keeps the payload. -/
theorem Sound.land (h : k.Sound B q dest (handed res ++ refs) nodes waits) (hd : dest[f]? = some key)
    (hr : Right H B q key res) : (Task.land k key f res).Sound B q dest (handed res ++ refs) nodes waits := by
  have hlt : f < k.cache.flights.size := by
    rw [← h.sane.size]
    exact (List.getElem?_eq_some_iff.1 hd).1
  have hsane := h.sane.land hd hr
  have hsize : (k.cache.finish key f res).1.flights.size = k.cache.flights.size := by
    rw [Cache.finish_flights, Array.size_modify]
  have hl (g : Nat) : (k.cache.finish key f res).1.landing g = _ :=
    landing_modify k.cache g (Cache.finish_flights k.cache key f res) hlt
  have hv : ((k.cache.finish key f res).1.values ++ (k.cache.finish key f res).2).Subperm
      (handed res ++ k.cache.values) := by
    cases res with
    | ok p => exact Cache.finish_subperm k.cache key f p
    | error e => exact (List.append_nil _).symm ▸ List.Subperm.refl k.cache.values
  have hheld := held_land_subperm hlt hsize hl hv
  have hres : ∀ p ∈ handed res, p ∈ k.held ++ (handed res ++ refs) := fun p hp =>
    List.mem_append_right _ (List.mem_append_left _ hp)
  have hbooks := h.books.grant hres (1 + k.waiting.getD f 0)
  rw [← List.append_assoc] at hbooks
  rw [land_eq]
  generalize k.cache.finish key f res = r at *
  obtain ⟨hpolicy, hheld', hwaiting⟩ := grant_congr k res (1 + k.waiting.getD f 0) r.1
  refine (hsane.congr hpolicy rfl).releaseAll ?_ fun g => hwaiting.symm ▸ h.waiting g
  rw [hheld', ← List.append_assoc]
  exact (hbooks.weaken (hheld.append (List.Subperm.refl _))).congr rfl rfl rfl

/-! ## Changes of what is configured or cached -/

theorem Sound.invalidate (h : k.Sound B q dest refs nodes waits) (doomed : CacheKey → Bool) :
    (k.invalidate doomed).1.Sound B q dest refs nodes waits := by
  refine (h.sane.invalidate doomed).releaseAll ?_ h.waiting
  have hshares : ({ k with cache := (k.cache.invalidate doomed).1 } : Kernel H).shares = k.shares :=
    shares_congr (size_foldl_markStale _ _) fun g => by
      rw [share, share, landing_invalidate]
  rw [held, hshares]
  refine (h.books.perm ?_).congr rfl rfl rfl
  rw [held, List.append_assoc, List.append_assoc, ← List.append_assoc]
  exact (List.perm_append_comm.trans (Cache.invalidate_perm k.cache doomed)).append_right _

/-- Another standard policy. -/
theorem Sound.configure (h : k.Sound B q dest refs nodes waits) (hp : k'.policy.Standard)
    (hc : k'.cache = k.cache) (hw : k'.waiting = k.waiting) (hs : k'.store = k.store)
    (hh : k'.holders = k.holders) (hn : k'.nextPayload = k.nextPayload) :
    k'.Sound B q dest refs nodes waits where
  sane :=
    { standard := hp
      size := hc ▸ h.sane.size
      kept := hc ▸ h.sane.kept
      entries := hc ▸ h.sane.entries
      slots := hc ▸ h.sane.slots
      landed := hc ▸ h.sane.landed }
  books := by
    rw [held_eq hc hw]
    exact h.books.congr hs hh hn
  waiting := hw ▸ h.waiting

end ConfigCompiler.Kernel
