import Mathlib.Algebra.Order.BigOperators.Group.List
import ConfigCompiler.Proofs.Interner.Slots

/-!
# What interning counts

Interning a value makes one node for each digest among its parts that no live node has, and finds all the others,
be they there from before or from another place of the same value. So the counters of an interner can be read
off the value (`Client.statistics_exact`): there is one call for each part, and a hit and its bytes for each part
but the first of a new digest.

The parts that made a node are collected level by level (`Counted`). Which of several parts with one digest comes
first does not matter, since they have one size (`Represents.sizes`).
-/

namespace ConfigCompiler

namespace Value

/-! ## Sizes -/

/-- One level of a value. -/
def shape : Value → Shape Value
  | null => .null
  | bool b => .bool b
  | int i => .int i
  | float x => .float x
  | str t => .str t
  | seq items => .seq items
  | map entries => .map entries

/-- The bytes that a node for the value takes without its children. -/
def shallowSize (v : Value) : Nat := v.shape.shallowSize

def totalSize (vs : List Value) : Nat := (vs.map shallowSize).sum

@[simp] theorem totalSize_append (vs ws : List Value) : totalSize (vs ++ ws) = totalSize vs + totalSize ws := by
  simp [totalSize]

theorem totalSize_perm {vs ws : List Value} (h : vs.Perm ws) : totalSize vs = totalSize ws :=
  (h.map _).sum_eq

theorem totalSize_subperm {vs ws : List Value} (h : vs.Subperm ws) : totalSize vs ≤ totalSize ws := by
  obtain ⟨us, hp, hsub⟩ := h
  rw [← totalSize_perm hp]
  exact (hsub.map shallowSize).sum_le_sum fun _ _ => Nat.zero_le _

end Value

theorem Shape.shallowSize_map {α : Type} (entries : Entries α) : (Shape.map entries).shallowSize =
    nodeSize + ((entries.map (·.1)).map fun key => key.utf8ByteSize + entrySize).sum := by
  rw [shallowSize]
  congr 1
  induction entries with
  | nil => rfl
  | cons e entries ih => rw [List.foldr_cons, ih]; rfl

namespace Store

variable {q : Quantization} {s s' : Store} {handles : List Interned} {v : Value} {ns : List Interned}

theorem shallowSize_assemble (hns : List.Forall₂ (Represents q) v.children ns) :
    (v.assemble q ns).shallowSize = v.shallowSize := by
  cases v with
  | seq items => exact congrArg (fun n => Shape.nodeSize + n * Shape.itemSize) hns.length_eq.symm
  | map entries =>
    have hkeys : ((keyed entries ns).map (·.1)).Perm (entries.map (·.1)) :=
      ((Entries.sorted_perm _).map _).trans (.of_eq (zip_keys hns))
    rw [Value.assemble, Value.shallowSize, Value.shape, Shape.shallowSize_map, Shape.shallowSize_map,
      (hkeys.map _).sum_eq]
  | _ => rfl

/-! ## New digests -/

/-- Some node that handles keep has the digest. -/
def Known (handles : List Interned) (d : Digest) : Prop := ∃ n, Live handles n ∧ n.digest = d

theorem known_perm {handles' : List Interned} (hp : handles.Perm handles') {d : Digest} :
    Known handles d ↔ Known handles' d :=
  exists_congr fun _ => and_congr_left fun _ => ⟨(·.mono hp.subset), (·.mono hp.symm.subset)⟩

theorem known_represented {vs : List Value} (hns : List.Forall₂ (Represents q) vs ns) {d : Digest} :
    Known (ns ++ handles) d ↔ Known handles d ∨ d ∈ (vs.flatMap Value.parts).map (Value.digest q) := by
  constructor
  · rintro ⟨m, hm, rfl⟩
    rcases live_append.1 hm with hm | hm
    · obtain ⟨n, hn, hm⟩ := live_iff_exists.1 hm
      obtain ⟨i, hi⟩ := List.getElem?_of_mem hn
      obtain ⟨w, hw, hr⟩ := exists_getElem? hns.flip hi
      obtain ⟨u, hu, hum⟩ := Represents.exists_part hr hm
      exact .inr (List.mem_map.2 ⟨u, List.mem_flatMap.2 ⟨w, List.mem_of_getElem? hw, hu⟩, hum.digest.symm⟩)
    · exact .inl ⟨m, hm, rfl⟩
  · rintro (⟨m, hm, rfl⟩ | hd)
    · exact ⟨m, live_append.2 (.inr hm), rfl⟩
    · obtain ⟨u, hu, rfl⟩ := List.mem_map.1 hd
      obtain ⟨w, hw, hu⟩ := List.mem_flatMap.1 hu
      obtain ⟨i, hi⟩ := List.getElem?_of_mem hw
      obtain ⟨n, hn, hr⟩ := exists_getElem? hns hi
      obtain ⟨m, hm, hum⟩ := hr.exists_node hu
      exact ⟨m, live_append.2 (.inl (live_iff_exists.2 ⟨n, List.mem_of_getElem? hn, hm⟩)), hum.digest⟩

theorem known_cons {n : Interned} (hr : Represents q v n) {d : Digest} :
    Known (n :: handles) d ↔ Known handles d ∨ d ∈ v.parts.map (Value.digest q) := by
  have hns : List.Forall₂ (Represents q) [v] [n] := .cons hr .nil
  rw [← List.singleton_append, known_represented hns, List.flatMap_singleton]

/-- From the parts of a value, one is picked for each digest that is not known. -/
structure Picks (q : Quantization) (known : Digest → Prop) (parts firsts : List Value) : Prop where
  subset : firsts ⊆ parts
  nodup : (firsts.map (Value.digest q)).Nodup
  mem_iff : ∀ d, d ∈ firsts.map (Value.digest q) ↔ d ∈ parts.map (Value.digest q) ∧ ¬ known d

/-- What the counters of a store tell about the parts that were interned, and those that made a node. -/
structure Counted (q : Quantization) (handles : List Interned) (s s' : Store) (parts firsts : List Value) :
    Prop where
  picks : Picks q (Known handles) parts firsts
  calls : s'.calls = s.calls + parts.length
  hits : s'.hits + firsts.length = s.hits + parts.length
  bytesSaved : s'.bytesSaved + Value.totalSize firsts = s.bytesSaved + Value.totalSize parts

/-! ## Counting along a value -/

theorem Picks.append {known known' : Digest → Prop} {parts parts' firsts firsts' : List Value}
    (h : Picks q known parts firsts) (h' : Picks q known' parts' firsts')
    (hk : ∀ d, known' d ↔ known d ∨ d ∈ parts.map (Value.digest q)) :
    Picks q known (parts ++ parts') (firsts ++ firsts') where
  subset := List.append_subset.2 ⟨List.Subset.trans h.subset (List.subset_append_left _ _),
    List.Subset.trans h'.subset (List.subset_append_right _ _)⟩
  nodup := by
    rw [List.map_append, List.nodup_append']
    refine ⟨h.nodup, h'.nodup, fun d hd hd' => ?_⟩
    exact ((h'.mem_iff d).1 hd').2 ((hk d).2 (.inr ((h.mem_iff d).1 hd).1))
  mem_iff d := by
    rw [List.map_append, List.mem_append, h.mem_iff, h'.mem_iff, hk, List.map_append, List.mem_append]
    tauto

theorem Counted.append {s₁ : Store} {handles₁ : List Interned} {parts parts' firsts firsts' : List Value}
    (h : Counted q handles s s₁ parts firsts) (h' : Counted q handles₁ s₁ s' parts' firsts')
    (hk : ∀ d, Known handles₁ d ↔ Known handles d ∨ d ∈ parts.map (Value.digest q)) :
    Counted q handles s s' (parts ++ parts') (firsts ++ firsts') where
  picks := h.picks.append h'.picks hk
  calls := by rw [h'.calls, h.calls, List.length_append, Nat.add_assoc]
  hits := by
    have := h.hits
    have := h'.hits
    simp only [List.length_append]
    omega
  bytesSaved := by
    have := h.bytesSaved
    have := h'.bytesSaved
    simp only [Value.totalSize_append]
    omega

theorem Counted.perm {parts parts' firsts : List Value} (h : Counted q handles s s' parts firsts)
    (hp : parts.Perm parts') : Counted q handles s s' parts' firsts where
  picks :=
    { subset := List.Subset.trans h.picks.subset hp.subset
      nodup := h.picks.nodup
      mem_iff := fun d => by rw [h.picks.mem_iff, (hp.map _).mem_iff] }
  calls := by rw [h.calls, hp.length_eq]
  hits := by rw [h.hits, hp.length_eq]
  bytesSaved := by rw [h.bytesSaved, Value.totalSize_perm hp]

/-- A shape that is resolved is a hit if its digest is known, and makes a node otherwise. -/
theorem counted_resolve {B : List UInt8 → Prop} {shape : Shape Interned} {n : Interned} (hs : Sound B q s handles)
    (hsize : shape.shallowSize = v.shallowSize) (hr : s.resolve (v.digest q) shape = (s', .ok n)) :
    ∃ firsts, Counted q handles s s' [v] firsts := by
  have htally := resolve_tally s (v.digest q) shape
  rw [hr] at htally
  cases hl : s.lookup (v.digest q) with
  | some m =>
    rw [hl, Tally.resolve] at htally
    have hknown : Known handles (v.digest q) := ⟨m, hs.lookup_iff.1 hl⟩
    split at htally
    · obtain ⟨-, hcalls, hhits, hbytes⟩ := Tally.mk.inj (Prod.mk.inj htally).1
      refine ⟨[], ⟨⟨List.nil_subset _, .nil, fun d => ?_⟩, hcalls, hhits, ?_⟩⟩
      · simp only [List.map_nil, List.not_mem_nil, List.map_cons, List.mem_singleton, false_iff, not_and, not_not]
        rintro rfl
        exact hknown
      · simpa [Value.totalSize, hsize, tally] using hbytes
    · cases (Prod.mk.inj htally).2
  | none =>
    rw [hl, Tally.resolve] at htally
    obtain ⟨-, hcalls, hhits, hbytes⟩ := Tally.mk.inj (Prod.mk.inj htally).1
    refine ⟨[v], ⟨⟨List.Subset.refl _, List.nodup_singleton _, fun d => ?_⟩, hcalls, ?_, ?_⟩⟩
    · refine ⟨fun hd => ⟨hd, ?_⟩, And.left⟩
      rintro ⟨m, hm⟩
      obtain rfl : d = v.digest q := by simpa using hd
      rw [hs.lookup_iff.2 hm] at hl
      cases hl
    · simpa [tally] using hhits
    · simpa [tally] using hbytes

theorem internItems_counted {items : List Value} (hp : ∀ v ∈ items, v.Proper)
    (hitems : ∀ v ∈ items, ∀ {s s' handles n}, Sound (fun _ => True) q s handles →
      s.intern v = (s', .ok n) → ∃ firsts, Counted q handles s s' v.parts firsts)
    (hs : Sound (fun _ => True) q s handles) (hr : s.internItems items = (s', .ok ns)) :
    ∃ firsts, Counted q handles s s' (items.flatMap Value.parts) firsts := by
  induction items generalizing s handles ns with
  | nil =>
    rw [internItems] at hr
    cases hr
    exact ⟨[], ⟨⟨List.nil_subset _, .nil, by simp⟩, rfl, rfl, rfl⟩⟩
  | cons v items ih =>
    have hturn : Turn q handles s v items (s.internItems (v :: items)) :=
      internItems_turn (hp v List.mem_cons_self) hs
    rw [hr] at hturn
    cases hturn with
    | @all s₁ _ n ns h₁ hs₁ hn hrest =>
      obtain ⟨firsts, hv⟩ := hitems v List.mem_cons_self hs h₁
      obtain ⟨firsts', hvs⟩ := ih (fun w hw => hp w (List.mem_cons_of_mem _ hw))
        (fun w hw => hitems w (List.mem_cons_of_mem _ hw)) hs₁ hrest
      refine ⟨firsts ++ firsts', ?_⟩
      rw [List.flatMap_cons]
      exact hv.append hvs fun _ => known_cons hn

/-- Of the parts of a value that is interned, one made a node for each digest that was not known. -/
theorem intern_counted {n : Interned} (hv : v.Proper) (hs : Sound (fun _ => True) q s handles)
    (hr : s.intern v = (s', .ok n)) : ∃ firsts, Counted q handles s s' v.parts firsts := by
  induction v using Value.child_induction generalizing s s' handles n with
  | h v ih =>
    have hlevel := intern_level hv hs
    rw [hr] at hlevel
    generalize hres : ((s', .ok n) : Store × Except IntegrityError Interned) = r at hlevel
    cases hlevel with
    | failed _ => cases hres
    | @resolved s₁ ns hchildren hns hs₁ =>
      obtain ⟨firsts, hc⟩ := internItems_counted (fun c hc => hv.child hc)
        (fun c hm _ _ _ _ => ih c hm (hv.child hm)) hs hchildren
      obtain ⟨top, htop⟩ := counted_resolve hs₁ (shallowSize_assemble hns) hres.symm
      refine ⟨firsts ++ top, ?_⟩
      rw [Value.parts_eq]
      refine (hc.append htop fun d => ?_).perm (List.perm_append_singleton _ _)
      rw [known_perm ((assemble_children hns).append_right handles), known_represented hns]

/-! ## Choices -/

/-- Parts of one digest have one size, which their node has. -/
theorem Represents.sizes {n : Interned} (h : Represents q v n)
    (hs : Sound (fun _ => True) q s (n :: handles)) :
    ∃ size : Digest → Nat, ∀ u ∈ v.parts, u.shallowSize = size (u.digest q) := by
  refine ⟨fun d => (s.lookup d).elim 0 fun m => m.shape.shallowSize, fun u hu => ?_⟩
  obtain ⟨m, hm, hr⟩ := h.exists_node hu
  obtain ⟨ns, hns, hshape⟩ := hr.assemble
  have hlive : Live (n :: handles) m := hm.trans (.held List.mem_cons_self)
  have hfound : s.lookup (u.digest q) = some m := hs.lookup_iff.2 ⟨hlive, hr.digest⟩
  simp only [hfound, Option.elim_some, hshape, shallowSize_assemble hns]

/-- All ways to pick one part of each new digest agree on the digests. -/
theorem Picks.digests_perm {known : Digest → Prop} {parts firsts firsts' : List Value}
    (h : Picks q known parts firsts) (h' : Picks q known parts firsts') :
    (firsts.map (Value.digest q)).Perm (firsts'.map (Value.digest q)) :=
  (List.perm_ext_iff_of_nodup h.nodup h'.nodup).2 fun d => (h.mem_iff d).trans (h'.mem_iff d).symm

/-- What is picked is a part of the parts, up to their order. -/
theorem Picks.subperm {known : Digest → Prop} {parts firsts : List Value} (h : Picks q known parts firsts) :
    firsts.Subperm parts := h.nodup.of_map.subperm h.subset

theorem Picks.totalSize_eq {known : Digest → Prop} {parts firsts firsts' : List Value} {size : Digest → Nat}
    (hsize : ∀ u ∈ parts, u.shallowSize = size (u.digest q)) (h : Picks q known parts firsts)
    (h' : Picks q known parts firsts') : Value.totalSize firsts = Value.totalSize firsts' := by
  have hsum {us : List Value} (hus : us ⊆ parts) :
      Value.totalSize us = ((us.map (Value.digest q)).map size).sum := by
    rw [List.map_map, Value.totalSize]
    exact congrArg List.sum (List.map_congr_left fun u hu => hsize u (hus hu))
  rw [hsum h.subset, hsum h'.subset, ((h.digests_perm h').map size).sum_eq]

/-- The digests of the live nodes are counted as the live nodes are. -/
theorem Sound.exists_digests {B : List UInt8 → Prop} (h : Sound B q s handles) : ∃ ds : List Digest,
    ds.Nodup ∧ (∀ d, d ∈ ds ↔ Known handles d) ∧ s.stats.distinct = ds.length := by
  obtain ⟨live, hexact⟩ := h.exact
  refine ⟨live.map Interned.digest, ?_, fun d => ?_, by rw [List.length_map, hexact.distinct]⟩
  · refine hexact.ids_nodup.of_map.map_on fun n hn m hm hd => ?_
    exact h.canonical.same ((hexact.live_iff n).1 hn) ((hexact.live_iff m).1 hm) hd
  · simp only [List.mem_map, hexact.live_iff]
    rfl

/-- With a value, as many nodes come alive as parts were picked. -/
theorem distinct_intern {n : Interned} {firsts : List Value} (hs : Sound (fun _ => True) q s handles)
    (hs' : Sound (fun _ => True) q s' (n :: handles)) (hr : Represents q v n)
    (h : Picks q (Known handles) v.parts firsts) :
    s'.stats.distinct = s.stats.distinct + firsts.length := by
  obtain ⟨ds, hnodup, hmem, hlen⟩ := hs.exists_digests
  obtain ⟨ds', hnodup', hmem', hlen'⟩ := hs'.exists_digests
  have hperm : ds'.Perm (ds ++ firsts.map (Value.digest q)) := by
    refine (List.perm_ext_iff_of_nodup hnodup' ?_).2 fun d => ?_
    · exact List.nodup_append'.2 ⟨hnodup, h.nodup, fun d hd hd' => ((h.mem_iff d).1 hd').2 ((hmem d).1 hd)⟩
    · rw [hmem', List.mem_append, hmem, h.mem_iff, known_cons hr]
      tauto
  rw [hlen', hlen, hperm.length_eq, List.length_append, List.length_map]

end Store

namespace Client

open Store (Sound Known Picks Represents)

/--
In every state that a client can reach, interning a value fails only if two byte strings that were hashed so far
collide. Otherwise there is one call for each part of the value, and a new live node for each digest among the
parts that no live node had; all other calls are hits. The bytes saved grow by the sizes of all parts, less those
of one part for each new digest, whichever is picked. Without the handle, the new nodes are gone.
-/
theorem statistics_exact (q : Quantization) {ops : List Op} (hp : ∀ op ∈ ops, op.Proper) {v : Value}
    (hv : v.Proper) :
    let c := (start q).run ops
    let c' := c.step (.intern v)
    let before := c.store.stats
    let after := c'.store.stats
    let total := v.parts.length
    let fresh := {d | d ∈ v.parts.map (Value.digest q) ∧ ¬ Known c.handles d}.ncard
    (¬ Digest.Collides (· ∈ c'.hashed) → ∃ s n, c.store.intern v = (s, .ok n)) ∧
    ∀ {s n}, c.store.intern v = (s, .ok n) →
      after.calls = before.calls + total ∧ fresh ≤ total ∧
      after.hits = before.hits + (total - fresh) ∧
      after.distinct = before.distinct + fresh ∧
      (c'.step (.drop 0)).store.stats.distinct = before.distinct ∧
      (∃ firsts, Picks q (Known c.handles) v.parts firsts) ∧
      ∀ {firsts}, Picks q (Known c.handles) v.parts firsts →
        Value.totalSize firsts ≤ Value.totalSize v.parts ∧
        after.bytesSaved = before.bytesSaved + (Value.totalSize v.parts - Value.totalSize firsts) := by
  intro c c' before after total fresh
  have hs : Sound (fun _ => True) q c.store c.handles := sound_run (sound_start _ q) hp fun _ _ => trivial
  refine ⟨(yields_run q hp hv).exists_ok, fun {s n} hr => ?_⟩
  obtain ⟨firsts, hc⟩ := Store.intern_counted hv hs hr
  obtain ⟨hs', hn⟩ := represents_of_intern hs hv hr
  obtain ⟨size, hsize⟩ := hn.sizes hs'
  have hc' : c' = ⟨s, n :: c.handles, c.hashed ++ c.store.hashing v⟩ := step_intern_ok hr
  have hfresh : fresh = firsts.length :=
    (Store.ncard_eq_length hc.picks.nodup hc.picks.mem_iff).trans (List.length_map _)
  have hle : firsts.length ≤ total := hc.picks.subperm.length_le
  have hbytes : Value.totalSize firsts ≤ Value.totalSize v.parts := Value.totalSize_subperm hc.picks.subperm
  simp only [before, after, hc', hfresh]
  refine ⟨hc.calls, hle, ?_, Store.distinct_intern hs hs' hn hc.picks, ?_, ⟨firsts, hc.picks⟩, ?_⟩
  · have := hc.hits
    simp only [Store.stats]
    omega
  · exact hs'.release.distinct_eq hs
  · intro others hothers
    rw [← hc.picks.totalSize_eq hsize hothers]
    have := hc.bytesSaved
    simp only [Store.stats]
    exact ⟨hbytes, by omega⟩

/-- A zero that is there already, with the other sign, is found again inside a sequence that is new. -/
theorem statistics_exact_zero :
    let ops := [Op.intern (.float negativeZero)]
    let v := Value.seq [.float .zero]
    let before := ((start (.epsilon .nan)).run ops).store.stats
    let after := (((start (.epsilon .nan)).run ops).step (.intern v)).store.stats
    (∀ op ∈ ops, op.Proper) ∧ v.Proper ∧
      (∃ s n, ((start (.epsilon .nan)).run ops).store.intern v = (s, .ok n)) ∧
      after.calls = before.calls + 2 ∧ after.hits = before.hits + 1 ∧
      after.distinct = before.distinct + 1 ∧ after.bytesSaved = before.bytesSaved + 56 := by
  intro ops v before after
  have hops : ∀ op ∈ ops, op.Proper := by simp [ops, Op.Proper, proper_float]
  have hv : v.Proper := proper_seq_float .zero
  obtain ⟨hok, hcount⟩ := statistics_exact (.epsilon .nan) hops hv
  obtain ⟨s, n, hr⟩ := hok not_collides_run_zeros
  obtain ⟨s₀, n₀, hr₀, -, -⟩ := Store.intern_ok not_collides_zeroStrings (proper_float negativeZero)
    ((hashed_seq_float rfl).item List.mem_cons_self) (sound_start _ (.epsilon .nan))
  have hhandles : ((start (.epsilon .nan)).run ops).handles = [n₀] := by
    show ((start (.epsilon .nan)).step (.intern (.float negativeZero))).handles = _
    rw [step_intern_ok hr₀]
    rfl
  have hn₀ := (represents_of_intern (sound_start _ (.epsilon .nan)) (proper_float negativeZero) hr₀).2
  have hknown (d : Digest) : Known [n₀] d ↔ d = (Value.float .zero).digest (.epsilon .nan) := by
    rw [Store.known_cons hn₀, Value.digest_float_congr zero_bytes]
    simp [Known, Store.not_live_nil, Value.parts]
  have hne : v.digest (.epsilon .nan) ≠ (Value.float .zero).digest (.epsilon .nan) := by
    rw [Value.digest_float_congr zero_bytes, Value.digest_eq_ofValueFields, Value.digest_eq_ofValueFields]
    exact fun h => digest_zero_ne (h.symm.trans (congrArg Digest.ofBytes (encoded_seq_float zero_bytes)))
  have hpicks : Picks (.epsilon .nan) (Known ((start (.epsilon .nan)).run ops).handles) v.parts [v] := by
    rw [hhandles]
    refine ⟨by simp [v.self_mem_parts], List.nodup_singleton _, fun d => ?_⟩
    rw [hknown]
    simp only [v, Value.parts, Value.itemParts, List.map_cons, List.map_nil, List.append_nil, List.mem_cons,
      List.not_mem_nil, or_false]
    constructor
    · rintro rfl
      exact ⟨.inl rfl, hne⟩
    · rintro ⟨hd | hd, hno⟩
      · exact hd
      · exact absurd hd hno
  have hfresh : {d | d ∈ v.parts.map (Value.digest (.epsilon .nan)) ∧
      ¬ Known ((start (.epsilon .nan)).run ops).handles d}.ncard = 1 :=
    Store.ncard_eq_length hpicks.nodup hpicks.mem_iff
  obtain ⟨hcalls, -, hhits, hdistinct, -, -, hbytes⟩ := hcount hr
  rw [hfresh] at hhits hdistinct
  exact ⟨hops, hv, ⟨s, n, hr⟩, hcalls, hhits, hdistinct, (hbytes hpicks).2⟩

end Client

end ConfigCompiler
