import ConfigCompiler.Interner.Store
import ConfigCompiler.Proofs.Value.Validation

/-!
# The interner keeps its nodes canonical

`Inv B q s live handles`: the nodes in `live` are just the live ones of the store `s`, each is found by its
digest, and the `handles` outside and the live parents are all who hold them, so that counts never run
out while a node is held. The digest of a live node is that of fields which describe its shape
(`Describes`), and `B` holds of their encoding.

Every operation on a store keeps the invariant for some list of live nodes (`Sound`). The list is not a
matter of choice: it has what the handles reach (`Inv.mem_iff`).
-/

namespace ConfigCompiler.Store

/-! ## Fields and shapes -/

/-- The fields whose digest a node of a shape has. -/
inductive Describes (q : Quantization) : List Digest.Field → Shape Interned → Prop
  | null : Describes q [.null] .null
  | bool (b : Bool) : Describes q [.bool b] (.bool b)
  | int (i : Int64) : Describes q [.int i] (.int i)
  | float (x : Binary64) : Describes q [.float x q] (.float (q.apply x))
  | str (s : String) : Describes q [.text s] (.str s)
  | seq (items : List Interned) :
      Describes q (Digest.seqFields (items.map Interned.digest)) (.seq items)
  | map (entries : Entries Interned) :
      Describes q (Digest.mapFields (entries.map fun e => (e.1, e.2.digest))) (.map entries)

/-- A digest of fields that describe a shape, and whose encoding is in `B`. -/
structure Backed (B : List UInt8 → Prop) (q : Quantization) (d : Digest) (shape : Shape Interned) :
    Prop where
  fields : ∃ fields, d = Digest.ofValueFields fields ∧ Describes q fields shape ∧
    (∀ f ∈ fields, f.Sized) ∧ B (Digest.encode Digest.valueDomain fields)

theorem eq_of_map_eq {α β : Type} {f : α → β} {xs ys : List α} (h : xs.map f = ys.map f)
    (hinj : ∀ x ∈ xs, ∀ y ∈ ys, f x = f y → x = y) : xs = ys := by
  induction xs generalizing ys with
  | nil => exact (List.map_eq_nil_iff.1 h.symm).symm
  | cons x xs ih =>
    cases ys with
    | nil => cases h
    | cons y ys =>
      obtain ⟨hxy, hrest⟩ := List.cons.inj h
      rw [hinj x List.mem_cons_self y List.mem_cons_self hxy, ih hrest fun x hx y hy =>
        hinj x (List.mem_cons_of_mem _ hx) y (List.mem_cons_of_mem _ hy)]

theorem sized_of_mapFields {es : Entries Digest} (h : ∀ f ∈ Digest.mapFields es, f.Sized) :
    ∀ e ∈ es, e.1.utf8ByteSize < 2 ^ 64 := fun e he =>
  h (.text e.1) (List.mem_cons_of_mem _ (List.mem_flatMap.2 ⟨e, he, List.mem_cons_self⟩))

/-- The kind of shape that fields describe is known from their bytes. -/
theorem Describes.kind {q : Quantization} {fields : List Digest.Field} {shape : Shape Interned}
    (h : Describes q fields shape) : ∃ tag payload rest,
      fields.map Digest.Field.bytes = (tag :: payload) :: rest ∧ shape.kind = Value.kindOfTag tag := by
  cases h with
  | float x =>
    obtain ⟨tag, payload, hb, htag⟩ := Digest.float_bytes x q
    refine ⟨tag, payload, [], by rw [List.map_singleton, hb], ?_⟩
    rcases htag with rfl | rfl <;> rfl
  | _ => exact ⟨_, _, _, rfl, rfl⟩

/-- Fields of the same bytes describe one shape, if children are known from their digests. -/
theorem Describes.unique {q : Quantization} {fields fields' : List Digest.Field}
    {shape shape' : Shape Interned} (h : Describes q fields shape) (h' : Describes q fields' shape')
    (hs : ∀ f ∈ fields, f.Sized) (hs' : ∀ f ∈ fields', f.Sized)
    (hb : fields.map Digest.Field.bytes = fields'.map Digest.Field.bytes)
    (hc : ∀ c ∈ shape.children, ∀ c' ∈ shape'.children, c.digest = c'.digest → c = c') :
    shape = shape' := by
  have hkind : shape.kind = shape'.kind := by
    obtain ⟨tag, payload, rest, hf, hk⟩ := h.kind
    obtain ⟨tag', payload', rest', hf', hk'⟩ := h'.kind
    rw [hf, hf'] at hb
    rw [hk, hk', (List.cons.inj (List.cons.inj hb).1).1]
  cases h <;> cases h' <;> try (simp [Shape.kind] at hkind; done)
  case null.null => rfl
  case bool.bool => rw [Digest.Field.bool_inj (List.cons.inj hb).1]
  case int.int => rw [Digest.Field.int_inj (List.cons.inj hb).1]
  case float.float => rw [Value.apply_congr (List.cons.inj hb).1]
  case str.str =>
    rw [Digest.Field.text_inj (hs _ List.mem_cons_self) (hs' _ List.mem_cons_self)
      (List.cons.inj hb).1]
  case seq.seq items others =>
    rw [eq_of_map_eq (Digest.map_digest_inj (List.cons.inj hb).2) hc]
  case map.map entries others =>
    have hd := Digest.flatMap_entry_inj (sized_of_mapFields hs) (sized_of_mapFields hs')
      (List.cons.inj hb).2
    rw [eq_of_map_eq hd fun e he f hf hef => Prod.ext (Prod.mk.inj hef).1
      (hc e.2 (List.mem_map.2 ⟨e, he, rfl⟩) f.2 (List.mem_map.2 ⟨f, hf, rfl⟩) (Prod.mk.inj hef).2)]

/-! ## The invariant -/

/-- How many of some nodes have an identity. -/
def mentions (ns : List Interned) (id : Nat) : Nat := ns.countP (·.id == id)

@[simp] theorem mentions_append (ms ns : List Interned) (id : Nat) :
    mentions (ms ++ ns) id = mentions ms id + mentions ns id := List.countP_append

theorem mentions_cons (n : Interned) (ns : List Interned) (id : Nat) :
    mentions (n :: ns) id = mentions ns id + if n.id = id then 1 else 0 := by
  simp [mentions, List.countP_cons]

theorem mentions_perm {ms ns : List Interned} (h : ms.Perm ns) (id : Nat) :
    mentions ms id = mentions ns id := h.countP_eq _

theorem mentions_pos {n : Interned} {ns : List Interned} (h : n ∈ ns) : 0 < mentions ns n.id :=
  List.countP_pos_iff.2 ⟨n, h, by simp⟩

theorem exists_of_mentions_pos {ns : List Interned} {id : Nat} (h : 0 < mentions ns id) :
    ∃ n ∈ ns, n.id = id := by
  obtain ⟨n, hn, hid⟩ := List.countP_pos_iff.1 h
  exact ⟨n, hn, by simpa using hid⟩

/-- The nodes that some nodes have as children, once for each occurrence. -/
def childrenOf (ns : List Interned) : List Interned := ns.flatMap (·.shape.children)

/-- The nodes that handles keep: those they are handles to, the children of these, and so on. -/
inductive Live (handles : List Interned) : Interned → Prop
  | held {n : Interned} : n ∈ handles → Live handles n
  | child {n c : Interned} : Live handles n → c ∈ n.shape.children → Live handles c

theorem Live.mono {handles handles' : List Interned} {n : Interned} (h : Live handles n)
    (hsub : handles ⊆ handles') : Live handles' n := by
  induction h with
  | held hn => exact .held (hsub hn)
  | child _ hc ih => exact .child ih hc

theorem sizeOf_child_lt {n c : Interned} (hc : c ∈ n.shape.children) : sizeOf c < sizeOf n := by
  cases n with | node id d shape =>
  cases shape with
  | seq items =>
    have hlt : sizeOf c < sizeOf items := List.sizeOf_lt_of_mem hc
    simp only [Interned.node.sizeOf_spec, Shape.seq.sizeOf_spec]
    omega
  | map entries =>
    obtain ⟨e, he, rfl⟩ := List.mem_map.1 hc
    have hlt := List.sizeOf_lt_of_mem he
    have hpair : sizeOf e = 1 + sizeOf e.1 + sizeOf e.2 := by cases e; rfl
    simp only [Interned.node.sizeOf_spec, Shape.map.sizeOf_spec]
    omega
  | _ => cases hc

structure Inv (B : List UInt8 → Prop) (q : Quantization) (s : Store) (live handles : List Interned) :
    Prop where
  quantization : s.quantization = q
  ids_nodup : (live.map Interned.id).Nodup
  contains : ∀ {id}, s.holders.contains id = true ↔ ∃ n ∈ live, n.id = id
  slot : ∀ {n}, n ∈ live → s.table[n.digest]? = some n
  digest : ∀ {d : Digest} {n}, s.table[d]? = some n → n.digest = d
  fresh : ∀ {d : Digest} {n}, s.table[d]? = some n → n.id < s.nextId
  ids_inj : ∀ {d d' : Digest} {n n'}, s.table[d]? = some n → s.table[d']? = some n' → n.id = n'.id →
    n = n'
  held : ∀ {n}, n ∈ handles → n ∈ live
  children : ∀ {n c}, n ∈ live → c ∈ n.shape.children → c ∈ live
  count : ∀ {n}, n ∈ live → s.holderCount n = mentions (handles ++ childrenOf live) n.id
  positive : ∀ {n}, n ∈ live → 0 < s.holderCount n
  backed : ∀ {n}, n ∈ live → Backed B q n.digest n.shape

section
variable {B : List UInt8 → Prop} {q : Quantization} {s : Store}
variable {live handles handles' : List Interned} {n m : Interned}

theorem holderCount_insert (s : Store) (id k : Nat) (m : Interned) :
    ({ s with holders := s.holders.insert id k } : Store).holderCount m =
      if id = m.id then k else s.holderCount m := by
  simp only [holderCount, Std.HashMap.getD_insert, beq_iff_eq]

theorem holderCount_erase (s : Store) (id : Nat) (m : Interned) :
    ({ s with holders := s.holders.erase id } : Store).holderCount m =
      if id = m.id then 0 else s.holderCount m := by
  simp only [holderCount, Std.HashMap.getD_erase, beq_iff_eq]

theorem inv_empty (B : List UInt8 → Prop) (q : Quantization) : Inv B q (.empty q) [] [] where
  quantization := rfl
  ids_nodup := .nil
  contains := by simp [empty]
  slot := by simp
  digest := by simp [empty]
  fresh := by simp [empty]
  ids_inj := by simp [empty]
  held := by simp
  children := by simp
  count := by simp
  positive := by simp
  backed := by simp

namespace Inv

theorem perm (h : Inv B q s live handles) (hp : handles.Perm handles') : Inv B q s live handles' :=
  { h with
    held := fun hn => h.held (hp.mem_iff.2 hn)
    count := fun hn => (h.count hn).trans (mentions_perm (hp.append_right _) _) }

/-- Live nodes are told apart by their digests. -/
theorem eq_of_digest (h : Inv B q s live handles) (hn : n ∈ live) (hm : m ∈ live)
    (hd : n.digest = m.digest) : n = m :=
  Option.some.inj ((h.slot hn).symm.trans (hd ▸ h.slot hm))

theorem id_lt (h : Inv B q s live handles) (hn : n ∈ live) : n.id < s.nextId := h.fresh (h.slot hn)

theorem isLive_iff (h : Inv B q s live handles) {d : Digest} (hd : s.table[d]? = some n) :
    s.isLive n = true ↔ n ∈ live := by
  rw [isLive, h.contains]
  constructor
  · rintro ⟨m, hm, hid⟩
    exact h.ids_inj hd (h.slot hm) hid.symm ▸ hm
  · exact fun hn => ⟨n, hn, rfl⟩

theorem lookup_eq_some_iff (h : Inv B q s live handles) {d : Digest} :
    s.lookup d = some n ↔ n ∈ live ∧ n.digest = d := by
  rw [lookup, Option.filter_eq_some_iff]
  constructor
  · rintro ⟨hd, hl⟩
    exact ⟨(h.isLive_iff hd).1 hl, h.digest hd⟩
  · rintro ⟨hn, rfl⟩
    exact ⟨h.slot hn, (h.isLive_iff (h.slot hn)).2 hn⟩

theorem eq_of_id (h : Inv B q s live handles) (hn : n ∈ live) (hm : m ∈ live) (hid : n.id = m.id) :
    n = m := h.ids_inj (h.slot hn) (h.slot hm) hid

/-- Somebody holds a live node. -/
theorem held_or_child (h : Inv B q s live handles) (hn : n ∈ live) :
    n ∈ handles ∨ ∃ p ∈ live, n ∈ p.shape.children := by
  obtain ⟨m, hm, hid⟩ := exists_of_mentions_pos (h.count hn ▸ h.positive hn)
  rcases List.mem_append.1 hm with hm | hm
  · exact .inl (h.eq_of_id (h.held hm) hn hid ▸ hm)
  · obtain ⟨p, hp, hmp⟩ := List.mem_flatMap.1 hm
    exact .inr ⟨p, hp, h.eq_of_id (h.children hp hmp) hn hid ▸ hmp⟩

/-- The live nodes are those that handles keep. -/
theorem mem_iff (h : Inv B q s live handles) : n ∈ live ↔ Live handles n := by
  constructor
  · -- a node is smaller than one that has it as a child, and no live node is larger than their list
    intro hn
    induction hk : sizeOf live - sizeOf n using Nat.strongRecOn generalizing n with
    | ind k ih =>
      rcases h.held_or_child hn with hh | ⟨p, hp, hc⟩
      · exact .held hh
      · have := sizeOf_child_lt hc
        have := List.sizeOf_lt_of_mem hp
        exact .child (ih _ (by omega) hp rfl) hc
  · intro hl
    induction hl with
    | held hn => exact h.held hn
    | child _ hc ih => exact h.children ih hc

/-! ## Holders -/

theorem retain (h : Inv B q s live handles) (hn : n ∈ live) :
    Inv B q (s.retain n) live (n :: handles) := by
  refine { h with
    contains := fun {id} => ?_
    held := fun {m} hm => ?_
    count := fun {m} hm => ?_
    positive := fun {m} hm => ?_ }
  · rw [Store.retain, Std.HashMap.contains_insert, Bool.or_eq_true, h.contains]
    constructor
    · rintro (hid | hid)
      · exact ⟨n, hn, by simpa using hid⟩
      · exact hid
    · exact .inr
  · rcases List.mem_cons.1 hm with rfl | hm
    · exact hn
    · exact h.held hm
  · rw [Store.retain, holderCount_insert, List.cons_append, mentions_cons, h.count hm, h.count hn]
    split
    · rename_i hid
      rw [hid]
    · omega
  · have := h.positive hm
    rw [Store.retain, holderCount_insert]
    split <;> omega

/-- A live node, and the others. -/
theorem perm_cons (h : Inv B q s live handles) (hn : n ∈ live) :
    live.Perm (n :: live.filter (·.id != n.id)) := by
  have hsplit := List.filter_append_perm (fun m : Interned => m.id == n.id) live
  have hone : live.filter (·.id == n.id) = [n] := by
    have hnd := h.ids_nodup
    clear hsplit h
    induction live with
    | nil => cases hn
    | cons m ms ih =>
      rw [List.map_cons, List.nodup_cons] at hnd
      rcases List.mem_cons.1 hn with rfl | hn
      · have hnone : ms.filter (·.id == n.id) = [] := by
          rw [List.filter_eq_nil_iff]
          intro k hk hid
          exact hnd.1 (List.mem_map.2 ⟨k, hk, by simpa using hid⟩)
        simp [hnone]
      · have hne : m.id ≠ n.id := fun hid => hnd.1 (hid ▸ List.mem_map.2 ⟨n, hn, rfl⟩)
        simpa [hne] using ih hn hnd.2
  rw [hone] at hsplit
  exact hsplit.symm

theorem mentions_childrenOf (h : Inv B q s live handles) (hn : n ∈ live) (id : Nat) :
    mentions (childrenOf live) id =
      mentions n.shape.children id + mentions (childrenOf (live.filter (·.id != n.id))) id := by
  rw [← mentions_append]
  exact mentions_perm ((h.perm_cons hn).flatMap_right fun m => m.shape.children) id

/-- Besides a node's only handle, nobody holds the node. -/
theorem id_ne_of_last (h : Inv B q s live (n :: handles)) (hc : s.holderCount n ≤ 1)
    (hm : m ∈ handles ++ childrenOf live) : m.id ≠ n.id := fun hid => by
  have hcount := h.count (h.held List.mem_cons_self)
  have hpos := mentions_pos hm
  rw [List.cons_append, mentions_cons, if_pos rfl] at hcount
  rw [hid] at hpos
  omega

/-- The last holder of a node lets it go: the node dies, and its children are handles now. -/
theorem die (h : Inv B q s live (n :: handles)) (hc : s.holderCount n ≤ 1) :
    Inv B q { s with holders := s.holders.erase n.id } (live.filter (·.id != n.id))
      (n.shape.children ++ handles) := by
  have hn : n ∈ live := h.held List.mem_cons_self
  have hmem {m : Interned} : m ∈ live.filter (·.id != n.id) ↔ m ∈ live ∧ m.id ≠ n.id := by simp
  have hchild {m c : Interned} (hm : m ∈ live) (hcm : c ∈ m.shape.children) : c ∈ live ∧ c.id ≠ n.id :=
    ⟨h.children hm hcm, h.id_ne_of_last hc (List.mem_append_right _ (List.mem_flatMap.2 ⟨m, hm, hcm⟩))⟩
  refine { h with
    ids_nodup := h.ids_nodup.sublist (List.filter_sublist.map _)
    contains := fun {id} => ?_
    slot := fun hm => h.slot (hmem.1 hm).1
    held := fun {m} hm => ?_
    children := fun hm hcm => hmem.2 (hchild (hmem.1 hm).1 hcm)
    count := fun {m} hm => ?_
    positive := fun {m} hm => ?_
    backed := fun hm => h.backed (hmem.1 hm).1 }
  · rw [Std.HashMap.contains_erase, Bool.and_eq_true, h.contains]
    constructor
    · rintro ⟨hne, m, hm, rfl⟩
      have hne' : n.id ≠ m.id := by simpa using hne
      exact ⟨m, hmem.2 ⟨hm, hne'.symm⟩, rfl⟩
    · rintro ⟨m, hm, rfl⟩
      obtain ⟨hm, hne⟩ := hmem.1 hm
      exact ⟨by simpa using hne.symm, m, hm, rfl⟩
  · rcases List.mem_append.1 hm with hm | hm
    · exact hmem.2 (hchild hn hm)
    · exact hmem.2 ⟨h.held (List.mem_cons_of_mem _ hm), h.id_ne_of_last hc (List.mem_append_left _ hm)⟩
  · obtain ⟨hm, hne⟩ := hmem.1 hm
    have := h.count hm
    rw [List.cons_append, mentions_cons, mentions_append, h.mentions_childrenOf hn, if_neg (Ne.symm hne)] at this
    rw [holderCount_erase, if_neg (Ne.symm hne), this, mentions_append, mentions_append]
    omega
  · obtain ⟨hm, hne⟩ := hmem.1 hm
    rw [holderCount_erase, if_neg (Ne.symm hne)]
    exact h.positive hm

/-- A node with other holders loses one. -/
theorem lose (h : Inv B q s live (n :: handles)) (hc : 1 < s.holderCount n) :
    Inv B q { s with holders := s.holders.insert n.id (s.holderCount n - 1) } live handles := by
  have hn : n ∈ live := h.held List.mem_cons_self
  refine { h with
    contains := fun {id} => ?_
    held := fun hm => h.held (List.mem_cons_of_mem _ hm)
    count := fun {m} hm => ?_
    positive := fun {m} hm => ?_ }
  · rw [Std.HashMap.contains_insert, Bool.or_eq_true, h.contains]
    constructor
    · rintro (hid | hid)
      · exact ⟨n, hn, by simpa using hid⟩
      · exact hid
    · exact .inr
  · have hall := h.count hm
    have hone := h.count hn
    rw [List.cons_append, mentions_cons] at hall hone
    rw [holderCount_insert]
    split
    · rename_i hid
      rw [if_pos rfl] at hone
      rw [← hid, hone, Nat.add_sub_cancel]
    · rename_i hid
      rw [hall, if_neg hid, Nat.add_zero]
  · have := h.positive hm
    rw [holderCount_insert]
    split <;> omega

end Inv

end

theorem releaseEntries_eq (s : Store) (entries : Entries Interned) :
    s.releaseEntries entries = s.releaseAll (entries.map (·.2)) := by
  induction entries generalizing s with
  | nil => simp [releaseEntries, releaseAll]
  | cons e entries ih => simp [releaseEntries, releaseAll, ih]

theorem releaseShape_eq (s : Store) (shape : Shape Interned) :
    s.releaseShape shape = s.releaseAll shape.children := by
  cases shape <;> simp [releaseShape, Shape.children, releaseAll, releaseEntries_eq]

theorem release_eq (s : Store) (n : Interned) : s.release n =
    if s.holderCount n ≤ 1 then { s with holders := s.holders.erase n.id }.releaseAll n.shape.children
    else { s with holders := s.holders.insert n.id (s.holderCount n - 1) } := by
  cases n with | node id d shape =>
  simp only [release, releaseShape_eq]
  rfl

/-- What a store guarantees to those who hold `handles`. -/
def Sound (B : List UInt8 → Prop) (q : Quantization) (s : Store) (handles : List Interned) : Prop :=
  ∃ live, Inv B q s live handles

section
variable {B : List UInt8 → Prop} {q : Quantization} {s : Store} {handles : List Interned}

theorem Sound.perm {handles' : List Interned} (h : Sound B q s handles) (hp : handles.Perm handles') :
    Sound B q s handles' := h.imp fun _ h => h.perm hp

/-- Handles may be let go one after the other, if each of them can be. -/
theorem Sound.releaseAll_of {ns : List Interned}
    (hrel : ∀ n ∈ ns, ∀ {s handles}, Sound B q s (n :: handles) → Sound B q (s.release n) handles)
    (h : Sound B q s (ns ++ handles)) : Sound B q (s.releaseAll ns) handles := by
  induction ns generalizing s with
  | nil => simpa [releaseAll] using h
  | cons n ns ih =>
    rw [releaseAll]
    exact ih (fun m hm => hrel m (List.mem_cons_of_mem _ hm)) (hrel n List.mem_cons_self h)

theorem Sound.release_of {n : Interned}
    (hrel : ∀ c ∈ n.shape.children, ∀ {s handles}, Sound B q s (c :: handles) →
      Sound B q (s.release c) handles)
    (h : Sound B q s (n :: handles)) : Sound B q (s.release n) handles := by
  obtain ⟨live, h⟩ := h
  rw [release_eq]
  split
  · rename_i hc
    exact Sound.releaseAll_of hrel ⟨_, h.die hc⟩
  · exact ⟨live, h.lose (by omega)⟩

theorem Sound.release {n : Interned} (h : Sound B q s (n :: handles)) :
    Sound B q (s.release n) handles := by
  -- by induction on the node, with the nodes inside a shape, a list and an entry
  refine n.rec (motive_1 := fun n => ∀ {s handles}, Sound B q s (n :: handles) →
      Sound B q (s.release n) handles)
    (motive_2 := fun shape => ∀ c ∈ shape.children, ∀ {s handles}, Sound B q s (c :: handles) →
      Sound B q (s.release c) handles)
    (motive_3 := fun ns => ∀ c ∈ ns, ∀ {s handles}, Sound B q s (c :: handles) →
      Sound B q (s.release c) handles)
    (motive_4 := fun es => ∀ e ∈ es, ∀ {s handles}, Sound B q s (e.2 :: handles) →
      Sound B q (s.release e.2) handles)
    (motive_5 := fun e => ∀ {s handles}, Sound B q s (e.2 :: handles) →
      Sound B q (s.release e.2) handles) ?_ ?_ ?_ ?_ ?_ ?_ ?_ ?_ ?_ ?_ ?_ ?_ ?_ h
  case refine_1 => exact fun _ _ _ hshape => Sound.release_of hshape
  case refine_7 => exact fun _ hitems => hitems
  case refine_8 =>
    intro entries hentries c hc
    obtain ⟨e, he, rfl⟩ := List.mem_map.1 hc
    exact hentries e he
  case refine_10 | refine_12 =>
    intro m ms hm hms c hc
    rcases List.mem_cons.1 hc with rfl | hc
    · exact hm
    · exact hms c hc
  case refine_13 => exact fun _ _ h => h
  all_goals simp [Shape.children]

theorem Sound.releaseAll {ns : List Interned} (h : Sound B q s (ns ++ handles)) :
    Sound B q (s.releaseAll ns) handles := h.releaseAll_of fun _ _ => Sound.release

theorem Sound.retain_live {n : Interned} (h : Sound B q s handles) (hn : Live handles n) :
    Sound B q (s.retain n) (n :: handles) :=
  h.imp fun _ h => h.retain (h.mem_iff.2 hn)

theorem Sound.retain {n : Interned} (h : Sound B q s handles) (hn : n ∈ handles) :
    Sound B q (s.retain n) (n :: handles) := h.retain_live (.held hn)

/-- The nodes that are found are those that the handles keep. -/
theorem Sound.lookup_iff (h : Sound B q s handles) {d : Digest} {n : Interned} :
    s.lookup d = some n ↔ Live handles n ∧ n.digest = d := by
  obtain ⟨live, h⟩ := h
  rw [h.lookup_eq_some_iff, h.mem_iff]

/-! ## Interning -/

theorem Sound.congr {s' : Store} (h : Sound B q s handles) (hq : s'.quantization = s.quantization)
    (ht : s'.table = s.table) (hh : s'.holders = s.holders) (hid : s'.nextId = s.nextId) :
    Sound B q s' handles := by
  obtain ⟨live, h⟩ := h
  have hcount (n : Interned) : s'.holderCount n = s.holderCount n := by rw [holderCount, hh]; rfl
  exact ⟨live, { h with
    quantization := hq.trans h.quantization
    contains := hh ▸ h.contains
    slot := fun hn => ht ▸ h.slot hn
    digest := fun hd => h.digest (ht ▸ hd)
    fresh := fun hd => hid ▸ h.fresh (ht ▸ hd)
    ids_inj := fun hd hd' => h.ids_inj (ht ▸ hd) (ht ▸ hd')
    count := fun {n} hn => (hcount n).trans (h.count hn)
    positive := fun {n} hn => hcount n ▸ h.positive hn }⟩

theorem Sound.sweep (h : Sound B q s handles) : Sound B q s.sweep.1 handles := by
  obtain ⟨live, h⟩ := h
  have hget {d : Digest} {n : Interned} (hd : s.sweep.1.table[d]? = some n) :
      s.table[d]? = some n := by
    simp only [Store.sweep, Std.HashMap.getElem?_filter', Option.filter_eq_some_iff] at hd
    exact hd.1
  exact ⟨live, { h with
    slot := fun {n} hn => by
      simp only [Store.sweep, Std.HashMap.getElem?_filter', Option.filter_eq_some_iff]
      exact ⟨h.slot hn, (h.isLive_iff (h.slot hn)).2 hn⟩
    digest := fun hd => h.digest (hget hd)
    fresh := fun hd => h.fresh (hget hd)
    ids_inj := fun hd hd' => h.ids_inj (hget hd) (hget hd') }⟩

/-- A store with a new node of a shape, before it is swept. -/
def added (s : Store) (digest : Digest) (shape : Shape Interned) : Store :=
  { s with
    nextId := s.nextId + 1
    table := s.table.insert digest (.node s.nextId digest shape)
    holders := s.holders.insert s.nextId 1 }

theorem create_eq (s : Store) (digest : Digest) (shape : Shape Interned) : s.create digest shape =
    (if (s.added digest shape).sweepAt ≤ (s.added digest shape).table.size
      then (s.added digest shape).sweep.1 else s.added digest shape,
      .node s.nextId digest shape) := rfl

section
variable {live : List Interned} {d : Digest} {shape : Shape Interned} {n : Interned}

theorem table_added_cases {d' : Digest} (h : (s.added d shape).table[d']? = some n) :
    d' = d ∧ n = .node s.nextId d shape ∨ s.table[d']? = some n := by
  rw [added, Std.HashMap.getElem?_insert] at h
  split at h
  · rename_i hd
    exact .inl ⟨(by simpa using hd : d = d').symm, (Option.some.inj h).symm⟩
  · exact .inr h

theorem holderCount_added (s : Store) (d : Digest) (shape : Shape Interned) (n : Interned) :
    (s.added d shape).holderCount n = if s.nextId = n.id then 1 else s.holderCount n :=
  holderCount_insert s s.nextId 1 n

namespace Inv

theorem id_ne_nextId (h : Inv B q s live handles) (hn : n ∈ live) : n.id ≠ s.nextId :=
  Nat.ne_of_lt (h.id_lt hn)

theorem digest_ne_of_lookup (h : Inv B q s live handles) (hd : s.lookup d = none) (hn : n ∈ live) :
    n.digest ≠ d := fun hnd => absurd (h.lookup_eq_some_iff.2 ⟨hn, hnd⟩) (by simp [hd])

/-- Nobody but its handle holds a new node. -/
theorem mem_of_new (h : Inv B q s live (shape.children ++ handles))
    (hn : n ∈ handles ++ childrenOf (.node s.nextId d shape :: live)) : n ∈ live := by
  rcases List.mem_append.1 hn with hn | hn
  · exact h.held (List.mem_append_right _ hn)
  · rw [childrenOf, List.flatMap_cons] at hn
    rcases List.mem_append.1 hn with hn | hn
    · exact h.held (List.mem_append_left _ hn)
    · obtain ⟨p, hp, hn⟩ := List.mem_flatMap.1 hn
      exact h.children hp hn

theorem ids_inj_added (h : Inv B q s live handles) {d₁ d₂ : Digest} {n₁ n₂ : Interned}
    (h₁ : (s.added d shape).table[d₁]? = some n₁) (h₂ : (s.added d shape).table[d₂]? = some n₂)
    (hid : n₁.id = n₂.id) : n₁ = n₂ := by
  rcases table_added_cases h₁ with ⟨-, rfl⟩ | h₁ <;> rcases table_added_cases h₂ with ⟨-, rfl⟩ | h₂
  · rfl
  · exact absurd hid.symm (Nat.ne_of_lt (h.fresh h₂))
  · exact absurd hid (Nat.ne_of_lt (h.fresh h₁))
  · exact h.ids_inj h₁ h₂ hid

/-- The children that the new node has are no longer held from outside. -/
theorem count_added (h : Inv B q s live (shape.children ++ handles))
    (hn : n ∈ Interned.node s.nextId d shape :: live) :
    (s.added d shape).holderCount n = mentions
      ((.node s.nextId d shape :: handles) ++ childrenOf (.node s.nextId d shape :: live)) n.id := by
  rw [List.cons_append, mentions_cons, holderCount_added]
  rcases List.mem_cons.1 hn with rfl | hn
  · have hzero : mentions (handles ++ childrenOf (.node s.nextId d shape :: live)) s.nextId = 0 := by
      refine List.countP_eq_zero.2 fun m hm => ?_
      simpa using h.id_ne_nextId (h.mem_of_new hm)
    simp [Interned.id, hzero]
  · have hc := h.count hn
    simp only [mentions_append] at hc ⊢
    have hcons : mentions (childrenOf (.node s.nextId d shape :: live)) n.id =
        mentions shape.children n.id + mentions (childrenOf live) n.id := mentions_append ..
    have hno : Interned.id (.node s.nextId d shape) ≠ n.id := (h.id_ne_nextId hn).symm
    rw [if_neg hno, if_neg (h.id_ne_nextId hn).symm, hcons]
    omega

/-- A new node takes over the handles of its children. -/
theorem add (h : Inv B q s live (shape.children ++ handles)) (hd : s.lookup d = none) (hb : Backed B q d shape) :
    Inv B q (s.added d shape) (.node s.nextId d shape :: live) (.node s.nextId d shape :: handles) where
  quantization := h.quantization
  ids_nodup := by
    refine List.nodup_cons.2 ⟨fun hm => ?_, h.ids_nodup⟩
    obtain ⟨n, hn, hid⟩ := List.mem_map.1 hm
    exact h.id_ne_nextId hn hid
  contains := by
    intro id
    rw [added, Std.HashMap.contains_insert, Bool.or_eq_true, h.contains, beq_iff_eq]
    simp only [List.mem_cons, exists_eq_or_imp]
    rfl
  slot := by
    intro n hn
    rw [added, Std.HashMap.getElem?_insert]
    rcases List.mem_cons.1 hn with rfl | hn
    · exact if_pos (by simp [Interned.digest])
    · rw [if_neg (by simpa using (h.digest_ne_of_lookup hd hn).symm)]
      exact h.slot hn
  digest := by
    intro d' n hd'
    rcases table_added_cases hd' with ⟨rfl, rfl⟩ | hd'
    · rfl
    · exact h.digest hd'
  fresh := by
    intro d' n hd'
    rcases table_added_cases hd' with ⟨rfl, rfl⟩ | hd'
    · exact Nat.lt_succ_self _
    · exact Nat.lt_succ_of_lt (h.fresh hd')
  ids_inj := h.ids_inj_added
  held := by
    intro n hn
    rcases List.mem_cons.1 hn with rfl | hn
    · exact List.mem_cons_self
    · exact List.mem_cons_of_mem _ (h.held (List.mem_append_right _ hn))
  children := by
    intro n c hn hc
    refine List.mem_cons_of_mem _ ?_
    rcases List.mem_cons.1 hn with rfl | hn
    · exact h.held (List.mem_append_left _ hc)
    · exact h.children hn hc
  count := h.count_added
  positive := by
    intro n hn
    rw [holderCount_added]
    rcases List.mem_cons.1 hn with rfl | hn
    · simp [Interned.id]
    · rw [if_neg (h.id_ne_nextId hn).symm]
      exact h.positive hn
  backed := by
    intro n hn
    rcases List.mem_cons.1 hn with rfl | hn
    · exact hb
    · exact h.backed hn

end Inv

end

theorem Sound.create {d : Digest} {shape : Shape Interned}
    (h : Sound B q s (shape.children ++ handles)) (hd : s.lookup d = none) (hb : Backed B q d shape) :
    Sound B q (s.create d shape).1 ((s.create d shape).2 :: handles) ∧
      (s.create d shape).2.digest = d := by
  obtain ⟨live, h⟩ := h
  have hadd : Sound B q (s.added d shape) _ := ⟨_, h.add hd hb⟩
  refine ⟨?_, rfl⟩
  rw [create_eq]
  split
  · exact hadd.sweep
  · exact hadd

end

end ConfigCompiler.Store
