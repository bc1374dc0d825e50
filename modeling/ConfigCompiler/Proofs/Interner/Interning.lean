import Mathlib.Data.List.Forall2
import ConfigCompiler.Proofs.Interner.Invariant

/-!
# What interning comes to

A shape is resolved to a node of its digest and of this very shape, or its digest stands for two different
byte strings (`Sound.resolve_yields`). Along a value this adds up: interning yields a node that represents
the value (`Represents`: each node inside has the digest of the part of the value that it stands for), or
two of the byte strings hashed so far collide (`intern_yields`). In both cases nothing is held that was not
held before, the new node apart.

A node that represents a value and is live is what interning the value yields again, whatever collides
(`intern_represented`).
-/

namespace ConfigCompiler

/-- The shape of a scalar under a policy. -/
def Value.scalar? (q : Quantization) : Value → Option (Shape Interned)
  | null => some .null
  | bool b => some (.bool b)
  | int i => some (.int i)
  | float x => some (.float (q.apply x))
  | str t => some (.str t)
  | seq _ => none
  | map _ => none

/-- Induction with one case for all scalars. -/
theorem Value.induction_scalar (q : Quantization) {P : Value → Prop}
    (scalar : ∀ (v : Value) (shape : Shape Interned), v.scalar? q = some shape → P v)
    (seq : ∀ items, (∀ v ∈ items, P v) → P (.seq items))
    (map : ∀ entries, (∀ e ∈ entries, P e.2) → P (.map entries)) (v : Value) : P v :=
  v.induction (scalar _ _ rfl) (fun _ => scalar _ _ rfl) (fun _ => scalar _ _ rfl)
    (fun _ => scalar _ _ rfl) (fun _ => scalar _ _ rfl) seq map

namespace Store

/-! ## Hashing -/

mutual

/-- The byte strings that are hashed when a value is interned, in their order. -/
def hashing (s : Store) : Value → List (List UInt8)
  | .null => [Digest.encode Digest.valueDomain [.null]]
  | .bool b => [Digest.encode Digest.valueDomain [.bool b]]
  | .int i => [Digest.encode Digest.valueDomain [.int i]]
  | .float x => [Digest.encode Digest.valueDomain [.float x s.quantization]]
  | .str t => [Digest.encode Digest.valueDomain [.text t]]
  | .seq items => s.hashingItems items ++
    match s.internItems items with
    | (_, .error _) => []
    | (_, .ok ns) => [Digest.encode Digest.valueDomain (Digest.seqFields (ns.map Interned.digest))]
  | .map entries => s.hashingEntries entries ++
    match s.internEntries entries with
    | (_, .error _) => []
    | (_, .ok es) => [Digest.encode Digest.valueDomain
        (Digest.mapFields ((Entries.sorted es).map fun e => (e.1, e.2.digest)))]

def hashingItems (s : Store) : List Value → List (List UInt8)
  | [] => []
  | v :: vs => s.hashing v ++
    match s.intern v with
    | (_, .error _) => []
    | (s, .ok _) => s.hashingItems vs

def hashingEntries (s : Store) : List (String × Value) → List (List UInt8)
  | [] => []
  | (_, v) :: es => s.hashing v ++
    match s.intern v with
    | (_, .error _) => []
    | (s, .ok _) => s.hashingEntries es

end

/-! ## Entries as items under keys -/

theorem internEntries_eq (s : Store) (entries : Entries Value) : s.internEntries entries =
    ((s.internItems (entries.map (·.2))).1,
      (s.internItems (entries.map (·.2))).2.map fun ns => (entries.map (·.1)).zip ns) := by
  induction entries generalizing s with
  | nil => simp [internEntries, internItems, Except.map]
  | cons e entries ih =>
    obtain ⟨key, v⟩ := e
    simp only [internEntries, internItems, List.map_cons]
    rcases s.intern v with ⟨s₁, err | n⟩
    · rfl
    · simp only [ih]
      generalize s₁.internItems (entries.map (·.2)) = r
      obtain ⟨s₂, err | ns⟩ := r <;> rfl

theorem hashingEntries_eq (s : Store) (entries : Entries Value) :
    s.hashingEntries entries = s.hashingItems (entries.map (·.2)) := by
  induction entries generalizing s with
  | nil => simp [hashingEntries, hashingItems]
  | cons e entries ih =>
    obtain ⟨key, v⟩ := e
    simp only [hashingEntries, hashingItems, List.map_cons, ih]

/-! ## Shapes that match -/

theorem eq_of_allSame {β : Type} {same : β → β → Bool} {xs ys : List β}
    (hs : ∀ x ∈ xs, ∀ y ∈ ys, same x y = true → x = y) (h : Shape.allSame same xs ys = true) :
    xs = ys := by
  induction xs generalizing ys with
  | nil => cases ys <;> simp [Shape.allSame] at h ⊢
  | cons x xs ih =>
    cases ys with
    | nil => simp [Shape.allSame] at h
    | cons y ys =>
      rw [Shape.allSame, Bool.and_eq_true] at h
      rw [hs x List.mem_cons_self y List.mem_cons_self h.1, ih (fun x hx y hy =>
        hs x (List.mem_cons_of_mem _ hx) y (List.mem_cons_of_mem _ hy)) h.2]

theorem allSame_self {β : Type} {same : β → β → Bool} (hs : ∀ x, same x x = true) (xs : List β) :
    Shape.allSame same xs xs = true := by
  induction xs with
  | nil => rfl
  | cons x xs ih => simp [Shape.allSame, hs, ih]

/-- Shapes match if they are equal, as long as their children are told apart by their identities. -/
theorem matches?_iff {a b : Shape Interned}
    (hc : ∀ c ∈ a.children, ∀ c' ∈ b.children, c.id = c'.id → c = c') :
    a.matches? Interned.same b = true ↔ a = b := by
  have hself (n : Interned) : Interned.same n n = true := by simp [Interned.same]
  constructor
  · intro h
    cases a <;> cases b <;> simp only [Shape.matches?, Bool.false_eq_true] at h
    case null.null => rfl
    case bool.bool | int.int | str.str => rw [eq_of_beq h]
    case float.float => exact congrArg (fun bits => Shape.float ⟨bits⟩) (eq_of_beq h)
    case seq.seq items others =>
      refine congrArg Shape.seq (eq_of_allSame (fun x hx y hy hxy => ?_) h)
      exact hc x hx y hy (eq_of_beq hxy)
    case map.map entries others =>
      refine congrArg Shape.map (eq_of_allSame (fun e he f hf hef => ?_) h)
      simp only [Bool.and_eq_true] at hef
      exact Prod.ext (eq_of_beq hef.1) (hc e.2 (List.mem_map.2 ⟨e, he, rfl⟩) f.2
        (List.mem_map.2 ⟨f, hf, rfl⟩) (eq_of_beq hef.2))
  · rintro rfl
    cases a with
    | seq items => exact allSame_self hself items
    | map entries => exact allSame_self (fun e => by simp [hself]) entries
    | _ => simp [Shape.matches?]

/-! ## Resolving a shape -/

section
variable {B : List UInt8 → Prop} {q : Quantization} {s : Store} {handles : List Interned}

/-- What an operation comes to that ends with handles to some nodes, or with a collision. -/
inductive Yields {α : Type} (B : List UInt8 → Prop) (q : Quantization) (handles : List Interned)
    (nodes : α → List Interned) (P : α → Prop) : Store × Except IntegrityError α → Prop
  | ok {s : Store} {x : α} : Sound B q s (nodes x ++ handles) → P x → Yields B q handles nodes P (s, .ok x)
  | error {s : Store} {e : IntegrityError} : Sound B q s handles → Digest.Collides B →
      Yields B q handles nodes P (s, .error e)

theorem Sound.called (h : Sound B q s handles) : Sound B q { s with calls := s.calls + 1 } handles :=
  h.congr rfl rfl rfl rfl

theorem Yields.imp {α : Type} {nodes : α → List Interned} {P Q : α → Prop}
    {r : Store × Except IntegrityError α} (h : Yields B q handles nodes P r) (hPQ : ∀ x, P x → Q x) :
    Yields B q handles nodes Q r := by
  cases h with
  | ok hs hx => exact .ok hs (hPQ _ hx)
  | error hs hc => exact .error hs hc

theorem Yields.exists_ok {α : Type} {nodes : α → List Interned} {P : α → Prop}
    {r : Store × Except IntegrityError α} (h : Yields B q handles nodes P r) (hB : ¬ Digest.Collides B) :
    ∃ s x, r = (s, .ok x) := by
  cases h with
  | ok _ _ => exact ⟨_, _, rfl⟩
  | error _ hc => exact absurd hc hB

theorem Sound.resolve_found {d : Digest} {n : Interned}
    (h : Sound B q s (n.shape.children ++ handles)) (hl : s.lookup d = some n) :
    ∃ s', s.resolve d n.shape = (s', .ok n) ∧ Sound B q s' (n :: handles) := by
  obtain ⟨live, hi⟩ := h
  have hn := (hi.lookup_eq_some_iff.1 hl).1
  have hmatch : n.shape.matches? Interned.same n.shape = true :=
    (matches?_iff fun c hc c' hc' => hi.eq_of_id (hi.children hn hc) (hi.children hn hc')).2 rfl
  have hl' : Store.lookup { s with calls := s.calls + 1 } d = some n := hl
  have hretained : Sound B q _ (n :: (n.shape.children ++ handles)) := ⟨live, hi.retain hn⟩
  simp only [Store.resolve, hl', Store.reuse, if_pos hmatch]
  exact ⟨_, rfl, Sound.releaseAll ((hretained.perm List.perm_middle.symm).congr rfl rfl rfl rfl)⟩

/-- A node of another shape is found only where two byte strings have one digest. -/
theorem Sound.resolve_yields {d : Digest} {shape : Shape Interned}
    (h : Sound B q s (shape.children ++ handles)) (hb : Backed B q d shape) :
    Yields B q handles (fun n => [n]) (fun n => n.digest = d ∧ n.shape = shape)
      (s.resolve d shape) := by
  cases hl : s.lookup d with
  | none =>
    have hl' : Store.lookup { s with calls := s.calls + 1 } d = none := hl
    obtain ⟨hs, hd⟩ := h.called.create hl' hb
    simp only [Store.resolve, hl']
    exact .ok hs ⟨hd, rfl⟩
  | some n =>
    obtain ⟨live, hi⟩ := id h
    obtain ⟨hn, hd⟩ := hi.lookup_eq_some_iff.1 hl
    have hheld {c : Interned} (hc : c ∈ shape.children) : c ∈ live :=
      hi.held (List.mem_append_left _ hc)
    by_cases hshape : n.shape = shape
    · subst hshape
      obtain ⟨s', hr, hs'⟩ := h.resolve_found hl
      rw [hr]
      exact .ok hs' ⟨hd, rfl⟩
    · have hmatch : ¬ n.shape.matches? Interned.same shape = true := fun hm => hshape <|
        (matches?_iff fun c hc c' hc' => hi.eq_of_id (hi.children hn hc) (hheld hc')).1 hm
      have hcollides : Digest.Collides B := by
        refine Classical.byContradiction fun hB => hshape ?_
        obtain ⟨fields, hf, hdesc, hsized, hfB⟩ := (hi.backed hn).fields
        obtain ⟨fields', hf', hdesc', hsized', hfB'⟩ := hb.fields
        refine hdesc.unique hdesc' hsized hsized'
          (Digest.ofFields_inj hB hsized hsized' hfB hfB' (hf.symm.trans (hd.trans hf'))) ?_
        exact fun c hc c' hc' => hi.eq_of_digest (hi.children hn hc) (hheld hc')
      have hl' : Store.lookup { s with calls := s.calls + 1 } d = some n := hl
      simp only [Store.resolve, hl', Store.reuse, if_neg hmatch]
      exact .error h.called.releaseAll hcollides

/-! ## Interning a value -/

/-- The nodes of entries under their keys, which are in order. -/
def keyed (entries : Entries Value) (ns : List Interned) : Entries Interned :=
  Entries.sorted ((entries.map (·.1)).zip ns)

/-- A node stands for a value: each node inside it has the digest of the part that it stands for. -/
inductive Represents (q : Quantization) : Value → Interned → Prop
  | scalar {v : Value} {n : Interned} : n.digest = v.digest q → v.scalar? q = some n.shape →
      Represents q v n
  | seq {items : List Value} {n : Interned} {ns : List Interned} :
      n.digest = (Value.seq items).digest q → n.shape = .seq ns →
      List.Forall₂ (Represents q) items ns → Represents q (.seq items) n
  | map {entries : Entries Value} {n : Interned} {ns : List Interned} :
      n.digest = (Value.map entries).digest q →
      n.shape = .map (keyed entries ns) →
      List.Forall₂ (Represents q) (entries.map (·.2)) ns → Represents q (.map entries) n

theorem Represents.digest {v : Value} {n : Interned} (h : Represents q v n) :
    n.digest = v.digest q := by
  cases h <;> assumption

theorem digests_eq {items : List Value} {ns : List Interned}
    (h : List.Forall₂ (Represents q) items ns) :
    ns.map Interned.digest = items.map (Value.digest q) := by
  induction h with
  | nil => rfl
  | cons hv _ ih => rw [List.map_cons, List.map_cons, hv.digest, ih]

theorem sorted_map {α β : Type} (f : α → β) (entries : Entries α) :
    (Entries.sorted entries).map (fun e => (e.1, f e.2)) =
      Entries.sorted (entries.map fun e => (e.1, f e.2)) :=
  List.map_mergeSort fun _ _ _ _ => rfl

/-- The digests of the nodes under the sorted keys are those of the values. -/
theorem entryDigests_eq {entries : Entries Value} {ns : List Interned}
    (h : List.Forall₂ (Represents q) (entries.map (·.2)) ns) :
    (keyed entries ns).map (fun e => (e.1, e.2.digest)) =
      Entries.sorted (entries.map fun e => (e.1, e.2.digest q)) := by
  rw [keyed, sorted_map]
  congr 1
  induction entries generalizing ns with
  | nil => rfl
  | cons e entries ih =>
    cases h with
    | cons hv hrest =>
      simp only [List.map_cons, List.zip_cons_cons, hv.digest]
      rw [ih hrest]

theorem seq_fields {items : List Value} {ns : List Interned}
    (h : List.Forall₂ (Represents q) items ns) :
    (Value.seq items).fields q = Digest.seqFields (ns.map Interned.digest) := by
  rw [Value.fields, digests_eq h]

theorem seqDigest_eq {items : List Value} {ns : List Interned}
    (h : List.Forall₂ (Represents q) items ns) : seqDigest ns = (Value.seq items).digest q := by
  rw [Value.digest_eq_ofValueFields, seq_fields h, seqDigest]

theorem map_fields {entries : Entries Value} {ns : List Interned}
    (h : List.Forall₂ (Represents q) (entries.map (·.2)) ns) :
    (Value.map entries).fields q =
      Digest.mapFields ((keyed entries ns).map fun e => (e.1, e.2.digest)) := by
  rw [Value.fields, entryDigests_eq h]

theorem mapDigest_eq {entries : Entries Value} {ns : List Interned}
    (h : List.Forall₂ (Represents q) (entries.map (·.2)) ns) :
    mapDigest (keyed entries ns) = (Value.map entries).digest q := by
  rw [Value.digest_eq_ofValueFields, map_fields h, mapDigest]

theorem keyed_children {entries : Entries Value} {ns : List Interned}
    (h : List.Forall₂ (Represents q) (entries.map (·.2)) ns) :
    ((keyed entries ns).map (·.2)).Perm ns := by
  have hlen := h.length_eq
  rw [List.length_map] at hlen
  have hsnd : ((entries.map (·.1)).zip ns).map (·.2) = ns :=
    List.map_snd_zip (by rw [List.length_map]; exact Nat.le_of_eq hlen.symm)
  exact ((Entries.sorted_perm _).map _).trans (.of_eq hsnd)

/-- A scalar is hashed once, and resolved to its shape. -/
theorem intern_scalar {v : Value} {shape : Shape Interned} (hv : v.scalar? q = some shape) :
    Describes q (v.fields q) shape ∧ shape.children = [] ∧ ∀ s : Store, s.quantization = q →
      s.intern v = s.resolve (v.digest q) shape ∧ s.hashing v = [v.encoded q] := by
  cases v <;> cases hv
  case float x =>
    exact ⟨.float x, rfl, fun s hq => ⟨by rw [intern, Value.digest, hq], by rw [hashing, hq]; rfl⟩⟩
  all_goals
    exact ⟨by constructor, rfl, fun s _ => ⟨by rw [intern, Value.digest], by rw [hashing]; rfl⟩⟩

theorem Sound.quantization (h : Sound B q s handles) : s.quantization = q :=
  h.elim fun _ h => h.quantization

/-- What interning a value comes to. -/
def Interns (B : List UInt8 → Prop) (q : Quantization) (v : Value) : Prop :=
  ∀ ⦃s handles⦄, Sound B q s handles → (∀ bytes ∈ s.hashing v, B bytes) →
    Yields B q handles (fun n => [n]) (Represents q v) (s.intern v)

theorem internItems_yields {items : List Value} (hitems : ∀ v ∈ items, Interns B q v)
    (h : Sound B q s handles) (hB : ∀ bytes ∈ s.hashingItems items, B bytes) :
    Yields B q handles id (List.Forall₂ (Represents q) items) (s.internItems items) := by
  induction items generalizing s handles with
  | nil =>
    rw [internItems]
    exact .ok h .nil
  | cons v items ih =>
    have hv := hitems v List.mem_cons_self h fun bytes hb =>
      hB bytes (by rw [hashingItems]; exact List.mem_append_left _ hb)
    rw [internItems]
    rw [hashingItems] at hB
    cases hr : s.intern v with | mk s₁ r =>
    rw [hr] at hv hB
    cases hv with
    | error hs hc => exact .error hs hc
    | @ok _ n hs hn =>
      have hrest := ih (fun w hw => hitems w (List.mem_cons_of_mem _ hw)) hs fun bytes hb =>
        hB bytes (List.mem_append_right _ hb)
      simp only
      cases hr' : s₁.internItems items with | mk s₂ r' =>
      rw [hr'] at hrest
      cases hrest with
      | error hs' hc => exact .error hs'.release hc
      | ok hs' hns => exact .ok (hs'.perm List.perm_middle) (.cons hn hns)

/-- The digest of a value is backed by what is hashed at its top level. -/
theorem backed_of_encoded {v : Value} {shape : Shape Interned} (hd : Describes q (v.fields q) shape)
    (hv : v.Fits) (hB : B (v.encoded q)) : Backed B q (v.digest q) shape :=
  ⟨v.fields q, Value.digest_eq_ofValueFields q v, hd, hv.fields, hB⟩

/-- Interning ends with a node that represents the value, or two byte strings hashed so far collide. -/
theorem intern_yields {v : Value} (hv : v.Proper) : Interns B q v := by
  induction v using Value.induction_scalar q with
  | scalar v shape hshape =>
    intro s handles h hB
    obtain ⟨hdesc, hnil, heq⟩ := intern_scalar hshape
    obtain ⟨hr, hh⟩ := heq s h.quantization
    rw [hr]
    have hb := backed_of_encoded hdesc hv.fits (hB _ (by rw [hh]; exact List.mem_singleton_self _))
    exact (Sound.resolve_yields (by rw [hnil]; exact h) hb).imp fun n hn =>
      .scalar hn.1 (by rw [hn.2, hshape])
  | seq items ih =>
    intro s handles h hB
    rw [hashing] at hB
    rw [intern]
    have hitems := internItems_yields (fun v hm => ih v hm (hv.item hm)) h fun bytes hb =>
      hB bytes (List.mem_append_left _ hb)
    cases hr : s.internItems items with | mk s₁ r =>
    rw [hr] at hitems hB
    cases hitems with
    | error hs hc => exact .error hs hc
    | @ok _ ns hs hns =>
      have hb : Backed B q (seqDigest ns) (.seq ns) := by
        rw [seqDigest_eq hns]
        refine backed_of_encoded (seq_fields hns ▸ .seq ns) hv.fits (hB _ (List.mem_append_right _ ?_))
        rw [Value.encoded, seq_fields hns]
        exact List.mem_singleton_self _
      exact (Sound.resolve_yields hs hb).imp fun n hn => .seq (hn.1.trans (seqDigest_eq hns)) hn.2 hns
  | map entries ih =>
    intro s handles h hB
    rw [hashing, hashingEntries_eq, internEntries_eq] at hB
    rw [intern, internEntries_eq]
    have hentries : ∀ v ∈ entries.map (·.2), Interns B q v :=
      List.forall_mem_map.2 fun e he => ih e he (hv.entry he)
    have hitems := internItems_yields hentries h fun bytes hb => hB bytes (List.mem_append_left _ hb)
    cases hr : s.internItems (entries.map (·.2)) with | mk s₁ r =>
    rw [hr] at hitems hB
    cases hitems with
    | error hs hc => exact .error hs hc
    | @ok _ ns hs hns =>
      have hb : Backed B q (mapDigest (keyed entries ns)) (.map (keyed entries ns)) := by
        rw [mapDigest_eq hns]
        refine backed_of_encoded (map_fields hns ▸ .map _) hv.fits (hB _ (List.mem_append_right _ ?_))
        rw [Value.encoded, map_fields hns]
        exact List.mem_singleton_self _
      have hs' : Sound B q s₁ ((Shape.map (keyed entries ns)).children ++ handles) :=
        hs.perm ((keyed_children hns).symm.append_right _)
      exact (Sound.resolve_yields hs' hb).imp fun n hn =>
        .map (hn.1.trans (mapDigest_eq hns)) hn.2 hns

/-! ## Without collisions -/

theorem Sound.mono {B' : List UInt8 → Prop} (h : Sound B q s handles)
    (hB : ∀ bytes, B bytes → B' bytes) : Sound B' q s handles := by
  obtain ⟨live, h⟩ := h
  refine ⟨live, { h with backed := fun hn => ?_ }⟩
  obtain ⟨fields, hd, hdesc, hsized, hfB⟩ := (h.backed hn).fields
  exact ⟨fields, hd, hdesc, hsized, hB _ hfB⟩

/-- What is hashed when a value is interned, is hashed for its digest. -/
def Hashes (B : List UInt8 → Prop) (q : Quantization) (v : Value) : Prop :=
  ∀ ⦃s handles⦄, Sound (fun _ => True) q s handles → ∀ bytes ∈ s.hashing v, B bytes

theorem of_mem_hashingItems {items : List Value} (hp : ∀ v ∈ items, v.Proper)
    (hitems : ∀ v ∈ items, Hashes B q v) (h : Sound (fun _ => True) q s handles) :
    ∀ bytes ∈ s.hashingItems items, B bytes := by
  induction items generalizing s handles with
  | nil => simp [hashingItems]
  | cons v items ih =>
    intro bytes hb
    have hy := intern_yields (hp v List.mem_cons_self) h fun _ _ => trivial
    rw [hashingItems] at hb
    rcases List.mem_append.1 hb with hb | hb
    · exact hitems v List.mem_cons_self h bytes hb
    · cases hr : s.intern v with | mk s₁ r =>
      rw [hr] at hy hb
      cases hy with
      | error _ _ => simp at hb
      | ok hs _ =>
        exact ih (fun w hw => hp w (List.mem_cons_of_mem _ hw))
          (fun w hw => hitems w (List.mem_cons_of_mem _ hw)) hs bytes hb

theorem of_mem_hashing {v : Value} (hv : v.Proper) (hvB : v.Hashed B q) : Hashes B q v := by
  induction v using Value.induction_scalar q with
  | scalar v shape hshape =>
    intro s handles h bytes hb
    rw [((intern_scalar hshape).2.2 s h.quantization).2] at hb
    obtain rfl := List.mem_singleton.1 hb
    exact hvB.self
  | seq items ih =>
    intro s handles h bytes hb
    rw [hashing] at hb
    rcases List.mem_append.1 hb with hb | hb
    · exact of_mem_hashingItems (fun v hm => hv.item hm)
        (fun v hm => ih v hm (hv.item hm) (hvB.item hm)) h bytes hb
    · have hy := internItems_yields (fun v hm => intern_yields (hv.item hm)) h fun _ _ => trivial
      cases hr : s.internItems items with | mk s₁ r =>
      rw [hr] at hy hb
      cases hy with
      | error _ _ => simp at hb
      | ok _ hns =>
        obtain rfl := List.mem_singleton.1 hb
        rw [← seq_fields hns]
        exact hvB.self
  | map entries ih =>
    intro s handles h bytes hb
    rw [hashing, hashingEntries_eq, internEntries_eq] at hb
    have hproper : ∀ v ∈ entries.map (·.2), v.Proper := List.forall_mem_map.2 fun _ he => hv.entry he
    rcases List.mem_append.1 hb with hb | hb
    · have hhashes : ∀ v ∈ entries.map (·.2), Hashes B q v :=
        List.forall_mem_map.2 fun e he => ih e he (hv.entry he) (hvB.entry he)
      exact of_mem_hashingItems hproper hhashes h bytes hb
    · have hy := internItems_yields (fun v hm => intern_yields (hproper v hm)) h fun _ _ => trivial
      cases hr : s.internItems (entries.map (·.2)) with | mk s₁ r =>
      rw [hr] at hy hb
      cases hy with
      | error _ _ => simp [Except.map] at hb
      | ok _ hns =>
        obtain rfl := List.mem_singleton.1 hb
        have hself := hvB.self
        rwa [Value.encoded, map_fields hns] at hself

/-- Without collisions, interning a value succeeds with a node of its digest. -/
theorem intern_ok (hB : ¬ Digest.Collides B) {v : Value} (hv : v.Proper) (hvB : v.Hashed B q)
    (h : Sound B q s handles) :
    ∃ s' n, s.intern v = (s', .ok n) ∧ Sound B q s' (n :: handles) ∧ n.digest = v.digest q := by
  have hy := intern_yields hv h (of_mem_hashing hv hvB (h.mono fun _ _ => trivial))
  cases hr : s.intern v with | mk s' r =>
  rw [hr] at hy
  cases hy with
  | error _ hc => exact absurd hc hB
  | ok hs hn => exact ⟨_, _, rfl, hs, hn.digest⟩

/-! ## Values that are there already -/

/-- Interning a value that a live node represents yields this node. -/
def InternsTo (B : List UInt8 → Prop) (q : Quantization) (v : Value) : Prop :=
  ∀ ⦃n s handles⦄, Represents q v n → Sound B q s handles → Live handles n →
    ∃ s', s.intern v = (s', .ok n) ∧ Sound B q s' (n :: handles)

theorem internItems_represented {items : List Value} {ns : List Interned}
    (hitems : ∀ v ∈ items, InternsTo B q v) (hr : List.Forall₂ (Represents q) items ns)
    (h : Sound B q s handles) (hl : ∀ n ∈ ns, Live handles n) :
    ∃ s', s.internItems items = (s', .ok ns) ∧ Sound B q s' (ns ++ handles) := by
  induction hr generalizing s handles with
  | nil => exact ⟨s, by rw [internItems], h⟩
  | @cons v n items ns hv _ ih =>
    obtain ⟨s₁, h₁, hs₁⟩ := hitems v List.mem_cons_self hv h (hl n List.mem_cons_self)
    obtain ⟨s₂, h₂, hs₂⟩ := ih (fun w hw => hitems w (List.mem_cons_of_mem _ hw)) hs₁ fun m hm =>
      (hl m (List.mem_cons_of_mem _ hm)).mono (List.subset_cons_self _ _)
    exact ⟨s₂, by simp only [internItems, h₁, h₂], hs₂.perm List.perm_middle⟩

/-- A live node that represents a value is what interning the value yields, whatever collides. -/
theorem intern_represented (v : Value) : InternsTo B q v := by
  induction v using Value.induction_scalar q with
  | scalar v shape hshape =>
    intro n s handles hr h hl
    cases hr with
    | scalar hd hs =>
      obtain ⟨-, hnil, heq⟩ := intern_scalar hs
      rw [(heq s h.quantization).1, ← hd]
      exact Sound.resolve_found (by rw [hnil]; exact h) (h.lookup_iff.2 ⟨hl, rfl⟩)
    | seq _ _ _ => cases hshape
    | map _ _ _ => cases hshape
  | seq items ih =>
    intro n s handles hr h hl
    cases hr with
    | scalar _ hs => cases hs
    | @seq _ _ ns hd hs hns =>
      obtain ⟨s₁, h₁, hs₁⟩ := internItems_represented ih hns h fun c hc =>
        hl.child (by rw [hs]; exact hc)
      have hn : s₁.lookup (seqDigest ns) = some n := by
        rw [seqDigest_eq hns, ← hd]
        exact hs₁.lookup_iff.2 ⟨hl.mono (List.subset_append_right _ _), rfl⟩
      obtain ⟨s₂, h₂, hs₂⟩ := Sound.resolve_found (by rw [hs]; exact hs₁) hn
      exact ⟨s₂, by rw [intern, h₁, ← h₂, hs], hs₂⟩
  | map entries ih =>
    intro n s handles hr h hl
    cases hr with
    | scalar _ hs => cases hs
    | @map _ _ ns hd hs hns =>
      have hperm := keyed_children hns
      have hchild : ∀ c ∈ ns, Live handles c := fun c hc =>
        hl.child (by rw [hs]; exact hperm.mem_iff.2 hc)
      have hentries : ∀ v ∈ entries.map (·.2), InternsTo B q v := List.forall_mem_map.2 ih
      obtain ⟨s₁, h₁, hs₁⟩ := internItems_represented hentries hns h hchild
      have hs₁' : Sound B q s₁ (n.shape.children ++ handles) := by
        rw [hs]
        exact hs₁.perm (hperm.symm.append_right _)
      have hn : s₁.lookup (mapDigest (keyed entries ns)) = some n := by
        rw [mapDigest_eq hns, ← hd]
        exact hs₁'.lookup_iff.2 ⟨hl.mono (List.subset_append_right _ _), rfl⟩
      obtain ⟨s₂, h₂, hs₂⟩ := Sound.resolve_found hs₁' hn
      exact ⟨s₂, by rw [intern, internEntries_eq, h₁, ← h₂, hs]; rfl, hs₂⟩

end

end Store

end ConfigCompiler
