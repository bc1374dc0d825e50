import ConfigCompiler.Proofs.Interner.Liveness

/-!
# Interning level by level

Every value is interned in the same way: its children one after the other (`Value.children`), then the shape
that their nodes give it (`Value.assemble`). What can happen at one level is listed once (`intern_level`), and
so is what can happen along the children (`internItems_turn`). What is counted when a shape is resolved depends
on what its digest finds (`resolve_tally`).
-/

namespace ConfigCompiler

namespace Value

/-! ## Children -/

/-- The values one level below. -/
def children : Value → List Value
  | seq items => items
  | map entries => entries.map (·.2)
  | _ => []

/-- The shape of a node for a value, given nodes for its children. -/
def assemble (q : Quantization) (v : Value) (ns : List Interned) : Shape Interned :=
  match v with
  | null => .null
  | bool b => .bool b
  | int i => .int i
  | float x => .float (q.apply x)
  | str t => .str t
  | seq _ => .seq ns
  | map entries => .map (Store.keyed entries ns)

/-- Induction with a hypothesis for every child. -/
theorem child_induction {P : Value → Prop} (h : ∀ v : Value, (∀ c ∈ v.children, P c) → P v) (v : Value) :
    P v := by
  have scalar (v : Value) (hv : v.children = []) : P v := h v (by simp [hv])
  exact v.induction (scalar _ rfl) (fun _ => scalar _ rfl) (fun _ => scalar _ rfl) (fun _ => scalar _ rfl)
    (fun _ => scalar _ rfl) (fun items hi => h (seq items) hi)
    (fun entries he => h (map entries) (List.forall_mem_map.2 he))

theorem parts_eq (v : Value) : v.parts = v :: v.children.flatMap parts := by
  cases v with
  | seq items => rw [parts, itemParts_eq_flatMap, children]
  | map entries => rw [parts, entryParts_eq_flatMap, children, List.flatMap_map]
  | _ => simp [parts, children]

theorem mem_parts_of_child {u v c : Value} (hu : u ∈ v.parts) (hc : c ∈ u.children) : c ∈ v.parts := by
  induction v using child_induction with
  | h v ih =>
    rw [parts_eq] at hu ⊢
    refine List.mem_cons_of_mem _ (List.mem_flatMap.2 ?_)
    rcases List.mem_cons.1 hu with rfl | hu
    · exact ⟨c, hc, c.self_mem_parts⟩
    · obtain ⟨w, hw, hu⟩ := List.mem_flatMap.1 hu
      exact ⟨w, hw, ih w hw hu⟩

theorem Proper.child {v c : Value} (h : v.Proper) (hc : c ∈ v.children) : c.Proper := fun u hu => h u <| by
  rw [parts_eq]
  exact List.mem_cons_of_mem _ (List.mem_flatMap.2 ⟨c, hc, hu⟩)

end Value

namespace Store

variable {q : Quantization} {s s' : Store} {handles : List Interned} {v : Value} {ns : List Interned}

/-! ## Nodes of a level -/

/-- A node for a value has the shape that nodes for its children give it. -/
theorem Represents.assemble {n : Interned} (h : Represents q v n) :
    ∃ ns, List.Forall₂ (Represents q) v.children ns ∧ n.shape = v.assemble q ns := by
  cases h with
  | scalar _ hs =>
    cases v with
    | seq items => cases hs
    | map entries => cases hs
    | _ => exact ⟨[], .nil, (Option.some.inj hs).symm⟩
  | seq hd hs hns => exact ⟨_, hns, hs⟩
  | map hd hs hns => exact ⟨_, hns, hs⟩

theorem assemble_children (hns : List.Forall₂ (Represents q) v.children ns) :
    (v.assemble q ns).children.Perm ns := by
  cases v with
  | seq items => exact .refl _
  | map entries => exact keyed_children hns
  | _ => cases hns; exact .nil

theorem backed_assemble (hv : v.Fits) (hns : List.Forall₂ (Represents q) v.children ns) :
    Backed (fun _ => True) q (v.digest q) (v.assemble q ns) := by
  cases v with
  | seq items => exact backed_of_encoded (seq_fields hns ▸ .seq ns) hv trivial
  | map entries => exact backed_of_encoded (map_fields hns ▸ .map _) hv trivial
  | _ => exact backed_of_encoded (by constructor) hv trivial

/-! ## Nodes below a node -/

theorem Live.trans {n m : Interned} (h : Live [n] m) (hn : Live handles n) : Live handles m := by
  induction h with
  | held hm => exact List.mem_singleton.1 hm ▸ hn
  | child _ hc ih => exact ih.child hc

theorem live_iff_exists {m : Interned} : Live ns m ↔ ∃ n ∈ ns, Live [n] m := by
  constructor
  · intro h
    induction h with
    | @held n hn => exact ⟨n, hn, .held (List.mem_singleton_self n)⟩
    | child _ hc ih => exact ih.imp fun _ h => ⟨h.1, h.2.child hc⟩
  · rintro ⟨n, hn, h⟩
    exact h.trans (.held hn)

theorem not_live_nil {n : Interned} : ¬ Live [] n := fun h => by
  obtain ⟨m, hm, -⟩ := live_iff_exists.1 h
  cases hm

theorem live_append {ms : List Interned} {m : Interned} :
    Live (ns ++ ms) m ↔ Live ns m ∨ Live ms m := by
  rw [live_iff_exists, @live_iff_exists ns, @live_iff_exists ms]
  simp only [List.mem_append, or_and_right, exists_or]

/-- Each part of a value has its node inside the node of the value. -/
theorem Represents.exists_node {n : Interned} (h : Represents q v n) {u : Value} (hu : u ∈ v.parts) :
    ∃ m, Live [n] m ∧ Represents q u m := by
  induction v using Value.child_induction generalizing n with
  | h v ih =>
    rw [Value.parts_eq] at hu
    rcases List.mem_cons.1 hu with rfl | hu
    · exact ⟨n, .held (List.mem_singleton_self n), h⟩
    · obtain ⟨c, hc, hu⟩ := List.mem_flatMap.1 hu
      obtain ⟨ns, hns, hshape⟩ := h.assemble
      obtain ⟨i, hi⟩ := List.getElem?_of_mem hc
      obtain ⟨k, hk, hck⟩ := exists_getElem? hns hi
      obtain ⟨m, hm, hum⟩ := ih c hc hck hu
      have hchild : k ∈ n.shape.children := by
        rw [hshape]
        exact (assemble_children hns).mem_iff.2 (List.mem_of_getElem? hk)
      exact ⟨m, hm.trans ((Live.held (List.mem_singleton_self n)).child hchild), hum⟩

/-- Each node inside the node of a value is the node of a part. -/
theorem Represents.exists_part {n m : Interned} (h : Represents q v n) (hm : Live [n] m) :
    ∃ u ∈ v.parts, Represents q u m := by
  induction hm with
  | held hm => exact ⟨v, v.self_mem_parts, List.mem_singleton.1 hm ▸ h⟩
  | @child k c _ hc ih =>
    obtain ⟨u, hu, hr⟩ := ih
    obtain ⟨ns, hns, hshape⟩ := hr.assemble
    rw [hshape] at hc
    obtain ⟨i, hi⟩ := List.getElem?_of_mem ((assemble_children hns).mem_iff.1 hc)
    obtain ⟨w, hw, hwc⟩ := exists_getElem? hns.flip hi
    exact ⟨w, Value.mem_parts_of_child hu (List.mem_of_getElem? hw), hwc⟩

/-! ## Levels -/

theorem intern_error {e : IntegrityError} (hr : s.internItems v.children = (s', .error e)) :
    s.intern v = (s', .error e) := by
  cases v with
  | seq items => rw [intern, show s.internItems items = _ from hr]
  | map entries =>
    rw [intern, internEntries_eq, show s.internItems (entries.map (·.2)) = _ from hr]
    rfl
  | _ => simp [Value.children, internItems] at hr

theorem intern_resolve (hq : s.quantization = q) (hr : s.internItems v.children = (s', .ok ns))
    (hns : List.Forall₂ (Represents q) v.children ns) :
    s.intern v = s'.resolve (v.digest q) (v.assemble q ns) := by
  subst hq
  cases v with
  | seq items =>
    have hitems : List.Forall₂ (Represents s.quantization) items ns := hns
    rw [intern, show s.internItems items = _ from hr, ← seqDigest_eq hitems]
    rfl
  | map entries =>
    rw [intern, internEntries_eq, show s.internItems (entries.map (·.2)) = _ from hr, ← mapDigest_eq hns]
    rfl
  | _ =>
    obtain ⟨rfl, rfl⟩ : s = s' ∧ [] = ns := by simpa [Value.children, internItems] using hr
    rw [intern, Value.digest]
    rfl

theorem sweeps_error {e : IntegrityError} (hr : s.internItems v.children = (s', .error e)) :
    s.sweeps handles v = s.sweepsItems handles v.children := by
  cases v with
  | seq items =>
    rw [sweeps, show s.internItems items = _ from hr]
    exact List.append_nil _
  | map entries =>
    rw [sweeps, internEntries_eq, sweepsEntries_eq, show s.internItems (entries.map (·.2)) = _ from hr]
    exact List.append_nil _
  | _ => simp [Value.children, internItems] at hr

theorem sweeps_resolve (hq : s.quantization = q) (hr : s.internItems v.children = (s', .ok ns))
    (hns : List.Forall₂ (Represents q) v.children ns) : s.sweeps handles v =
      s.sweepsItems handles v.children ++ s'.resolveSweeps handles (v.digest q) (v.assemble q ns) := by
  subst hq
  cases v with
  | seq items =>
    have hitems : List.Forall₂ (Represents s.quantization) items ns := hns
    rw [sweeps, show s.internItems items = _ from hr, ← seqDigest_eq hitems]
    rfl
  | map entries =>
    rw [sweeps, internEntries_eq, sweepsEntries_eq, show s.internItems (entries.map (·.2)) = _ from hr,
      ← mapDigest_eq hns]
    rfl
  | _ =>
    obtain ⟨rfl, rfl⟩ : s = s' ∧ [] = ns := by simpa [Value.children, internItems] using hr
    rw [sweeps, Value.digest]
    simp [Value.children, sweepsItems, Value.assemble]

/-- What can happen when a value is interned: a child fails, or the shape of the value is resolved. -/
inductive Level (q : Quantization) (handles : List Interned) (s : Store) (v : Value) :
    Store × Except IntegrityError Interned → Prop
  | failed {s' : Store} {e : IntegrityError} :
      s.internItems v.children = (s', .error e) → Level q handles s v (s', .error e)
  | resolved {s' : Store} {ns : List Interned} :
      s.internItems v.children = (s', .ok ns) → List.Forall₂ (Represents q) v.children ns →
      Sound (fun _ => True) q s' ((v.assemble q ns).children ++ handles) →
      Level q handles s v (s'.resolve (v.digest q) (v.assemble q ns))

theorem intern_level (hv : v.Proper) (h : Sound (fun _ => True) q s handles) :
    Level q handles s v (s.intern v) := by
  have hy := internItems_yields (fun c hc => intern_yields (hv.child hc)) h fun _ _ => trivial
  cases hr : s.internItems v.children with | mk s' r =>
  rw [hr] at hy
  cases hy with
  | error hs _ =>
    rw [intern_error hr]
    exact .failed hr
  | ok hs hns =>
    rw [intern_resolve h.quantization hr hns]
    exact .resolved hr hns (hs.perm ((assemble_children hns).symm.append_right _))

/-- What can happen when a value and others after it are interned. -/
inductive Turn (q : Quantization) (handles : List Interned) (s : Store) (v : Value) (vs : List Value) :
    Store × Except IntegrityError (List Interned) → Prop
  | first {s₁ : Store} {e : IntegrityError} :
      s.intern v = (s₁, .error e) → Turn q handles s v vs (s₁, .error e)
  | later {s₁ s₂ : Store} {n : Interned} {e : IntegrityError} :
      s.intern v = (s₁, .ok n) → Sound (fun _ => True) q s₁ (n :: handles) →
      s₁.internItems vs = (s₂, .error e) → Turn q handles s v vs (s₂.release n, .error e)
  | all {s₁ s₂ : Store} {n : Interned} {ns : List Interned} :
      s.intern v = (s₁, .ok n) → Sound (fun _ => True) q s₁ (n :: handles) → Represents q v n →
      s₁.internItems vs = (s₂, .ok ns) → Turn q handles s v vs (s₂, .ok (n :: ns))

theorem internItems_turn {vs : List Value} (hv : v.Proper) (h : Sound (fun _ => True) q s handles) :
    Turn q handles s v vs (s.internItems (v :: vs)) := by
  have hy := intern_yields hv h fun _ _ => trivial
  rw [internItems]
  cases hr : s.intern v with | mk s₁ r =>
  rw [hr] at hy
  cases hy with
  | error hs _ => exact .first hr
  | ok hs hn =>
    simp only
    cases hr' : s₁.internItems vs with | mk s₂ r' =>
    cases r' with
    | error e => exact .later hr hs hr'
    | ok ns => exact .all hr hs hn hr'

/-! ## Counts -/

/-- The counts of a store that no sweep changes. -/
structure Tally where
  created : Nat
  calls : Nat
  hits : Nat
  bytesSaved : Nat

def tally (s : Store) : Tally := ⟨s.nextId, s.calls, s.hits, s.bytesSaved⟩

@[simp] theorem tally_retain (s : Store) (n : Interned) : (s.retain n).tally = s.tally := rfl

@[simp] theorem tally_release (s : Store) (n : Interned) : (s.release n).tally = s.tally := by
  rw [release_frame]
  rfl

@[simp] theorem tally_releaseAll (s : Store) (ns : List Interned) : (s.releaseAll ns).tally = s.tally := by
  rw [releaseAll_frame]
  rfl

@[simp] theorem tally_sweep (s : Store) : s.sweep.1.tally = s.tally := rfl

/-- What a shape is resolved to and what is counted then, given the node that a lookup finds. -/
def Tally.resolve (t : Tally) (found? : Option Interned) (d : Digest) (shape : Shape Interned) :
    Tally × Except IntegrityError Interned :=
  match found? with
  | some n =>
    if n.shape.matches? Interned.same shape then
      (⟨t.created, t.calls + 1, t.hits + 1, t.bytesSaved + shape.shallowSize⟩, .ok n)
    else (⟨t.created, t.calls + 1, t.hits, t.bytesSaved⟩, .error ⟨n.digest, n.kind, shape.kind⟩)
  | none => (⟨t.created + 1, t.calls + 1, t.hits, t.bytesSaved⟩, .ok (.node t.created d shape))

theorem resolve_tally (s : Store) (d : Digest) (shape : Shape Interned) :
    ((s.resolve d shape).1.tally, (s.resolve d shape).2) = s.tally.resolve (s.lookup d) d shape := by
  have hl : Store.lookup { s with calls := s.calls + 1 } d = s.lookup d := rfl
  simp only [Store.resolve, hl]
  cases s.lookup d with
  | some n =>
    simp only [reuse, Tally.resolve]
    split <;> rw [tally_releaseAll] <;> rfl
  | none =>
    simp only [create_eq, Tally.resolve]
    split <;> rfl

end Store

end ConfigCompiler
