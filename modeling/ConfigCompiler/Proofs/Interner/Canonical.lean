import ConfigCompiler.Proofs.Interner.Client
import ConfigCompiler.Proofs.Value.Same

/-!
# Equal values are one node

A node that represents a value represents all that are the same under the policy (`Represents.same`).

Whatever a client does, each live node is the one that is found by its digest (`Store.Canonical`), so a value
that is the same as one that a live node represents is interned to this node, and so are its occurrences in
other values (`Client.canonical`).
-/

namespace ConfigCompiler

namespace Value

/-! ## Parts of values -/

def part? (v : Value) : Part → Option Value
  | .item i =>
    match v with
    | .seq items => items[i]?
    | _ => none
  | .entry key =>
    match v with
    | .map entries => Entries.get? entries key
    | _ => none

/-- The value at the end of a path. -/
def at? (v : Value) : List Part → Option Value
  | [] => some v
  | p :: path => (v.part? p).bind (·.at? path)

end Value

namespace Store

open Value (Same)

variable {q : Quantization}

/-! ## Nodes that represent same values -/

theorem represents_items {items others : List Value} {ns : List Interned}
    (hitems : ∀ v ∈ items, ∀ {w n}, Represents q v n → Same q v w → Represents q w n)
    (hns : List.Forall₂ (Represents q) items ns) (hsame : List.Forall₂ (Same q) items others) :
    List.Forall₂ (Represents q) others ns := by
  induction hns generalizing others with
  | nil =>
    cases hsame
    exact .nil
  | cons hv _ ih =>
    cases hsame with
    | cons hs hrest =>
      exact .cons (hitems _ List.mem_cons_self hv hs)
        (ih (fun v hm => hitems v (List.mem_cons_of_mem _ hm)) hrest)

theorem exists_zip_perm {α : Type} {R : Value → α → Prop} {entries ordered : Entries Value}
    (hp : entries.Perm ordered) {ns : List α} (h : List.Forall₂ R (entries.map (·.2)) ns) :
    ∃ ns', List.Forall₂ R (ordered.map (·.2)) ns' ∧
      ((entries.map (·.1)).zip ns).Perm ((ordered.map (·.1)).zip ns') := by
  induction hp generalizing ns with
  | nil => exact ⟨ns, h, .refl _⟩
  | cons e _ ih =>
    cases h with
    | cons hv hrest =>
      obtain ⟨ns', h', hp'⟩ := ih hrest
      exact ⟨_, .cons hv h', hp'.cons _⟩
  | swap e f entries =>
    cases h with
    | cons hv hrest =>
      cases hrest with
      | cons hv' hrest => exact ⟨_, .cons hv' (.cons hv hrest), .swap _ _ _⟩
  | trans _ _ ih₁ ih₂ =>
    obtain ⟨ns₁, h₁, hp₁⟩ := ih₁ h
    obtain ⟨ns₂, h₂, hp₂⟩ := ih₂ h₁
    exact ⟨ns₂, h₂, hp₁.trans hp₂⟩

theorem zip_keys {R : Value → Interned → Prop} {entries : Entries Value} {ns : List Interned}
    (h : List.Forall₂ R (entries.map (·.2)) ns) :
    ((entries.map (·.1)).zip ns).map (·.1) = entries.map (·.1) := by
  have hlen := h.length_eq
  rw [List.length_map] at hlen
  exact List.map_fst_zip (by rw [List.length_map]; exact Nat.le_of_eq hlen)

/-- Another order of the entries has the same nodes under the same keys. -/
theorem exists_keyed_eq {R : Value → Interned → Prop} {entries ordered : Entries Value}
    (hn : (entries.map (·.1)).Nodup) (hp : entries.Perm ordered) {ns : List Interned}
    (h : List.Forall₂ R (entries.map (·.2)) ns) :
    ∃ ns', List.Forall₂ R (ordered.map (·.2)) ns' ∧ keyed entries ns = keyed ordered ns' := by
  obtain ⟨ns', h', hp'⟩ := exists_zip_perm hp h
  exact ⟨ns', h', Entries.sorted_congr ((zip_keys h).symm ▸ hn) hp'⟩

/-- A node that represents a value represents all that are the same. -/
theorem Represents.same {v w : Value} {n : Interned} (hr : Represents q v n) (hv : v.Proper)
    (hsame : Same q v w) : Represents q w n := by
  induction v using Value.induction_scalar q generalizing w n with
  | scalar v shape hshape =>
    cases hr with
    | scalar hd hs =>
      cases hsame with
      | float hx =>
        refine .scalar (hd.trans (Value.digest_float_congr hx.bytes_eq)) ?_
        rw [Value.scalar?, ← hs, Value.scalar?, Value.apply_congr hx.bytes_eq]
      | seq _ => cases hshape
      | map _ _ _ => cases hshape
      | _ => exact .scalar hd hs
    | seq _ _ _ => cases hshape
    | map _ _ _ => cases hshape
  | seq items ih =>
    cases hr with
    | scalar _ hs => cases hs
    | @seq _ _ ns hd hs hns =>
      cases hsame with
      | @seq _ others hitems =>
        have hns' := represents_items (fun v hm _ _ hr => ih v hm hr (hv.item hm)) hns hitems
        refine .seq ?_ hs hns'
        rw [hd, ← seqDigest_eq hns, seqDigest_eq hns']
  | map entries ih =>
    cases hr with
    | scalar _ hs => cases hs
    | @map _ _ ns hd hs hns =>
      cases hsame with
      | @map _ ordered others hp hkeys hvalues =>
        obtain ⟨ns', hns', hkeyed⟩ := exists_keyed_eq hv.fits.2.1 hp hns
        have hothers : List.Forall₂ (Represents q) (others.map (·.2)) ns' := by
          refine represents_items (fun v hm _ _ hr => ?_) hns' hvalues
          obtain ⟨e, he, rfl⟩ := List.mem_map.1 hm
          exact ih e (hp.mem_iff.2 he) hr (hv.entry (hp.mem_iff.2 he))
        have hkeyed' : keyed entries ns = keyed others ns' := by rw [hkeyed, keyed, keyed, hkeys]
        refine .map ?_ (hkeyed' ▸ hs) hothers
        rw [hd, ← mapDigest_eq hns, hkeyed', mapDigest_eq hothers]

/-! ## Nodes of parts -/

section
variable {α β : Type} {R : α → β → Prop}

theorem exists_of_rel {x? : Option α} {y? : Option β} (h : Option.Rel R x? y?) {x : α} (hx : x? = some x) :
    ∃ y, y? = some y ∧ R x y := by
  subst hx
  cases h with
  | some hr => exact ⟨_, rfl, hr⟩

theorem exists_of_rel_right {x? : Option α} {y? : Option β} (h : Option.Rel R x? y?) {y : β}
    (hy : y? = some y) : ∃ x, x? = some x ∧ R x y := by
  subst hy
  cases h with
  | some hr => exact ⟨_, rfl, hr⟩

theorem getElem?_rel {items : List α} {ns : List β} (h : List.Forall₂ R items ns) (i : Nat) :
    Option.Rel R items[i]? ns[i]? := by
  induction h generalizing i with
  | nil => exact .none
  | cons hr _ ih =>
    cases i with
    | zero => exact .some hr
    | succ i => exact ih i

theorem exists_getElem? {items : List α} {ns : List β} (h : List.Forall₂ R items ns) {i : Nat} {v : α}
    (hv : items[i]? = some v) : ∃ n, ns[i]? = some n ∧ R v n := exists_of_rel (getElem?_rel h i) hv

theorem lookup_zip_rel {entries : Entries α} {ns : List β} (h : List.Forall₂ R (entries.map (·.2)) ns)
    (key : String) : Option.Rel R (List.lookup key entries) (List.lookup key ((entries.map (·.1)).zip ns)) := by
  induction entries generalizing ns with
  | nil => exact .none
  | cons e entries ih =>
    cases h with
    | cons hr hrest =>
      rw [List.map_cons, List.zip_cons_cons, List.lookup_cons, List.lookup_cons]
      cases key == e.1 with
      | true => exact .some hr
      | false => exact ih hrest

end

/-- A node has a part where the value has one, and the part of the node is for that of the value. -/
theorem Represents.part?_rel {v : Value} {n : Interned} (hr : Represents q v n) (hv : v.Proper) (p : Part) :
    Option.Rel (fun w m => w.Proper ∧ Represents q w m) (v.part? p) (n.part? p) := by
  cases hr with
  | scalar _ hs =>
    obtain ⟨id, d, shape⟩ := n
    cases v with
    | seq _ => cases hs
    | map _ => cases hs
    | _ =>
      cases hs
      cases p <;> exact .none
  | @seq items _ ns _ hs hns =>
    have hitems := (List.forall₂_and_left (p := Value.Proper) items ns).2 ⟨fun _ => hv.item, hns⟩
    cases p with
    | item i =>
      rw [Interned.part?, hs]
      exact getElem?_rel hitems i
    | entry key =>
      rw [Interned.part?, Interned.get?, hs]
      exact .none
  | @map entries _ ns _ hs hns =>
    have hvalues := (List.forall₂_and_left (p := Value.Proper) _ ns).2
      ⟨List.forall_mem_map.2 fun e he => hv.entry he, hns⟩
    cases p with
    | item i =>
      rw [Interned.part?, hs]
      exact .none
    | entry key =>
      rw [Interned.part?, Interned.get?, hs]
      simp only [keyed]
      rw [Entries.entry?_sorted_eq_lookup ((zip_keys hns).symm ▸ hv.fits.2.1)]
      exact lookup_zip_rel hvalues key

theorem Represents.at?_rel {v : Value} {n : Interned} (hr : Represents q v n) (hv : v.Proper)
    (path : List Part) : Option.Rel (fun w m => w.Proper ∧ Represents q w m) (v.at? path) (n.at? path) := by
  induction path generalizing v n with
  | nil => exact .some ⟨hv, hr⟩
  | cons p path ih =>
    have hp := hr.part?_rel hv p
    rw [Value.at?, Interned.at?]
    generalize v.part? p = w?, n.part? p = m? at hp
    cases hp with
    | none => exact .none
    | some h => exact ih h.2 h.1

theorem Represents.at? {v w : Value} {n : Interned} (hr : Represents q v n) (hv : v.Proper)
    {path : List Part} (hp : v.at? path = some w) :
    ∃ m, n.at? path = some m ∧ Represents q w m ∧ w.Proper := by
  obtain ⟨m, hm, hw, hrm⟩ := exists_of_rel (hr.at?_rel hv path) hp
  exact ⟨m, hm, hrm, hw⟩

/-! ## Canonical nodes -/

/-- Each node that handles keep is live and the one that is found by its digest, and no other is live. -/
structure Canonical (s : Store) (handles : List Interned) : Prop where
  slot : ∀ {n}, Live handles n → s.table[n.digest]? = some n
  alive : ∀ {n}, Live handles n → s.isLive n = true
  children : ∀ {n c}, Live handles n → c ∈ n.shape.children → s.isLive c = true
  kept : ∀ {id}, s.holders.contains id = true → ∃ n, Live handles n ∧ n.id = id
  same : ∀ {n m}, Live handles n → Live handles m → n.digest = m.digest → n = m
  id : ∀ {n m}, Live handles n → Live handles m → n.id = m.id → n = m

theorem Sound.canonical {B : List UInt8 → Prop} {s : Store} {handles : List Interned}
    (h : Sound B q s handles) : Canonical s handles := by
  obtain ⟨live, h⟩ := h
  have hlive {n : Interned} (hn : Live handles n) : s.isLive n = true :=
    h.contains.2 ⟨n, h.mem_iff.2 hn, rfl⟩
  exact
    { slot := fun hn => h.slot (h.mem_iff.2 hn)
      alive := hlive
      children := fun hn hc => hlive (hn.child hc)
      kept := fun hid => by
        obtain ⟨n, hn, hid⟩ := h.contains.1 hid
        exact ⟨n, h.mem_iff.1 hn, hid⟩
      same := fun hn hm => h.eq_of_digest (h.mem_iff.2 hn) (h.mem_iff.2 hm)
      id := fun hn hm => h.eq_of_id (h.mem_iff.2 hn) (h.mem_iff.2 hm) }

end Store

namespace Client

open Store (Live Sound Represents)

/-- A value that was interned is represented by the node that it was interned to. -/
theorem represents_of_intern {q : Quantization} {s s' : Store} {handles : List Interned} {v : Value}
    {n : Interned} (h : Sound (fun _ => True) q s handles) (hv : v.Proper)
    (hr : s.intern v = (s', .ok n)) :
    Sound (fun _ => True) q s' (n :: handles) ∧ Represents q v n := by
  have hy := Store.intern_yields hv h fun _ _ => trivial
  rw [hr] at hy
  cases hy with
  | ok hs hn => exact ⟨hs, hn⟩

/--
In every state that a client can reach, each live node is the one that is found by its digest. So when a
value has been interned and the node of one of its parts is still live later on, whatever was done meanwhile,
this node is what interning the same value yields then, and the same value inside a larger one gets this
node too.
-/
theorem canonical_run (q : Quantization) {ops : List Op} (hp : ∀ op ∈ ops, op.Proper) :
    let c := (start q).run ops
    Store.Canonical c.store c.handles ∧
    ∀ {v : Value} {s n}, v.Proper → c.store.intern v = (s, .ok n) →
      ∀ {later : List Op}, (∀ op ∈ later, op.Proper) →
      let c' := (c.step (.intern v)).run later
      ∀ {path part}, v.at? path = some part → ∃ m, n.at? path = some m ∧
        (Live c'.handles m → ∀ {same}, Value.Same q part same →
          (∃ s', c'.store.intern same = (s', .ok m)) ∧
          ∀ {w : Value} {s' k path'}, w.Proper → w.at? path' = some same →
            c'.store.intern w = (s', .ok k) → k.at? path' = some m) := by
  intro c
  have hc : Sound (fun _ => True) q c.store c.handles := sound_run (sound_start _ q) hp fun _ _ => trivial
  refine ⟨hc.canonical, ?_⟩
  intro v s n hv hr later hlater c' path part hpath
  have hs : Sound (fun _ => True) q c'.store c'.handles :=
    sound_run (sound_intern hc hv fun _ _ => trivial) hlater fun _ _ => trivial
  obtain ⟨-, hn⟩ := represents_of_intern hc hv hr
  obtain ⟨m, hm, hrm, hpart⟩ := hn.at? hv hpath
  refine ⟨m, hm, fun hlive same hsame => ?_⟩
  have hrs : Represents q same m := hrm.same hpart hsame
  refine ⟨(Store.intern_represented same hrs hs hlive).imp fun _ h => h.1, ?_⟩
  intro w s' k path' hw hpath' hk
  obtain ⟨hs', hrk⟩ := represents_of_intern hs hw hk
  obtain ⟨m', hm', hrm', -⟩ := hrk.at? hw hpath'
  -- both nodes are live when the larger value has been interned, and have one digest
  have hlive' : Live (k :: c'.handles) m' := (Live.held List.mem_cons_self).at? hm'
  have hmm : m' = m := hs'.canonical.same hlive' (hlive.mono (List.subset_cons_self _ _))
    (hrm'.digest.trans hrs.digest.symm)
  rw [hm', hmm]

/-- A zero keeps its node when the sequence that it came in is gone, for both signs and in new sequences. -/
theorem canonical_run_zero :
    (Value.seq [.float negativeZero]).Proper ∧
      Value.Same (.epsilon .nan) (.float negativeZero) (.float .zero) ∧
      ∃ s n m, (start (.epsilon .nan)).store.intern (.seq [.float negativeZero]) = (s, .ok n) ∧
        n.at? [.item 0] = some m ∧
        let c := ((start (.epsilon .nan)).step (.intern (.seq [.float negativeZero]))).run
          [.get 0 [.item 0], .drop 1]
        c.handles = [m] ∧ (∃ s', c.store.intern (.float .zero) = (s', .ok m)) ∧
          ∃ s' k, c.store.intern (.seq [.float .zero]) = (s', .ok k) ∧ k.at? [.item 0] = some m := by
  have hv := proper_seq_float negativeZero
  have hsame : Value.Same (.epsilon .nan) (.float negativeZero) (.float .zero) :=
    .float ⟨by decide, fun _ => by decide⟩
  have hlater : ∀ op ∈ [Op.get 0 [.item 0], .drop 1], op.Proper := by simp [Op.Proper]
  obtain ⟨s, n, hr, -, -⟩ := Store.intern_ok not_collides_zeroStrings hv (hashed_seq_float rfl)
    (sound_start _ (.epsilon .nan))
  have hnone : ∀ op ∈ ([] : List Op), op.Proper := by simp
  have hpath : (Value.seq [.float negativeZero]).at? [.item 0] = some (.float negativeZero) := rfl
  have hpath' : (Value.seq [.float .zero]).at? [.item 0] = some (.float .zero) := rfl
  obtain ⟨m, hm, hall⟩ := (canonical_run (.epsilon .nan) hnone).2 hv hr hlater hpath
  have hhandles : (((start (.epsilon .nan)).step (.intern (.seq [.float negativeZero]))).run
      [.get 0 [.item 0], .drop 1]).handles = [m] := by
    rw [step_intern_ok hr]
    simp [run, step, start, keep, hm]
  obtain ⟨hzero, hlarger⟩ := hall (hhandles ▸ .held (List.mem_singleton_self m)) hsame
  -- nothing collides, so the new sequence is interned
  have hops : ∀ v, Op.intern v ∈ [Op.intern (.seq [.float negativeZero]), .get 0 [.item 0], .drop 1] →
      v.Proper ∧ v.Hashed (· ∈ zeroStrings) (.epsilon .nan) := by
    intro v hmem
    obtain rfl : v = .seq [.float negativeZero] := by simpa using hmem
    exact ⟨hv, hashed_seq_float rfl⟩
  have hproper : ∀ op ∈ [Op.intern (.seq [.float negativeZero]), .get 0 [.item 0], .drop 1],
      op.Proper := by simp [Op.Proper, hv]
  have hsound := sound_run (sound_start (· ∈ zeroStrings) (.epsilon .nan)) hproper
    (of_mem_hashed_run (sound_start _ _) (by simp [start]) hops)
  obtain ⟨s', k, hk, -, -⟩ := Store.intern_ok not_collides_zeroStrings (proper_seq_float .zero)
    (hashed_seq_float zero_bytes) hsound
  exact ⟨hv, hsame, s, n, m, hr, hm, hhandles, hzero, s', k, hk,
    hlarger (proper_seq_float .zero) hpath' hk⟩

end Client

end ConfigCompiler
