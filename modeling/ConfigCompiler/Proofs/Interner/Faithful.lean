import ConfigCompiler.Proofs.Interner.Levels

/-!
# Nodes read back

What is kept of a value are its floats as the policy leaves them and its maps in the order of their keys
(`Value.stored`). This is what the node of a value stands for (`Represents.toValue`), whichever value the node
was made for. Each node inside it is at a path of the value (`Represents.exists_path`), and what a map node has
under a key is the canonical node of what the source map has (`Represents.canonical`).
-/

namespace ConfigCompiler

namespace Value

mutual

/-- A value with its maps sorted by key and its floats as a policy leaves them. -/
def stored (q : Quantization) : Value → Value
  | null => null
  | bool b => bool b
  | int i => int i
  | float x => float (q.apply x)
  | str s => str s
  | seq items => seq (storedItems q items)
  | map entries => map (Entries.sorted (storedEntries q entries))

def storedItems (q : Quantization) : List Value → List Value
  | [] => []
  | v :: items => stored q v :: storedItems q items

def storedEntries (q : Quantization) : List (String × Value) → List (String × Value)
  | [] => []
  | (key, v) :: entries => (key, stored q v) :: storedEntries q entries

end

end Value

theorem Interned.at?_append_singleton (n : Interned) (path : List Part) (p : Part) :
    n.at? (path ++ [p]) = (n.at? path).bind (·.part? p) := by
  induction path generalizing n with
  | nil => simp [at?]
  | cons p' path ih => simp [at?, ih, Option.bind_assoc]

namespace Store

variable {B : List UInt8 → Prop} {q : Quantization} {s : Store} {handles : List Interned} {v : Value}
  {n m : Interned}

/-! ## The value of a node -/

theorem itemsToValues_stored {items : List Value} {ns : List Interned}
    (h : List.Forall₂ (fun w m => m.toValue = w.stored q) items ns) :
    Interned.itemsToValues ns = Value.storedItems q items := by
  induction h with
  | nil => rw [Interned.itemsToValues, Value.storedItems]
  | cons hv _ ih => rw [Interned.itemsToValues, Value.storedItems, hv, ih]

theorem entriesToValues_keyed {entries : Entries Value} {ns : List Interned}
    (h : List.Forall₂ (fun w m => m.toValue = w.stored q) (entries.map (·.2)) ns) :
    Interned.entriesToValues (keyed entries ns) = Entries.sorted (Value.storedEntries q entries) := by
  rw [Interned.entriesToValues_eq, keyed, sorted_map]
  congr 1
  induction entries generalizing ns with
  | nil => rw [Value.storedEntries]; rfl
  | cons e entries ih =>
    cases h with
    | cons hv hrest =>
      simp only [List.map_cons, List.zip_cons_cons, hv, Value.storedEntries]
      rw [ih hrest]

/-- A node gives back the values that it stands for, sorted and rounded. -/
theorem Represents.toValue (h : Represents q v n) : n.toValue = v.stored q := by
  induction v using Value.child_induction generalizing n with
  | h v ih =>
    obtain ⟨ns, hns, hshape⟩ := h.assemble
    have hvalues : List.Forall₂ (fun w m => m.toValue = w.stored q) v.children ns := by
      have hboth := (List.forall₂_and_left (p := (· ∈ v.children)) v.children ns).2 ⟨fun _ hw => hw, hns⟩
      exact hboth.imp fun w m hwm => ih w hwm.1 hwm.2
    obtain ⟨id, d, shape⟩ := n
    obtain rfl : shape = v.assemble q ns := hshape
    rw [Interned.toValue]
    cases v with
    | seq items =>
      rw [Value.assemble, Interned.shapeToValue, Value.stored]
      exact congrArg Value.seq (itemsToValues_stored hvalues)
    | map entries => rw [Value.assemble, Interned.shapeToValue, entriesToValues_keyed hvalues, Value.stored]
    | _ => rw [Value.assemble, Interned.shapeToValue, Value.stored]

/-! ## The nodes inside a node -/

theorem rel_imp {α β : Type} {R S : α → β → Prop} {x? : Option α} {y? : Option β} (h : Option.Rel R x? y?)
    (hRS : ∀ x y, y? = some y → R x y → S x y) : Option.Rel S x? y? := by
  cases h with
  | none => exact .none
  | some hr => exact .some (hRS _ _ rfl hr)

theorem Represents.eq_map (h : Represents q v n) {nodes : Entries Interned} (hs : n.shape = .map nodes) :
    ∃ entries, v = .map entries := by
  obtain ⟨ns, -, hshape⟩ := h.assemble
  rw [hs] at hshape
  cases v with
  | map entries => exact ⟨entries, rfl⟩
  | _ => cases hshape

/-- Each child of a node is one of its parts. -/
theorem Represents.exists_part? (h : Represents q v n) (hv : v.Proper) (hm : m ∈ n.shape.children) :
    ∃ p, n.part? p = some m := by
  cases h with
  | scalar _ hs =>
    rw [(intern_scalar hs).2.1] at hm
    cases hm
  | seq _ hs _ =>
    rw [hs] at hm
    obtain ⟨i, hi⟩ := List.getElem?_of_mem hm
    exact ⟨.item i, by rw [Interned.part?, hs]; exact hi⟩
  | map _ hs hns =>
    rw [hs] at hm
    obtain ⟨⟨key, m⟩, he, rfl⟩ := List.mem_map.1 hm
    refine ⟨.entry key, ?_⟩
    rw [Interned.part?, Interned.get?, hs]
    exact Entries.entry?_sorted ((zip_keys hns).symm ▸ hv.fits.2.1) ((Entries.sorted_perm _).mem_iff.1 he)

/-- Each node inside the node of a value is at a path. -/
theorem Represents.exists_path (h : Represents q v n) (hv : v.Proper) (hm : Live [n] m) :
    ∃ path, n.at? path = some m := by
  induction hm with
  | held hm => exact ⟨[], congrArg some (List.mem_singleton.1 hm).symm⟩
  | child _ hc ih =>
    obtain ⟨path, hpath⟩ := ih
    obtain ⟨w, -, hw, hr⟩ := exists_of_rel_right (h.at?_rel hv path) hpath
    obtain ⟨p, hp⟩ := hr.exists_part? hw hc
    exact ⟨path ++ [p], by rw [Interned.at?_append_singleton, hpath]; exact hp⟩

/-- A live node of a value is what the digest of the value finds and what the value is interned to. -/
theorem Represents.canonical (h : Represents q v n) (hs : Sound B q s handles) (hn : Live handles n) :
    s.lookup (v.digest q) = some n ∧ ∃ s', s.intern v = (s', .ok n) :=
  ⟨hs.lookup_iff.2 ⟨hn, h.digest⟩, (intern_represented v h hs hn).imp fun _ h => h.1⟩

end Store

namespace Client

open Store (Live Sound Represents rel_imp exists_of_rel exists_of_rel_right)

/--
In every state that a client can reach, interning a value fails only if two byte strings that were hashed so far
collide. Otherwise the node gives back the value, its maps sorted by key and its floats as the policy leaves
them, and so does the node at each path, down to all nodes inside. Where such a node is a map, the source has a
map at that path, and the node has under each key the canonical node of what this map has there, or nothing.
-/
theorem intern_faithful (q : Quantization) {ops : List Op} (hp : ∀ op ∈ ops, op.Proper) {v : Value}
    (hv : v.Proper) :
    let c := (start q).run ops
    (¬ Digest.Collides (· ∈ (c.step (.intern v)).hashed) → ∃ s n, c.store.intern v = (s, .ok n)) ∧
    ∀ {s n}, c.store.intern v = (s, .ok n) →
      n.toValue = v.stored q ∧
      (∀ path, Option.Rel (fun w m => m.toValue = w.stored q) (v.at? path) (n.at? path)) ∧
      (∀ {m}, Live [n] m → ∃ path, n.at? path = some m) ∧
      ∀ {path m nodes}, n.at? path = some m → m.shape = .map nodes →
        ∃ entries, v.at? path = some (.map entries) ∧ ∀ key,
          Option.Rel (fun w k => s.lookup (w.digest q) = some k ∧ ∃ s', s.intern w = (s', .ok k))
            (Entries.get? entries key) (m.get? key) := by
  intro c
  have hs : Sound (fun _ => True) q c.store c.handles := sound_run (sound_start _ q) hp fun _ _ => trivial
  refine ⟨(yields_run q hp hv).exists_ok, fun {s n} hr => ?_⟩
  obtain ⟨hs', hn⟩ := represents_of_intern hs hv hr
  refine ⟨hn.toValue, fun path => rel_imp (hn.at?_rel hv path) fun _ _ _ h => h.2.toValue, hn.exists_path hv,
    fun {path m nodes} hm hmap => ?_⟩
  obtain ⟨w, hw, hproper, hwm⟩ := exists_of_rel_right (hn.at?_rel hv path) hm
  obtain ⟨entries, rfl⟩ := hwm.eq_map hmap
  refine ⟨entries, hw, fun key => rel_imp (hwm.part?_rel hproper (.entry key)) fun u k hk h => ?_⟩
  -- the node under the key is live while the handle to the whole is held
  have hpart : m.part? (.entry key) = some k := hk
  have hlive : Live (n :: c.handles) k :=
    ((Live.held List.mem_cons_self).at? hm).child (Interned.mem_children_of_part? hpart)
  exact h.2.canonical hs' hlive

/-- Zeros of either sign, under keys that are not in order. -/
def zeroMap : Value := .map [("b", .float negativeZero), ("a", .float .zero)]

theorem proper_zeroMap : zeroMap.Proper := by
  simp [zeroMap, Value.Proper, Value.parts, Value.entryParts, Value.Fits]
  rintro key v (⟨rfl, -⟩ | ⟨rfl, -⟩) <;> decide

/-- What is hashed for the map, and for the zeros in it. -/
def zeroMapStrings : List (List UInt8) :=
  [(Value.float negativeZero).encoded (.epsilon .nan), zeroMap.encoded (.epsilon .nan)]

theorem hashed_zeroMap : zeroMap.Hashed (· ∈ zeroMapStrings) (.epsilon .nan) := by
  intro u hu
  simp only [zeroMap, Value.parts, Value.entryParts, List.append_nil, List.singleton_append, List.mem_cons,
    List.not_mem_nil, or_false] at hu
  rcases hu with rfl | rfl | rfl
  · exact List.mem_cons_of_mem _ (List.mem_singleton_self _)
  · exact List.mem_cons_self
  · exact List.mem_cons.2 (.inl (Value.encoded_float_congr zero_bytes))

theorem sorted_swapped {α : Type} (x y : α) : Entries.sorted [("b", x), ("a", y)] = [("a", y), ("b", x)] := by
  simp [Entries.sorted, List.mergeSort, List.MergeSort.Internal.splitInTwo]

theorem encoded_zeroMap : zeroMap.encoded (.epsilon .nan) =
    let d := (Value.float negativeZero).digest (.epsilon .nan)
    Digest.encode Digest.valueDomain (Digest.mapFields [("a", d), ("b", d)]) := by
  rw [Value.encoded, zeroMap, Value.fields, List.map_cons, List.map_singleton, sorted_swapped,
    Value.digest_float_congr zero_bytes]

theorem digest_zeroMap_ne : Digest.ofBytes ((Value.float negativeZero).encoded (.epsilon .nan)) ≠
    Digest.ofBytes (zeroMap.encoded (.epsilon .nan)) := by
  rw [encoded_zeroMap]
  simp only [Value.encoded, Value.fields, Value.digest, Digest.ofValueFields, Digest.ofFields_eq, Digest.ofBytes_eq]
  decide +kernel

theorem not_collides_zeroMapStrings : ¬ Digest.Collides (· ∈ zeroMapStrings) :=
  Digest.not_collides_of_nodup (by simp [zeroMapStrings, digest_zeroMap_ne])

theorem stored_zeroMap : zeroMap.stored (.epsilon .nan) = .map [("a", .float .zero), ("b", .float .zero)] := by
  have hzero : (Quantization.epsilon .nan).apply .zero = .zero := by decide
  have hnegative : (Quantization.epsilon .nan).apply negativeZero = .zero := by decide
  simp only [zeroMap, Value.stored, Value.storedEntries, sorted_swapped, hzero, hnegative]

/-- Both zeros come back as one node, which stands for the positive zero, and in order. -/
theorem intern_faithful_zeros :
    let ops := [Op.intern (.float negativeZero)]
    (∀ op ∈ ops, op.Proper) ∧ zeroMap.Proper ∧
      ∃ s n m, ((start (.epsilon .nan)).run ops).store.intern zeroMap = (s, .ok n) ∧
        n.toValue = .map [("a", .float .zero), ("b", .float .zero)] ∧
        n.get? "a" = some m ∧ n.get? "b" = some m ∧ n.get? "c" = none := by
  intro ops
  have hops : ∀ op ∈ ops, op.Proper := by simp [ops, Op.Proper, proper_float]
  obtain ⟨hok, hall⟩ := intern_faithful (.epsilon .nan) hops proper_zeroMap
  have hhashed : ∀ w, Op.intern w ∈ ops ++ [.intern zeroMap] →
      w.Proper ∧ w.Hashed (· ∈ zeroMapStrings) (.epsilon .nan) := by
    intro w hw
    simp only [ops, List.cons_append, List.nil_append, List.mem_cons, Op.intern.injEq, List.not_mem_nil,
      or_false] at hw
    rcases hw with rfl | rfl
    · exact ⟨proper_float _, hashed_zeroMap.entry List.mem_cons_self⟩
    · exact ⟨proper_zeroMap, hashed_zeroMap⟩
  have hsub := of_mem_hashed_run (sound_start _ (.epsilon .nan)) (by simp [start]) hhashed
  obtain ⟨s, n, hr⟩ := hok fun h => not_collides_zeroMapStrings (h.mono hsub)
  obtain ⟨hvalue, -, -, hmaps⟩ := hall hr
  have hs := sound_run (sound_start (fun _ => True) (.epsilon .nan)) hops fun _ _ => trivial
  obtain ⟨ns, -, hshape⟩ := (represents_of_intern hs proper_zeroMap hr).2.assemble
  obtain ⟨entries, hentries, hget⟩ := @hmaps [] n _ rfl hshape
  cases hentries
  obtain ⟨m, hm, hlookup, -⟩ := exists_of_rel (hget "a") (x := .float .zero) rfl
  obtain ⟨m', hm', hlookup', -⟩ := exists_of_rel (hget "b") (x := .float negativeZero) rfl
  rw [Value.digest_float_congr zero_bytes] at hlookup
  obtain rfl : m = m' := Option.some.inj (hlookup.symm.trans hlookup')
  have hnone : n.get? "c" = none := by
    refine Option.eq_none_iff_forall_ne_some.2 fun k hk => ?_
    obtain ⟨w, hw, -⟩ := exists_of_rel_right (hget "c") hk
    cases hw
  exact ⟨hops, proper_zeroMap, s, n, m, hr, hvalue.trans stored_zeroMap, hm, hm', hnone⟩

end Client

end ConfigCompiler
