import ConfigCompiler.Value.Digest
import ConfigCompiler.Proofs.Digest.Encoding
import ConfigCompiler.Proofs.Value.Entries

/-!
# What a digest tells about a value

Each level of a value is hashed over the digests of the level below (`Value.encoded`). Without collisions
among what is hashed, values of one digest are alike at their top level, and their children have the same
digests (`Value.digest_inj`, `Value.Alike`); the entries of a map may stand in any order.
-/

namespace ConfigCompiler

namespace Value

/-! ## Parts -/

/-- Induction with a hypothesis for every item and for every entry. -/
theorem induction {P : Value → Prop} (null : P .null) (bool : ∀ b, P (.bool b))
    (int : ∀ i, P (.int i)) (float : ∀ x, P (.float x)) (str : ∀ s, P (.str s))
    (seq : ∀ items, (∀ v ∈ items, P v) → P (.seq items))
    (map : ∀ entries, (∀ e ∈ entries, P e.2) → P (.map entries)) (v : Value) : P v := by
  refine v.rec (motive_1 := P) (motive_2 := fun items => ∀ v ∈ items, P v)
    (motive_3 := fun entries => ∀ e ∈ entries, P e.2) (motive_4 := fun e => P e.2)
    null bool int float str seq map ?_ ?_ ?_ ?_ ?_
  · simp
  · intro v items hv hitems w hw
    rcases List.mem_cons.1 hw with rfl | hw
    · exact hv
    · exact hitems w hw
  · simp
  · intro e entries he hentries f hf
    rcases List.mem_cons.1 hf with rfl | hf
    · exact he
    · exact hentries f hf
  · exact fun _ _ h => h

mutual

/-- A value and all values inside it. -/
def parts : Value → List Value
  | null => [null]
  | bool b => [bool b]
  | int i => [int i]
  | float x => [float x]
  | str s => [str s]
  | seq items => seq items :: itemParts items
  | map entries => map entries :: entryParts entries

def itemParts : List Value → List Value
  | [] => []
  | v :: items => parts v ++ itemParts items

def entryParts : List (String × Value) → List Value
  | [] => []
  | (_, v) :: entries => parts v ++ entryParts entries

end

theorem itemParts_eq_flatMap (items : List Value) : itemParts items = items.flatMap parts := by
  induction items with
  | nil => simp [itemParts]
  | cons v items ih => simp [itemParts, ih]

theorem entryParts_eq_flatMap (entries : Entries Value) :
    entryParts entries = entries.flatMap fun e => parts e.2 := by
  induction entries with
  | nil => simp [entryParts]
  | cons e entries ih => simp [entryParts, ih]

theorem self_mem_parts (v : Value) : v ∈ v.parts := by
  cases v <;> simp [parts]

theorem mem_parts_seq {items : List Value} {u : Value} :
    u ∈ (seq items).parts ↔ u = seq items ∨ ∃ v ∈ items, u ∈ v.parts := by
  rw [parts, itemParts_eq_flatMap, List.mem_cons, List.mem_flatMap]

theorem mem_parts_map {entries : Entries Value} {u : Value} :
    u ∈ (map entries).parts ↔ u = map entries ∨ ∃ e ∈ entries, u ∈ e.2.parts := by
  rw [parts, entryParts_eq_flatMap, List.mem_cons, List.mem_flatMap]

theorem parts_subset_seq {items : List Value} {v : Value} (hv : v ∈ items) :
    v.parts ⊆ (seq items).parts := fun _ hu => mem_parts_seq.2 (.inr ⟨v, hv, hu⟩)

theorem parts_subset_map {entries : Entries Value} {e : String × Value} (he : e ∈ entries) :
    e.2.parts ⊆ (map entries).parts := fun _ hu => mem_parts_map.2 (.inr ⟨e, he, hu⟩)

/-- All lengths at the top level fit into a word, and a map holds each key once. -/
def Fits : Value → Prop
  | str s => s.utf8ByteSize < 2 ^ 64
  | seq items => items.length < 2 ^ 64
  | map entries => entries.length < 2 ^ 64 ∧ (entries.map (·.1)).Nodup ∧
      ∀ e ∈ entries, e.1.utf8ByteSize < 2 ^ 64
  | _ => True

def Proper (v : Value) : Prop := ∀ u ∈ v.parts, u.Fits

theorem Proper.fits {v : Value} (h : v.Proper) : v.Fits := h v v.self_mem_parts

theorem proper_seq {items : List Value} (hf : (seq items).Fits) (h : ∀ v ∈ items, v.Proper) : (seq items).Proper := by
  intro u hu
  rcases mem_parts_seq.1 hu with rfl | ⟨v, hv, hu⟩
  · exact hf
  · exact h v hv u hu

theorem proper_map {entries : Entries Value} (hf : (map entries).Fits) (h : ∀ e ∈ entries, e.2.Proper) :
    (map entries).Proper := by
  intro u hu
  rcases mem_parts_map.1 hu with rfl | ⟨e, he, hu⟩
  · exact hf
  · exact h e he u hu

theorem Proper.item {items : List Value} {v : Value} (h : (seq items).Proper) (hv : v ∈ items) :
    v.Proper := fun u hu => h u (parts_subset_seq hv hu)

theorem Proper.entry {entries : Entries Value} {e : String × Value} (h : (map entries).Proper)
    (he : e ∈ entries) : e.2.Proper := fun u hu => h u (parts_subset_map he hu)

/-! ## Encodings -/

/-- The fields of the top level of a value. -/
def fields (q : Quantization) : Value → List Digest.Field
  | null => [.null]
  | bool b => [.bool b]
  | int i => [.int i]
  | float x => [.float x q]
  | str s => [.text s]
  | seq items => Digest.seqFields (items.map (digest q))
  | map entries => Digest.mapFields (Entries.sorted (entries.map fun e => (e.1, e.2.digest q)))

theorem digest_eq_ofValueFields (q : Quantization) (v : Value) :
    v.digest q = Digest.ofValueFields (v.fields q) := by
  cases v <;> simp only [digest, fields, digestItems_eq_map, digestEntries_eq_map, Digest.null]

theorem fields_perm {q : Quantization} {entries others : Entries Value}
    (hn : (entries.map (·.1)).Nodup) (hp : entries.Perm others) :
    (map entries).fields q = (map others).fields q := by
  rw [fields, fields, Entries.sorted_congr _ (hp.map _)]
  rwa [List.map_map]

/-- The digest of a map forgets the order of its entries. -/
theorem digest_perm {q : Quantization} {entries others : Entries Value}
    (hn : (entries.map (·.1)).Nodup) (hp : entries.Perm others) :
    (map entries).digest q = (map others).digest q := by
  rw [digest_eq_ofValueFields, digest_eq_ofValueFields, fields_perm hn hp]

/-- The bytes that are hashed for the top level of a value. -/
def encoded (q : Quantization) (v : Value) : List UInt8 := Digest.encode Digest.valueDomain (v.fields q)

theorem encoded_float_congr {q : Quantization} {x y : Binary64}
    (h : (Digest.Field.float x q).bytes = (Digest.Field.float y q).bytes) :
    (float x).encoded q = (float y).encoded q := by
  rw [encoded, encoded, Digest.encode, Digest.encode, fields, fields, List.flatMap_singleton,
    List.flatMap_singleton, h]

theorem digest_float_congr {q : Quantization} {x y : Binary64}
    (h : (Digest.Field.float x q).bytes = (Digest.Field.float y q).bytes) :
    (float x).digest q = (float y).digest q := by
  rw [digest_eq_ofValueFields, digest_eq_ofValueFields]
  exact congrArg Digest.ofBytes (encoded_float_congr h)

/-- All that is hashed for a value satisfies `B`. -/
def Hashed (B : List UInt8 → Prop) (q : Quantization) (v : Value) : Prop :=
  ∀ u ∈ v.parts, B (u.encoded q)

/-- The bytes that are hashed for a value. -/
def hashes (q : Quantization) (v : Value) : List UInt8 → Prop := fun bytes =>
  ∃ u ∈ v.parts, u.encoded q = bytes

theorem hashed_hashes (q : Quantization) (v : Value) : v.Hashed (v.hashes q) q := fun u hu => ⟨u, hu, rfl⟩

section
variable {B : List UInt8 → Prop} {q : Quantization}

theorem Hashed.self {v : Value} (h : v.Hashed B q) : B (v.encoded q) := h v v.self_mem_parts

theorem Hashed.item {items : List Value} {v : Value} (h : (seq items).Hashed B q) (hv : v ∈ items) :
    v.Hashed B q := fun u hu => h u (parts_subset_seq hv hu)

theorem Hashed.entry {entries : Entries Value} {e : String × Value} (h : (map entries).Hashed B q)
    (he : e ∈ entries) : e.2.Hashed B q := fun u hu => h u (parts_subset_map he hu)

theorem Fits.fields {v : Value} (h : v.Fits) : ∀ f ∈ v.fields q, f.Sized := by
  cases v with
  | str s =>
    intro f hf
    obtain rfl := List.mem_singleton.1 hf
    exact h
  | seq items =>
    intro f hf
    rcases List.mem_cons.1 hf with rfl | hf
    · exact (List.length_map (digest q)).symm ▸ h
    · obtain ⟨d, -, rfl⟩ := List.mem_map.1 hf
      trivial
  | map entries =>
    intro f hf
    rcases List.mem_cons.1 hf with rfl | hf
    · have hlen := (Entries.sorted_perm (entries.map fun e => (e.1, e.2.digest q))).length_eq
      rw [List.length_map] at hlen
      exact hlen ▸ h.1
    · obtain ⟨⟨key, d⟩, hkd, hf⟩ := List.mem_flatMap.1 hf
      have hm := (Entries.sorted_perm _).mem_iff.1 hkd
      obtain ⟨e, he, hed⟩ := List.mem_map.1 hm
      cases hed
      rcases List.mem_cons.1 hf with rfl | hf
      · exact h.2.2 e he
      · obtain rfl := List.mem_singleton.1 hf
        trivial
  | _ =>
    intro f hf
    obtain rfl := List.mem_singleton.1 hf
    trivial

end

/-! ## Values of one digest -/

/-- Equal at the top level, up to the order of entries, with children of equal digests. -/
inductive Alike (q : Quantization) : Value → Value → Prop
  | null : Alike q .null .null
  | bool (b : Bool) : Alike q (.bool b) (.bool b)
  | int (i : Int64) : Alike q (.int i) (.int i)
  | float {x y : Binary64} : (Digest.Field.float x q).bytes = (Digest.Field.float y q).bytes →
      Alike q (.float x) (.float y)
  | str (s : String) : Alike q (.str s) (.str s)
  | seq {items others : List Value} : items.map (digest q) = others.map (digest q) →
      Alike q (.seq items) (.seq others)
  | map {entries others : Entries Value} :
      Entries.sorted (entries.map fun e => (e.1, e.2.digest q)) =
        Entries.sorted (others.map fun e => (e.1, e.2.digest q)) →
      Alike q (.map entries) (.map others)

end Value

namespace Digest

theorem float_bytes (x : Binary64) (q : Quantization) :
    ∃ tag payload, (Field.float x q).bytes = tag :: payload ∧ (tag = 0x03 ∨ tag = 0x04) := by
  simp only [Field.bytes]
  split
  · exact ⟨_, _, rfl, .inr rfl⟩
  · exact ⟨_, _, rfl, .inl rfl⟩

theorem map_digest_inj {cs ds : List Digest}
    (h : (cs.map Field.digest).map Field.bytes = (ds.map Field.digest).map Field.bytes) : cs = ds := by
  rw [List.map_map, List.map_map] at h
  exact (List.map_inj_right fun _ _ => Field.digest_inj).1 h

/-- Texts with digests are known from their bytes. -/
theorem flatMap_entry_inj {es fs : Entries Digest} (he : ∀ e ∈ es, e.1.utf8ByteSize < 2 ^ 64)
    (hf : ∀ f ∈ fs, f.1.utf8ByteSize < 2 ^ 64)
    (h : (es.flatMap fun e => [Field.text e.1, .digest e.2]).map Field.bytes =
      (fs.flatMap fun f => [Field.text f.1, .digest f.2]).map Field.bytes) : es = fs := by
  refine flatMap_fields_inj (fun _ => List.cons_ne_nil _ _) (fun hx hy hb => ?_) he hf h
  simp only [List.cons_append, List.nil_append, List.map_cons, List.cons.injEq] at hb
  obtain ⟨htext, hdigest, hrest⟩ := hb
  exact ⟨Prod.ext (Field.text_inj hx hy htext) (Field.digest_inj hdigest), hrest⟩

end Digest

namespace Value

variable {B : List UInt8 → Prop} {q : Quantization}

/-- The kind of value whose first field has a tag. -/
def kindOfTag : UInt8 → String
  | 0x00 => "null"
  | 0x01 => "bool"
  | 0x02 => "int"
  | 0x03 => "float"
  | 0x04 => "float"
  | 0x05 => "string"
  | 0x06 => "sequence"
  | _ => "map"

theorem kind_of_fields (q : Quantization) (v : Value) : ∃ tag payload rest,
    (v.fields q).map Digest.Field.bytes = (tag :: payload) :: rest ∧ v.kind = kindOfTag tag := by
  cases v with
  | float x =>
    obtain ⟨tag, payload, hb, htag⟩ := Digest.float_bytes x q
    refine ⟨tag, payload, [], by rw [fields, List.map_singleton, hb], ?_⟩
    rcases htag with rfl | rfl <;> rfl
  | _ => exact ⟨_, _, _, rfl, rfl⟩

theorem alike_of_fields {v w : Value} (hv : v.Fits) (hw : w.Fits)
    (h : (v.fields q).map Digest.Field.bytes = (w.fields q).map Digest.Field.bytes) : Alike q v w := by
  have hkind : v.kind = w.kind := by
    obtain ⟨tag, payload, rest, hf, hk⟩ := kind_of_fields q v
    obtain ⟨tag', payload', rest', hf', hk'⟩ := kind_of_fields q w
    rw [hf, hf'] at h
    rw [hk, hk', (List.cons.inj (List.cons.inj h).1).1]
  cases v <;> cases w <;> try (simp [kind] at hkind; done)
  case null.null => exact .null
  case bool.bool =>
    obtain rfl := Digest.Field.bool_inj (List.cons.inj h).1
    exact .bool _
  case int.int =>
    obtain rfl := Digest.Field.int_inj (List.cons.inj h).1
    exact .int _
  case float.float => exact .float (List.cons.inj h).1
  case str.str =>
    obtain rfl := Digest.Field.text_inj hv hw (List.cons.inj h).1
    exact .str _
  case seq.seq => exact .seq (Digest.map_digest_inj (List.cons.inj h).2)
  case map.map entries others =>
    have hsized {es : Entries Value} (hes : (map es).Fits) :
        ∀ e ∈ Entries.sorted (es.map fun e => (e.1, e.2.digest q)), e.1.utf8ByteSize < 2 ^ 64 := by
      intro e he
      obtain ⟨e', he', rfl⟩ := List.mem_map.1 ((Entries.sorted_perm _).mem_iff.1 he)
      exact hes.2.2 e' he'
    exact .map (Digest.flatMap_entry_inj (hsized hv) (hsized hw) (List.cons.inj h).2)

/-- Without collisions among what is hashed, values of one digest are alike. -/
theorem digest_inj (hB : ¬ Digest.Collides B) {v w : Value} (hv : v.Proper) (hw : w.Proper)
    (hvB : v.Hashed B q) (hwB : w.Hashed B q) (h : v.digest q = w.digest q) : Alike q v w := by
  rw [digest_eq_ofValueFields, digest_eq_ofValueFields] at h
  exact alike_of_fields hv.fits hw.fits
    (Digest.ofFields_inj hB hv.fits.fields hw.fits.fields hvB.self hwB.self h)

end Value

end ConfigCompiler
