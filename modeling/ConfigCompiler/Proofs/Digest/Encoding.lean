import Mathlib.Algebra.GroupWithZero.Nat
import Mathlib.Data.List.Nodup
import ConfigCompiler.Digest.Field

/-!
# Encodings are read back in one way

No field's bytes begin another field's (`Field.bytes_append_inj`): the tag says how many bytes follow, and
a text says its own length. So the fields under a digest are known from the bytes that are hashed
(`encode_inj`), as long as all lengths fit into a word.
-/

namespace ConfigCompiler.Digest

/-! ## Words and texts -/

theorem getElem?_wordBytes (w : UInt64) {i : Nat} (hi : i < 8) :
    (wordBytes w)[i]? = some (w >>> UInt64.ofNat (8 * i)).toUInt8 := by
  simp [wordBytes, List.getElem?_range hi]

/-- A number below `256 ^ n` is known from its `n` bytes. -/
theorem eq_of_bytes {n a b : Nat} (ha : a < 256 ^ n) (hb : b < 256 ^ n)
    (h : ∀ i < n, a / 256 ^ i % 256 = b / 256 ^ i % 256) : a = b := by
  induction n generalizing a b with
  | zero => omega
  | succ n ih =>
    have hlow := h 0 (by omega)
    have hhigh : a / 256 = b / 256 := by
      refine ih (by omega) (by omega) fun i hi => ?_
      have := h (i + 1) (by omega)
      rwa [Nat.pow_succ', ← Nat.div_div_eq_div_mul, ← Nat.div_div_eq_div_mul] at this
    omega

theorem wordBytes_inj {v w : UInt64} (h : wordBytes v = wordBytes w) : v = w := by
  refine UInt64.toNat_inj.1 (eq_of_bytes (n := 8) v.toNat_lt w.toNat_lt fun i hi => ?_)
  have he : (v >>> UInt64.ofNat (8 * i)).toUInt8 = (w >>> UInt64.ofNat (8 * i)).toUInt8 := by
    have := congrArg (·[i]?) h
    simpa only [getElem?_wordBytes _ hi, Option.some.injEq] using this
  have hn := congrArg UInt8.toNat he
  have hm : 8 * i % 2 ^ 64 % 64 = 8 * i := by omega
  rw [show 256 ^ i = 2 ^ (8 * i) by rw [Nat.pow_mul]]
  simpa only [UInt64.toNat_toUInt8, UInt64.toNat_shiftRight, UInt64.toNat_ofNat', hm,
    Nat.shiftRight_eq_div_pow] using hn

theorem lengthBytes_inj {m n : Nat} (hm : m < 2 ^ 64) (hn : n < 2 ^ 64)
    (h : lengthBytes m = lengthBytes n) : m = n := by
  have := congrArg UInt64.toNat (wordBytes_inj h)
  simpa only [UInt64.toNat_ofNat', Nat.mod_eq_of_lt hm, Nat.mod_eq_of_lt hn] using this

theorem loop_append_drop (b : ByteArray) (i : Nat) (r : List UInt8) :
    ByteArray.toList.loop b i r = r.reverse ++ b.data.toList.drop i := by
  fun_induction ByteArray.toList.loop b i r with
  | case1 i r hlt ih =>
    have hi : i < b.data.toList.length := by rw [Array.length_toList]; exact hlt
    rw [ih, List.drop_eq_getElem_cons hi]
    simp [ByteArray.get!, getElem!_pos b.data i (by simpa using hi)]
  | case2 i r hge =>
    have hi : b.data.toList.length ≤ i := by rw [Array.length_toList, ByteArray.size_data]; omega
    simp [List.drop_eq_nil_of_le hi]

theorem toList_eq_data (b : ByteArray) : b.toList = b.data.toList := by
  simp [ByteArray.toList, loop_append_drop]

theorem length_utf8 (s : String) : s.toUTF8.toList.length = s.utf8ByteSize := by
  rw [toList_eq_data, Array.length_toList]
  rfl

theorem utf8_inj {s t : String} (h : s.toUTF8.toList = t.toUTF8.toList) : s = t := by
  rw [toList_eq_data, toList_eq_data] at h
  exact String.toByteArray_inj.1 (ByteArray.ext (Array.toList_inj.1 h))

theorem textBytes_append_inj {s t : String} (hs : s.utf8ByteSize < 2 ^ 64)
    (ht : t.utf8ByteSize < 2 ^ 64) {p q : List UInt8}
    (h : textBytes s ++ p = textBytes t ++ q) : s = t ∧ p = q := by
  simp only [textBytes, List.append_assoc] at h
  obtain ⟨hlen, hrest⟩ := List.append_inj h rfl
  have hsize := lengthBytes_inj hs ht hlen
  obtain ⟨hbytes, hpq⟩ := List.append_inj hrest (by rw [length_utf8, length_utf8, hsize])
  exact ⟨utf8_inj hbytes, hpq⟩

/-! ## Fields -/

namespace Field

/-- The lengths that a field tells fit into a word. -/
def Sized : Field → Prop
  | text s => s.utf8ByteSize < 2 ^ 64
  | seqHeader n => n < 2 ^ 64
  | mapHeader n => n < 2 ^ 64
  | _ => True

/-- How many bytes follow a tag, unless it is that of a text. -/
def payloadLength : UInt8 → Nat
  | 0x00 => 0
  | 0x01 => 1
  | 0x04 => 16
  | 0x08 => 32
  | 0x0b => 0
  | _ => 8

def textTag : UInt8 := 0x05

theorem bytes_cases (f : Field) : (∃ s, f = text s) ∨
    ∃ tag payload, f.bytes = tag :: payload ∧ tag ≠ textTag ∧ payload.length = payloadLength tag := by
  cases f with
  | text s => exact .inl ⟨s, rfl⟩
  | float x q =>
    refine .inr ?_
    simp only [bytes]
    split
    · exact ⟨_, _, rfl, by decide, rfl⟩
    · exact ⟨_, _, rfl, by decide, rfl⟩
  | digest? d => cases d <;> exact .inr ⟨_, _, rfl, by decide, by simp [payloadLength, toBytes]⟩
  | quantization q => cases q <;> exact .inr ⟨_, _, rfl, by decide, rfl⟩
  | digest d => exact .inr ⟨_, _, rfl, by decide, by simp [payloadLength, toBytes]⟩
  | _ => exact .inr ⟨_, _, rfl, by decide, rfl⟩

theorem bytes_append_inj {f g : Field} (hf : f.Sized) (hg : g.Sized) {p q : List UInt8}
    (h : f.bytes ++ p = g.bytes ++ q) : f.bytes = g.bytes ∧ p = q := by
  rcases f.bytes_cases with ⟨s, rfl⟩ | ⟨tag, payload, hf', htag, hlen⟩ <;>
    rcases g.bytes_cases with ⟨s', rfl⟩ | ⟨tag', payload', hg', htag', hlen'⟩
  · simp only [bytes, List.cons_append, List.cons.injEq, true_and] at h
    obtain ⟨rfl, rfl⟩ := textBytes_append_inj hf hg h
    exact ⟨rfl, rfl⟩
  · rw [hg'] at h
    exact absurd (List.cons.inj h).1.symm htag'
  · rw [hf'] at h
    exact absurd (List.cons.inj h).1 htag
  · rw [hf', hg'] at h ⊢
    obtain ⟨rfl, hrest⟩ := List.cons.inj h
    obtain ⟨rfl, rfl⟩ := List.append_inj hrest (hlen.trans hlen'.symm)
    exact ⟨rfl, rfl⟩

theorem bytes_ne_nil (f : Field) : f.bytes ≠ [] := by
  rcases f.bytes_cases with ⟨s, rfl⟩ | ⟨tag, payload, h, -, -⟩
  · exact List.cons_ne_nil _ _
  · rw [h]
    exact List.cons_ne_nil _ _

theorem text_inj {s t : String} (hs : s.utf8ByteSize < 2 ^ 64) (ht : t.utf8ByteSize < 2 ^ 64)
    (h : (text s).bytes = (text t).bytes) : s = t := by
  simp only [bytes, List.cons.injEq, true_and] at h
  exact (textBytes_append_inj hs ht (congrArg (· ++ []) h)).1

theorem digest_inj {c d : Digest} (h : (digest c).bytes = (digest d).bytes) : c = d := by
  simp only [bytes, digestBytes, toBytes, List.cons.injEq, true_and] at h
  cases c with | mk c =>
  cases d with | mk d =>
  exact congrArg mk (Vector.toList_inj.1 h)

theorem int_inj {i j : Int64} (h : (int i).bytes = (int j).bytes) : i = j := by
  simp only [bytes, List.cons.injEq, true_and] at h
  exact congrArg Int64.ofUInt64 (wordBytes_inj h)

theorem bool_inj {a b : Bool} (h : (bool a).bytes = (bool b).bytes) : a = b := by
  cases a <;> cases b <;> simp [bytes] at h ⊢

theorem seqHeader_inj {m n : Nat} (hm : m < 2 ^ 64) (hn : n < 2 ^ 64)
    (h : (seqHeader m).bytes = (seqHeader n).bytes) : m = n := by
  simp only [bytes, List.cons.injEq, true_and] at h
  exact lengthBytes_inj hm hn h

end Field

/-! ## Encodings -/

/-- The bytes of each field are known from the bytes of all of them. -/
theorem flatMap_bytes_inj {fs gs : List Field} (hf : ∀ f ∈ fs, f.Sized) (hg : ∀ g ∈ gs, g.Sized)
    (h : fs.flatMap Field.bytes = gs.flatMap Field.bytes) :
    fs.map Field.bytes = gs.map Field.bytes := by
  induction fs generalizing gs with
  | nil =>
    cases gs with
    | nil => rfl
    | cons g gs =>
      have := (List.append_eq_nil_iff.1 (List.flatMap_cons ▸ h).symm).1
      exact absurd this g.bytes_ne_nil
  | cons f fs ih =>
    cases gs with
    | nil =>
      have := (List.append_eq_nil_iff.1 (List.flatMap_cons ▸ h)).1
      exact absurd this f.bytes_ne_nil
    | cons g gs =>
      rw [List.flatMap_cons, List.flatMap_cons] at h
      obtain ⟨hfg, hrest⟩ := Field.bytes_append_inj (hf f List.mem_cons_self) (hg g List.mem_cons_self) h
      have htail := ih (fun f hm => hf f (List.mem_cons_of_mem _ hm))
        (fun g hm => hg g (List.mem_cons_of_mem _ hm)) hrest
      simp only [List.map_cons, hfg, htail]

/-- Within a domain, the bytes of each field are known from the bytes that are hashed. -/
theorem encode_inj {domain : String} {fs gs : List Field} (hf : ∀ f ∈ fs, f.Sized)
    (hg : ∀ g ∈ gs, g.Sized) (h : encode domain fs = encode domain gs) :
    fs.map Field.bytes = gs.map Field.bytes :=
  flatMap_bytes_inj hf hg (List.append_cancel_left h)

/-- Elements of a list are known from the bytes of their fields, if the first element always is. -/
theorem flatMap_fields_inj {α : Type} {P : α → Prop} {fields : α → List Field} (hne : ∀ a, fields a ≠ [])
    (hhead : ∀ {a b rest rest'}, P a → P b →
      (fields a ++ rest).map Field.bytes = (fields b ++ rest').map Field.bytes →
      a = b ∧ rest.map Field.bytes = rest'.map Field.bytes)
    {xs ys : List α} (hx : ∀ x ∈ xs, P x) (hy : ∀ y ∈ ys, P y)
    (h : (xs.flatMap fields).map Field.bytes = (ys.flatMap fields).map Field.bytes) : xs = ys := by
  induction xs generalizing ys with
  | nil =>
    cases ys with
    | nil => rfl
    | cons y ys => exact absurd (by simpa using h : fields y = [] ∧ _).1 (hne y)
  | cons x xs ih =>
    cases ys with
    | nil => exact absurd (by simpa using h : fields x = [] ∧ _).1 (hne x)
    | cons y ys =>
      rw [List.flatMap_cons, List.flatMap_cons] at h
      obtain ⟨rfl, hrest⟩ := hhead (hx x List.mem_cons_self) (hy y List.mem_cons_self) h
      rw [ih (fun x hm => hx x (List.mem_cons_of_mem _ hm)) (fun y hm => hy y (List.mem_cons_of_mem _ hm))
        hrest]

/-! ## Collisions -/

/-- Two different byte strings that satisfy `P` have one digest. -/
def Collides (P : List UInt8 → Prop) : Prop :=
  ∃ a b, P a ∧ P b ∧ a ≠ b ∧ ofBytes a = ofBytes b

theorem Collides.mono {P Q : List UInt8 → Prop} (h : Collides P) (hPQ : ∀ a, P a → Q a) :
    Collides Q := by
  obtain ⟨a, b, ha, hb, hne, hab⟩ := h
  exact ⟨a, b, hPQ a ha, hPQ b hb, hne, hab⟩

theorem not_collides_of_nodup {l : List (List UInt8)} (h : (l.map ofBytes).Nodup) :
    ¬ Collides (· ∈ l) := by
  rintro ⟨a, b, ha, hb, hne, hab⟩
  exact hne (List.inj_on_of_nodup_map h ha hb hab)

/-- Without collisions, fields of one digest in one domain have the same bytes. -/
theorem ofFields_inj {P : List UInt8 → Prop} (hP : ¬ Collides P) {domain : String}
    {fs gs : List Field} (hf : ∀ f ∈ fs, f.Sized) (hg : ∀ g ∈ gs, g.Sized)
    (hfP : P (encode domain fs)) (hgP : P (encode domain gs))
    (h : ofFields domain fs = ofFields domain gs) : fs.map Field.bytes = gs.map Field.bytes := by
  refine @encode_inj domain _ _ hf hg (Classical.byContradiction fun hne => hP ?_)
  exact ⟨_, _, hfP, hgP, hne, h⟩

end ConfigCompiler.Digest
