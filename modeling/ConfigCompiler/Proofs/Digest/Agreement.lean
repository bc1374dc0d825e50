import Mathlib.Data.List.Forall2
import ConfigCompiler.Proofs.Digest.Encoding

/-!
# What the bytes under a digest tell

Some writes have several names: an absent field, a digest, and the bits of a number. Two floats are written
alike if they are in one bucket, or go by the bits of one number. `Field.Agrees` says just this of two writes,
and it is all that the bytes forget (`Field.bytes_eq_iff`). So the bytes that are hashed tell the domain, the
number of writes and each write up to agreement (`encode_eq_iff`).
-/

namespace ConfigCompiler.Digest

namespace Field

/-- A write under the first of its names. -/
def plain : Field → Field
  | digest? none => absent
  | digest? (some d) => digest d
  | quantization .disabled => absent
  | quantization (.epsilon width) => float width .disabled
  | f => f

/-- Floats of one bucket, counted in one width, or of one number where neither is bucketed. -/
def SameFloat (x : Binary64) (q : Quantization) (y : Binary64) (r : Quantization) : Prop :=
  (∃ width bucket, q.bucket? x = some (width, bucket) ∧ r.bucket? y = some (width, bucket)) ∨
    (q.bucket? x = none ∧ r.bucket? y = none ∧ x.normalize = y.normalize)

/-- Writes that are not told apart. -/
def Agrees (f g : Field) : Prop :=
  match f.plain, g.plain with
  | float x q, float y r => SameFloat x q y r
  | f, g => f = g

theorem bytes_plain (f : Field) : f.plain.bytes = f.bytes := by
  cases f with
  | digest? d => cases d <;> rfl
  | quantization q => cases q <;> rfl
  | _ => rfl

theorem Sized.plain {f : Field} (h : f.Sized) : f.plain.Sized := by
  cases f with
  | digest? d => cases d <;> trivial
  | quantization q => cases q <;> trivial
  | _ => exact h

/-! ## Floats -/

theorem float_bytes_iff {x y : Binary64} {q r : Quantization} :
    (float x q).bytes = (float y r).bytes ↔ SameFloat x q y r := by
  simp only [bytes, SameFloat]
  cases hx : q.bucket? x with
  | none =>
    cases hy : r.bucket? y with
    | none =>
      simp only [floatBits, List.cons.injEq, true_and, reduceCtorEq, false_and, exists_false, false_or]
      constructor
      · intro h
        exact congrArg Binary64.mk (wordBytes_inj h)
      · intro h
        rw [h]
    | some b => simp [floatBits]
  | some a =>
    cases hy : r.bucket? y with
    | none => simp [floatBits]
    | some b =>
      simp only [List.cons_append, List.cons.injEq, true_and, Option.some.injEq, reduceCtorEq,
        false_and, or_false]
      constructor
      · intro h
        obtain ⟨hwidth, hbucket⟩ := List.append_inj h rfl
        have hw : a.1 = b.1 := congrArg Binary64.mk (wordBytes_inj hwidth)
        have hb : a.2 = b.2 := congrArg Int64.ofUInt64 (wordBytes_inj hbucket)
        exact ⟨b.1, b.2, Prod.ext hw hb, rfl⟩
      · rintro ⟨width, bucket, ha, hb⟩
        rw [ha, hb]

theorem head_float_bytes (x : Binary64) (q : Quantization) :
    (float x q).bytes.head? = some 0x03 ∨ (float x q).bytes.head? = some 0x04 := by
  simp only [bytes]
  cases q.bucket? x with
  | none => exact .inl rfl
  | some b => exact .inr rfl

/-! ## The other writes -/

/-- The tag of a write that is under the first of its names and no float. -/
def tag? : Field → Option UInt8
  | null => some 0x00
  | bool _ => some 0x01
  | int _ => some 0x02
  | text _ => some 0x05
  | seqHeader _ => some 0x06
  | mapHeader _ => some 0x07
  | digest _ => some 0x08
  | word _ => some 0x09
  | absent => some 0x0b
  | float .. | digest? _ | quantization _ => none

theorem head_bytes {f : Field} {tag : UInt8} (h : f.tag? = some tag) : f.bytes.head? = some tag := by
  cases f with
  | float x q => cases h
  | digest? d => cases h
  | quantization q => cases h
  | _ => exact h

theorem tag_ne_float {f : Field} {tag : UInt8} (h : f.tag? = some tag) : tag ≠ 0x03 ∧ tag ≠ 0x04 := by
  cases f <;> cases h <;> decide

theorem float_bytes_ne {x : Binary64} {q : Quantization} {f : Field} {tag : UInt8}
    (h : f.tag? = some tag) : (float x q).bytes ≠ f.bytes := by
  intro heq
  obtain ⟨h3, h4⟩ := tag_ne_float h
  have hhead := head_bytes h
  rw [← heq] at hhead
  rcases head_float_bytes x q with hx | hx
  · exact h3 (Option.some.inj (hhead.symm.trans hx))
  · exact h4 (Option.some.inj (hhead.symm.trans hx))

/-- Writes of one tag are the same write of values that their bytes tell. -/
theorem eq_of_tag {f g : Field} (hf : f.Sized) (hg : g.Sized) {tag : UInt8} (hft : f.tag? = some tag)
    (hgt : g.tag? = some tag) (h : f.bytes = g.bytes) : f = g := by
  cases f with
  | null =>
    cases hft
    cases g with
    | null => rfl
    | _ => simp [tag?] at hgt
  | absent =>
    cases hft
    cases g with
    | absent => rfl
    | _ => simp [tag?] at hgt
  | bool a =>
    cases hft
    cases g with
    | bool b => rw [bool_inj h]
    | _ => simp [tag?] at hgt
  | int i =>
    cases hft
    cases g with
    | int j => rw [int_inj h]
    | _ => simp [tag?] at hgt
  | word v =>
    cases hft
    cases g with
    | word w => rw [wordBytes_inj (List.cons.inj h).2]
    | _ => simp [tag?] at hgt
  | text s =>
    cases hft
    cases g with
    | text t => rw [text_inj hf hg h]
    | _ => simp [tag?] at hgt
  | digest c =>
    cases hft
    cases g with
    | digest d => rw [digest_inj h]
    | _ => simp [tag?] at hgt
  | seqHeader m =>
    cases hft
    cases g with
    | seqHeader n => rw [seqHeader_inj hf hg h]
    | _ => simp [tag?] at hgt
  | mapHeader m =>
    cases hft
    cases g with
    | mapHeader n => rw [lengthBytes_inj hf hg (List.cons.inj h).2]
    | _ => simp [tag?] at hgt
  | _ => cases hft

/-! ## Agreement -/

theorem plain_cases (f : Field) :
    (∃ x q, f.plain = float x q) ∨ ∃ tag, f.plain.tag? = some tag := by
  cases f with
  | float x q => exact .inl ⟨x, q, rfl⟩
  | digest? d => cases d <;> exact .inr ⟨_, rfl⟩
  | quantization q =>
    cases q with
    | disabled => exact .inr ⟨_, rfl⟩
    | epsilon width => exact .inl ⟨width, .disabled, rfl⟩
  | _ => exact .inr ⟨_, rfl⟩

theorem agrees_iff_plain {f g : Field} {tag : UInt8}
    (h : f.plain.tag? = some tag ∨ g.plain.tag? = some tag) : f.Agrees g ↔ f.plain = g.plain := by
  unfold Agrees
  split
  · rename_i hf hg
    rw [hf, hg] at h
    rcases h with h | h <;> cases h
  · exact Iff.rfl

/-- The bytes of a write tell all but what agreement forgets. -/
theorem bytes_eq_iff {f g : Field} (hf : f.Sized) (hg : g.Sized) : f.bytes = g.bytes ↔ f.Agrees g := by
  rw [← bytes_plain f, ← bytes_plain g]
  rcases f.plain_cases with ⟨x, q, hfx⟩ | ⟨tag, hft⟩
  · rcases g.plain_cases with ⟨y, r, hgy⟩ | ⟨tag, hgt⟩
    · rw [hfx, hgy, float_bytes_iff]
      simp only [Agrees, hfx, hgy]
    · rw [agrees_iff_plain (.inr hgt), hfx]
      refine iff_of_false (float_bytes_ne hgt) ?_
      intro heq
      rw [← heq] at hgt
      cases hgt
  · rw [agrees_iff_plain (.inl hft)]
    constructor
    · intro h
      rcases g.plain_cases with ⟨y, r, hgy⟩ | ⟨tag', hgt⟩
      · rw [hgy] at h
        exact absurd h.symm (float_bytes_ne hft)
      · have htag : tag = tag' := Option.some.inj (by rw [← head_bytes hft, h, head_bytes hgt])
        rw [← htag] at hgt
        exact eq_of_tag hf.plain hg.plain hft hgt h
    · intro h
      rw [h]

end Field

/-! ## Streams of writes -/

theorem map_bytes_eq_iff {fs gs : List Field} (hf : ∀ f ∈ fs, f.Sized) (hg : ∀ g ∈ gs, g.Sized) :
    fs.map Field.bytes = gs.map Field.bytes ↔ List.Forall₂ Field.Agrees fs gs := by
  induction fs generalizing gs with
  | nil => cases gs <;> simp
  | cons f fs ih =>
    cases gs with
    | nil => simp
    | cons g gs =>
      have htail := ih (fun f hm => hf f (List.mem_cons_of_mem _ hm))
        (fun g hm => hg g (List.mem_cons_of_mem _ hm))
      simp only [List.map_cons, List.cons.injEq, List.forall₂_cons, htail,
        Field.bytes_eq_iff (hf f List.mem_cons_self) (hg g List.mem_cons_self)]

/-- The bytes that are hashed are those of one domain and of as many writes, which agree one by one. -/
theorem encode_eq_iff {domain domain' : String} {fs gs : List Field}
    (hdomain : domain.utf8ByteSize < 2 ^ 64) (hdomain' : domain'.utf8ByteSize < 2 ^ 64)
    (hf : ∀ f ∈ fs, f.Sized) (hg : ∀ g ∈ gs, g.Sized) :
    encode domain fs = encode domain' gs ↔ domain = domain' ∧ List.Forall₂ Field.Agrees fs gs := by
  rw [← map_bytes_eq_iff hf hg]
  simp only [encode, List.cons_append, List.cons.injEq, true_and]
  constructor
  · intro h
    obtain ⟨hd, hbytes⟩ := textBytes_append_inj hdomain hdomain' h
    exact ⟨hd, flatMap_bytes_inj hf hg hbytes⟩
  · intro ⟨hd, hbytes⟩
    rw [hd, List.flatMap_def, List.flatMap_def, hbytes]

instance : (f : Field) → Decidable f.Sized
  | .text s => inferInstanceAs (Decidable (s.utf8ByteSize < 2 ^ 64))
  | .seqHeader n | .mapHeader n => inferInstanceAs (Decidable (n < 2 ^ 64))
  | .null | .absent | .bool _ | .int _ | .word _ | .float .. | .digest _ | .digest? _ | .quantization _ =>
    inferInstanceAs (Decidable True)

/-- One and five quarters are in one bucket of width one, and the zeros are one number; a byte that
starts a header stays a part of its text. -/
theorem encode_eq_iff_near :
    encode "d" [.quantization .disabled, .float ⟨0x8000000000000000⟩ .disabled,
        .float ⟨0x3FF4000000000000⟩ (.epsilon ⟨0x3FF0000000000000⟩)] =
      encode "d" [.digest? none, .quantization (.epsilon ⟨0⟩),
        .float ⟨0x3FF0000000000000⟩ (.epsilon ⟨0x3FF0000000000000⟩)] ∧
    encode "d" [.text "a", .seqHeader 0] ≠ encode "d" [.text "a\x06"] := by
  refine ⟨(encode_eq_iff (by decide) (by decide) (by decide) (by decide)).2 ⟨rfl, ?_⟩, ?_⟩
  · refine .cons rfl (.cons (.inr ⟨rfl, rfl, by decide⟩) (.cons (.inl ⟨⟨0x3FF0000000000000⟩, 1, ?_, ?_⟩) .nil))
    · decide +kernel
    · decide +kernel
  · intro h
    have hagrees := ((encode_eq_iff (by decide) (by decide) (by decide) (by decide)).1 h).2
    cases hagrees with
    | cons _ hrest => cases hrest

end ConfigCompiler.Digest
