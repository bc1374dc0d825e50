import ConfigCompiler.Proofs.Binary64.Rounding
import ConfigCompiler.Proofs.Value.Same

/-!
# Which floats keep their bucket

The float that stands for a bucket is bucketed again wherever a value is read back and digested. It goes into
its own bucket (`Quantization.Settles`) unless the product of bucket and width is infinite, provided that the
bucket is below `2 ^ 51` (`settles_iff`). From there on the quotient has no bit left for the half that rounding
needs, and the neighbouring bucket may come out.
-/

namespace ConfigCompiler

namespace Quantization

open Binary64

/-- The float that stands for `x` goes where `x` goes: into its bucket, or by its bits. -/
def Settles (q : Quantization) (x : Binary64) : Prop := q.bucket? (q.apply x) = q.bucket? x

variable {q : Quantization} {x width : Binary64} {bucket : Int64}

theorem bucket?_of_round {y : Binary64} (hy : y.isFinite = true) (hd : (y.div width).isFinite = true)
    (hround : (y.div width).round = bucket.toInt) (hlt : bucket.toInt.natAbs < bucketLimit) :
    (epsilon width).bucket? y = some (width, bucket) := by
  simp only [bucket?, hy, hd, hround, hlt, decide_true, Bool.and_true, if_true, Int64.ofInt_toInt]

/-! ## Floats that go by their bits -/

theorem round_ofMagnitude_zero (negative : Bool) : (ofMagnitude negative 0).round = 0 := by
  cases negative <;> decide

theorem isFinite_ofMagnitude_zero (negative : Bool) : (ofMagnitude negative 0).isFinite = true := by
  cases negative <;> decide

theorem ofRatio_zero (negative : Bool) (den : Nat) : ofRatio negative 0 den = ofMagnitude negative 0 := by
  have hround : roundHalfEven 0 den = 0 := by
    rcases roundHalfEven_cases 0 den with ⟨h, -⟩ | ⟨h, hle⟩
    · rw [h, Nat.zero_div]
    · obtain rfl : den = 0 := by simpa using hle
      rfl
  simp [ofRatio, hround]

theorem div_of_isZero {y : Binary64} (hx : x.isZero = true) : x.div y =
    if y.isNaN || y.isZero then nan else ofMagnitude (x.isNegative != y.isNegative) 0 := by
  have hm : x.magnitude = 0 := of_decide_eq_true hx
  have hnan : x.isNaN = false := by rw [isNaN, hm]; rfl
  have hinf : x.isInfinite = false := by rw [isInfinite, hm]; rfl
  simp only [div, hnan, hinf, hx, units_of_isZero hx, Nat.zero_mul, ofRatio_zero, Bool.false_or,
    Bool.false_eq_true, if_false, if_true]
  have hboth : y.isInfinite = true → y.isZero = false := by
    simp only [isInfinite, isZero, decide_eq_true_eq, decide_eq_false_iff_not]
    intro h
    rw [h]
    decide
  cases hy : y.isNaN <;> cases hi : y.isInfinite <;> cases hz : y.isZero <;> simp_all

/-- The sign of a zero does not matter to a bucket. -/
theorem bucket?_normalize (q : Quantization) (x : Binary64) : q.bucket? x.normalize = q.bucket? x := by
  cases q with
  | disabled => rfl
  | epsilon width =>
    have hfinite := Value.normalize_isFinite x
    cases hx : x.isFinite with
    | false => simp only [bucket?, hfinite, hx, Bool.false_and, Bool.false_eq_true, if_false]
    | true =>
      have hnan := (isFinite_iff.1 hx).1
      cases hz : x.isZero with
      | false => rw [Binary64.normalize, hnan, hz]; rfl
      | true =>
        have hzero : x.normalize = zero := by rw [Binary64.normalize, hnan, hz]; rfl
        rw [hx] at hfinite
        rw [hzero] at hfinite ⊢
        simp only [bucket?, hfinite, hx, div_of_isZero hz, div_of_isZero (x := zero) rfl]
        split
        · rfl
        · simp only [isFinite_ofMagnitude_zero, round_ofMagnitude_zero]

theorem settles_of_none (h : q.bucket? x = none) : q.Settles x := by
  rw [Settles, apply, h, bucket?_normalize, h]

/-! ## Floats in buckets -/

/-- A product of a small number and a width can be divided by the width again. -/
theorem quotient_lt_overflow {units count width : Nat} (h : Near units (count * width * unitsPerOne) unitsPerOne)
    (hlt : count < 2 ^ 51) (hpos : 0 < width) : units * unitsPerOne < overflowUnits * width := by
  have hsmall : count * width * unitsPerOne ≤ (2 ^ 51 - 1) * (width * unitsPerOne) := by
    rw [Nat.mul_assoc]
    exact Nat.mul_le_mul_right _ (by omega)
  have hunit : 1 * unitsPerOne ≤ width * unitsPerOne := Nat.mul_le_mul_right _ hpos
  have hone : 0 < unitsPerOne := unitsPerOne_pos
  calc units * unitsPerOne
      ≤ 2 * (count * width * unitsPerOne) + unitsPerOne := h.mul_le
    _ < 2 ^ 53 * (width * unitsPerOne) := by omega
    _ ≤ overflowUnits * width := by
      rw [Nat.mul_comm width, ← Nat.mul_assoc]
      exact Nat.mul_le_mul_right _ le_overflowUnits_one

/-- Below `2 ^ 51`, the product of a bucket and the width is in this bucket again. -/
theorem bucket?_product (hwidth : Settings.isWidth width = true) (hlt : bucket.toInt.natAbs < 2 ^ 51)
    (hf : ((ofInt bucket.toInt).mul width).isFinite = true) :
    (epsilon width).bucket? ((ofInt bucket.toInt).mul width).normalize = some (width, bucket) := by
  simp only [Settings.isWidth, Bool.and_eq_true, Bool.not_eq_true'] at hwidth
  obtain ⟨⟨hwf, hpositive⟩, hnz⟩ := hwidth
  have hpos : 0 < width.units := Nat.pos_of_ne_zero fun h => by
    rw [isZero_of_units h] at hnz
    cases hnz
  obtain ⟨product, hproduct⟩ : ∃ product, product = (ofInt bucket.toInt).mul width := ⟨_, rfl⟩
  have hmul := hproduct
  rw [mul_of_isFinite (ofInt_spec (k := 51) (by decide) hlt).1 hwf, units_ofInt (by omega), hpositive,
    Bool.bne_false, isNegative_ofInt, Nat.mul_right_comm] at hmul
  rw [← hproduct] at hf ⊢
  have hnear : Near product.units (bucket.toInt.natAbs * width.units * unitsPerOne) unitsPerOne := by
    rw [hmul] at hf ⊢
    exact near_ofRatio unitsPerOne_pos hf
  have hnan := (isFinite_iff.1 hf).1
  have hnormal : product.normalize.isFinite = true := by rw [Value.normalize_isFinite, hf]
  have hdiv := div_of_isFinite hnormal hwf hnz
  rw [units_normalize hnan, hpositive, Bool.bne_false] at hdiv
  have hfinite : (product.normalize.div width).isFinite = true := by
    rw [hdiv, isFinite_ofRatio_iff _ hpos]
    exact quotient_lt_overflow hnear hlt hpos
  have hquotient : Near (product.normalize.div width).units (product.units * unitsPerOne) width.units := by
    rw [hdiv] at hfinite ⊢
    exact near_ofRatio hpos hfinite
  have hround := round_eq (hnear.quotient hlt hpos four_le_unitsPerOne hquotient).1
    (hnear.quotient hlt hpos four_le_unitsPerOne hquotient).2
  refine bucket?_of_round hnormal hfinite ?_ (Nat.lt_trans hlt (by decide))
  rw [hround, hdiv, isNegative_ofRatio]
  by_cases hb : bucket.toInt = 0
  · rw [hb]
    simp
  · -- the product is not zero, so it keeps the sign
    have hunits : product.units ≠ 0 := by
      refine (hnear.pos unitsPerOne_pos (Nat.le_mul_of_pos_left _ (Nat.mul_pos ?_ hpos))).ne'
      omega
    rw [normalize_of_units_ne_zero hnan hunits, hmul, isNegative_ofRatio]
    by_cases hn : bucket.toInt < 0
    · rw [decide_eq_true hn, if_pos rfl]
      omega
    · rw [decide_eq_false hn, if_neg Bool.false_ne_true]
      omega

/-- Below `2 ^ 51`, the float that stands for a bucket is in this bucket again if it is finite. -/
theorem settles_iff (hwidth : Settings.isWidth width = true) (hx : q.bucket? x = some (width, bucket))
    (hlt : bucket.toInt.natAbs < 2 ^ 51) : q.Settles x ↔ ¬ q.Overflows x := by
  obtain rfl : q = epsilon width := by
    have hq := (bucket?_eq_some hx).1
    cases q with
    | disabled => cases hq
    | epsilon w => cases hq; rfl
  have hfinite : ((epsilon width).apply x).isFinite = true ↔ ¬ (epsilon width).Overflows x := by
    refine (apply_spec (fun w hw => ?_) (Value.isFinite_of_bucket? hx)).2
    cases hw
    simp only [Settings.isWidth, Bool.and_eq_true] at hwidth
    exact hwidth.1.1
  rw [← hfinite]
  constructor
  · intro h
    rw [Settles, hx] at h
    exact Value.isFinite_of_bucket? h
  · intro h
    have happly : (epsilon width).apply x = ((ofInt bucket.toInt).mul width).normalize := by rw [apply, hx]
    rw [happly, Value.normalize_isFinite] at h
    rw [Settles, happly, hx]
    exact bucket?_product hwidth hlt h

end Quantization

/-! ## Values -/

namespace Value

variable {q : Quantization}

theorem sameFloat_apply_iff {x : Binary64} : SameFloat q x (q.apply x) ↔ q.Settles x := by
  refine ⟨fun h => h.1.symm, fun h => ⟨h.symm, fun hnone => ?_⟩⟩
  rw [Quantization.apply, hnone, Binary64.normalize_normalize]

/-- All floats inside a value settle. -/
def Settled (q : Quantization) (v : Value) : Prop := ∀ x, float x ∈ v.parts → q.Settles x

theorem settled_seq_iff {items : List Value} : (seq items).Settled q ↔ ∀ v ∈ items, v.Settled q := by
  constructor
  · intro h v hv x hx
    exact h x (parts_subset_seq hv hx)
  · intro h x hx
    rcases mem_parts_seq.1 hx with hx | ⟨v, hv, hx⟩
    · cases hx
    · exact h v hv x hx

theorem settled_map_iff {entries : Entries Value} : (map entries).Settled q ↔ ∀ e ∈ entries, e.2.Settled q := by
  constructor
  · intro h e he x hx
    exact h x (parts_subset_map he hx)
  · intro h x hx
    rcases mem_parts_map.1 hx with hx | ⟨e, he, hx⟩
    · cases hx
    · exact h e he x hx

end Value

end ConfigCompiler
