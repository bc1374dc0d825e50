import Mathlib.Order.MinMax
import ConfigCompiler.Settings.Basic
import ConfigCompiler.Proofs.Value.Validation

/-!
# The range of rounded and of quantized floats

Rounding never makes a NaN, and it makes an infinity just from `2 ^ 1024 - 2 ^ 970` on, in units
`overflowUnits` (`isInfinite_ofRatio_iff`). So the float that stands for a bucket may be infinite although the
floats of the bucket are not: just where the product of the bucket and its width is rounded away
(`Quantization.apply_spec`). Buckets are numbered below `2 ^ 62`, so this does not happen where the
width is below `2 ^ 961` (`Quantization.not_overflows_of_narrow`).
-/

namespace ConfigCompiler

namespace Binary64

/-! ## Magnitudes -/

theorem isFinite_iff {x : Binary64} : x.isFinite = true ↔ x.isNaN = false ∧ x.isInfinite = false := by
  simp only [isFinite, isNaN, isInfinite, decide_eq_true_eq, decide_eq_false_iff_not]
  omega

theorem magnitude_ofMagnitude (negative : Bool) {m : Nat} (hm : m < 2 ^ 63) :
    (ofMagnitude negative m).magnitude = m := by
  have hshift : 1 <<< 63 = 2 ^ 63 := rfl
  rw [magnitude, ofMagnitude, UInt64.toNat_ofNat', hshift]
  split <;> omega

/-- The number of bits that rounding takes off the units. -/
def excess (units : Nat) : Nat := units.log2 - 52

theorem magnitude_ofRatio (negative : Bool) (num den : Nat) :
    (ofRatio negative num den).magnitude =
      min (excess (num / den) <<< 52 + roundHalfEven num (den <<< excess (num / den))) infinityBits :=
  magnitude_ofMagnitude _ (Nat.lt_of_le_of_lt (Nat.min_le_right _ _) (by decide))

theorem isNaN_ofRatio (negative : Bool) (num den : Nat) : (ofRatio negative num den).isNaN = false := by
  rw [isNaN, decide_eq_false_iff_not, magnitude_ofRatio]
  omega

/-! ## Rounding -/

theorem roundHalfEven_cases (num den : Nat) :
    (roundHalfEven num den = num / den ∧ 2 * (num % den) ≤ den) ∨
    (roundHalfEven num den = num / den + 1 ∧ den ≤ 2 * (num % den)) := by
  unfold roundHalfEven
  dsimp only
  split <;> omega

/-- What is left of the units has 53 bits, unless there were fewer to begin with. -/
theorem div_excess (units : Nat) : units / 2 ^ excess units < 2 ^ 53 ∧
    (2 ^ 52 ≤ units → 2 ^ 52 ≤ units / 2 ^ excess units) := by
  constructor
  · rw [Nat.div_lt_iff_lt_mul (Nat.two_pow_pos _), ← Nat.pow_add]
    refine Nat.lt_of_lt_of_le Nat.lt_log2_self (Nat.pow_le_pow_right (by decide) ?_)
    unfold excess
    omega
  · intro h
    have hpos : units ≠ 0 := by
      rintro rfl
      simp at h
    have hlog : 52 ≤ units.log2 := (Nat.le_log2 hpos).2 h
    rw [Nat.le_div_iff_mul_le (Nat.two_pow_pos _), ← Nat.pow_add]
    refine Nat.le_trans (Nat.pow_le_pow_right (by decide) ?_) (Nat.log2_self_le hpos)
    unfold excess
    omega

theorem excess_lt {units k : Nat} (hk : 53 ≤ k) (h : units < 2 ^ k) : excess units ≤ k - 53 := by
  unfold excess
  by_cases h0 : units = 0
  · simp [h0]
  · have := (Nat.log2_lt h0).2 h
    omega

/-- Bits are taken off only where all 53 bits are left. -/
theorem le_div_excess {units : Nat} (h : excess units ≠ 0) : 2 ^ 52 ≤ units / 2 ^ excess units := by
  refine (div_excess units).2 (Classical.byContradiction fun hno => h ?_)
  have := excess_lt (k := 53) (by decide) (Nat.lt_trans (Nat.not_le.1 hno) (by decide))
  omega

/-- Rounding a number below a power of two does not get beyond this power. -/
theorem magnitude_ofRatio_le {num den k : Nat} (negative : Bool) (hk : 53 ≤ k) (h : num / den < 2 ^ k) :
    (ofRatio negative num den).magnitude ≤ (k - 51) * 2 ^ 52 := by
  have hexcess := excess_lt hk h
  have hsignificand := (div_excess (num / den)).1
  have hround := roundHalfEven_cases num (den <<< excess (num / den))
  rw [magnitude_ofRatio, Nat.shiftLeft_eq, Nat.shiftLeft_eq]
  rw [Nat.shiftLeft_eq, ← Nat.div_div_eq_div_mul] at hround
  generalize roundHalfEven _ _ = r at *
  generalize excess (num / den) = s at *
  omega

theorem units_le {x : Binary64} {k : Nat} (hk : 52 ≤ k) (h : x.magnitude ≤ (k - 51) * 2 ^ 52) :
    x.units ≤ 2 ^ k := by
  have hfraction : x.magnitude % 2 ^ 52 < 2 ^ 52 := Nat.mod_lt _ (Nat.two_pow_pos _)
  have hsplit := Nat.div_add_mod x.magnitude (2 ^ 52)
  have hshift : 1 <<< 52 = 2 ^ 52 := rfl
  simp only [units, Nat.shiftRight_eq_div_pow, hshift, Nat.shiftLeft_eq]
  generalize x.magnitude / 2 ^ 52 = exponent at *
  generalize x.magnitude % 2 ^ 52 = fraction at *
  split
  · have := Nat.pow_le_pow_right (n := 2) (by decide) hk
    omega
  · obtain hlt | ⟨rfl, rfl⟩ : exponent < k - 51 ∨ exponent = k - 51 ∧ fraction = 0 := by omega
    · -- one bit more than the fraction's
      have hbits : 2 ^ 52 + fraction ≤ 2 ^ 53 := by omega
      refine Nat.le_trans (Nat.mul_le_mul_right _ hbits) ?_
      rw [← Nat.pow_add]
      exact Nat.pow_le_pow_right (by decide) (by omega)
    · rw [Nat.add_zero, ← Nat.pow_add]
      exact Nat.pow_le_pow_right (by decide) (by omega)

theorem units_ofRatio_le {num den k : Nat} (negative : Bool) (hk : 53 ≤ k) (h : num / den < 2 ^ k) :
    (ofRatio negative num den).units ≤ 2 ^ k :=
  units_le (by omega) (magnitude_ofRatio_le negative hk h)

/-- The least number of units that is rounded to infinity. -/
def overflowUnits : Nat := (2 ^ 54 - 1) * 2 ^ 2044

theorem isInfinite_ofRatio_iff (negative : Bool) {num den : Nat} (hden : 0 < den) :
    (ofRatio negative num den).isInfinite = true ↔ overflowUnits * den ≤ num := by
  have hinfinity : infinityBits = 2047 * 2 ^ 52 := rfl
  obtain ⟨top, htop, hover⟩ : ∃ top, top = 2044 ∧ overflowUnits * den = (2 ^ 54 - 1) * (den * 2 ^ top) :=
    ⟨2044, rfl, by rw [overflowUnits, Nat.mul_assoc, Nat.mul_comm den]⟩
  have hlt := (div_excess (num / den)).1
  have hge : excess (num / den) ≠ 0 → _ := le_div_excess
  rw [isInfinite, decide_eq_true_eq, magnitude_ofRatio, Nat.shiftLeft_eq, Nat.shiftLeft_eq, hover,
    hinfinity, min_eq_right_iff]
  clear hover hinfinity
  rw [Nat.div_div_eq_div_mul] at hlt hge
  generalize excess (num / den) = s at *
  have hround := roundHalfEven_cases num (den * 2 ^ s)
  have hodd : num / (den * 2 ^ s) % 2 = 1 → den * 2 ^ s ≤ 2 * (num % (den * 2 ^ s)) →
      roundHalfEven num (den * 2 ^ s) = num / (den * 2 ^ s) + 1 := fun hodd hle => by
    unfold roundHalfEven
    exact if_neg (by omega)
  have hsplit := Nat.div_add_mod num (den * 2 ^ s)
  have hmod := Nat.mod_lt num (Nat.mul_pos hden (Nat.two_pow_pos s))
  -- what the last bit that is kept stands for, against that of the largest finite numbers
  have hsmall : s ≤ top → den * 2 ^ s ≤ den * 2 ^ top := fun h =>
    Nat.mul_le_mul_left _ (Nat.pow_le_pow_right (by decide) h)
  have hedge : s = top + 1 → den * 2 ^ s = 2 * (den * 2 ^ top) := fun h => by
    rw [h, Nat.pow_succ, Nat.mul_comm _ 2, Nat.mul_left_comm]
  have hlarge : top + 2 ≤ s → 4 * (den * 2 ^ top) ≤ den * 2 ^ s := fun h => by
    have hpow : 2 ^ (top + 2) ≤ 2 ^ s := Nat.pow_le_pow_right (by decide) h
    rw [Nat.pow_add] at hpow
    have := Nat.mul_le_mul_left den hpow
    rwa [← Nat.mul_assoc, Nat.mul_comm _ (2 ^ 2)] at this
  have hunit : 0 < den * 2 ^ top := Nat.mul_pos hden (Nat.two_pow_pos _)
  generalize den * 2 ^ top = unit at *
  generalize den * 2 ^ s = step at *
  generalize roundHalfEven num step = m at *
  generalize num / step = quotient at *
  generalize num % step = rest at *
  obtain hs | hs | hs : s ≤ top ∨ s = top + 1 ∨ top + 2 ≤ s := by omega
  · -- below the largest binade
    have hstep := hsmall hs
    have hquotient := Nat.mul_le_mul_left step (show quotient ≤ 2 ^ 53 - 1 by omega)
    clear hsmall hedge hlarge hodd hge
    exact iff_of_false (by omega) (by omega)
  · -- in the largest binade, only the last number may be rounded up
    have hstep := hedge hs
    clear hsmall hedge hlarge hge
    by_cases hlast : quotient = 2 ^ 53 - 1
    · subst hlast
      have hup := hodd (by decide)
      clear hodd
      omega
    · have hquotient := Nat.mul_le_mul_left step (show quotient ≤ 2 ^ 53 - 2 by omega)
      clear hodd
      exact iff_of_false (by omega) (by omega)
  · have hstep := hlarge hs
    have hquotient : 2 ^ 52 ≤ quotient := hge (by omega)
    clear hsmall hedge hlarge hodd hge hlt
    have hbits : 2047 * 2 ^ 52 ≤ s * 2 ^ 52 + m := by
      clear hsplit
      omega
    have hproduct := Nat.mul_le_mul_left step hquotient
    exact iff_of_true hbits (by omega)

theorem isFinite_ofRatio_iff (negative : Bool) {num den : Nat} (hden : 0 < den) :
    (ofRatio negative num den).isFinite = true ↔ num < overflowUnits * den := by
  rw [isFinite_iff, isNaN_ofRatio, ← Nat.not_le, ← isInfinite_ofRatio_iff negative hden,
    Bool.not_eq_true]
  exact and_iff_right rfl

theorem normalize_normalize (x : Binary64) : x.normalize.normalize = x.normalize := by
  unfold normalize
  split
  · rfl
  · split <;> rfl

theorem isNaN_normalize (x : Binary64) : x.normalize.isNaN = x.isNaN := by
  unfold normalize
  split
  · rename_i h
    rw [h]
    decide
  · rename_i h
    split
    · rw [Bool.eq_false_iff.2 h]
      decide
    · rfl

/-- The product of finite numbers is their exact product, rounded. -/
theorem mul_of_isFinite {x y : Binary64} (hx : x.isFinite = true) (hy : y.isFinite = true) :
    x.mul y = ofRatio (x.isNegative != y.isNegative) (x.units * y.units) unitsPerOne := by
  obtain ⟨hxn, hxi⟩ := isFinite_iff.1 hx
  obtain ⟨hyn, hyi⟩ := isFinite_iff.1 hy
  simp only [mul, hxn, hyn, hxi, hyi, Bool.or_false, Bool.false_eq_true, if_false]

/-- With the exponent in a variable, nothing computes the power. -/
theorem exists_unitsPerOne_eq : ∃ k, k = 1074 ∧ unitsPerOne = 2 ^ k := by
  obtain ⟨k, hk⟩ : ∃ k, k = 1074 := ⟨_, rfl⟩
  exact ⟨k, hk, by rw [unitsPerOne, ← hk, Nat.one_shiftLeft]⟩

theorem unitsPerOne_pos : 0 < unitsPerOne := by
  obtain ⟨k, -, hk⟩ := exists_unitsPerOne_eq
  rw [hk]
  exact Nat.two_pow_pos k

theorem le_overflowUnits {k : Nat} (hk : k ≤ 2097) : 2 ^ k ≤ overflowUnits := by
  obtain ⟨top, htop, hover⟩ : ∃ top, top = 2044 ∧ overflowUnits = (2 ^ 54 - 1) * 2 ^ top := ⟨2044, rfl, rfl⟩
  calc 2 ^ k ≤ 2 ^ (53 + top) := Nat.pow_le_pow_right (by decide) (by omega)
    _ = 2 ^ 53 * 2 ^ top := Nat.pow_add ..
    _ ≤ overflowUnits := hover ▸ Nat.mul_le_mul_right _ (by decide)

/-- Whole numbers below a power of two, as floats. -/
theorem ofInt_spec {i : Int} {k : Nat} (hk : k ≤ 1023) (h : i.natAbs < 2 ^ k) :
    (ofInt i).isFinite = true ∧ (ofInt i).units ≤ 2 ^ k * unitsPerOne := by
  obtain ⟨one, hone, hunits⟩ := exists_unitsPerOne_eq
  have hlt : i.natAbs * unitsPerOne < 2 ^ (k + one) := by
    rw [hunits, Nat.pow_add]
    exact Nat.mul_lt_mul_of_pos_right h (Nat.two_pow_pos one)
  constructor
  · rw [ofInt, isFinite_ofRatio_iff _ Nat.one_pos, Nat.mul_one]
    exact Nat.lt_of_lt_of_le hlt (le_overflowUnits (by omega))
  · rw [ofInt, hunits, ← Nat.pow_add, ← hunits]
    exact units_ofRatio_le _ (by omega) (by rwa [Nat.div_one])

end Binary64

/-! ## Quantized floats -/

namespace Quantization

open Binary64

variable {q : Quantization} {x width : Binary64} {bucket : Int64}

theorem bucket?_eq_some (h : q.bucket? x = some (width, bucket)) :
    q.epsilon? = some width ∧ bucket.toInt.natAbs < 2 ^ 62 := by
  cases q with
  | disabled => cases h
  | epsilon w =>
    simp only [bucket?] at h
    split at h
    · rename_i hc
      cases h
      simp only [Bool.and_eq_true, decide_eq_true_eq] at hc
      have hlimit : bucketLimit = 2 ^ 62 := rfl
      rw [Int64.toInt_ofInt_of_le (by omega) (by omega)]
      exact ⟨rfl, by omega⟩
    · cases h

/-- The product of a float's bucket and the width is too large for a finite float. -/
def Overflows (q : Quantization) (x : Binary64) : Prop :=
  ∃ width bucket, q.bucket? x = some (width, bucket) ∧
    overflowUnits * unitsPerOne ≤ (ofInt bucket.toInt).units * width.units

/-- The float that stands for a finite one is no NaN; it is its own, or the product of bucket and width. -/
theorem apply_spec (hq : ∀ width, q.epsilon? = some width → width.isFinite = true)
    (hx : x.isFinite = true) :
    (q.apply x).isNaN = false ∧ ((q.apply x).isFinite = true ↔ ¬ q.Overflows x) := by
  unfold Overflows
  cases hb : q.bucket? x with
  | none =>
    have hfinite : (q.apply x).isFinite = true := by rw [apply, hb, Value.normalize_isFinite, hx]
    simp [(isFinite_iff.1 hfinite).1, hfinite]
  | some p =>
    obtain ⟨width, bucket⟩ := p
    obtain ⟨hwidth, hlt⟩ := bucket?_eq_some hb
    have happly : q.apply x = ((ofInt bucket.toInt).mul width).normalize := by rw [apply, hb]
    rw [mul_of_isFinite (ofInt_spec (by decide) hlt).1 (hq width hwidth)] at happly
    constructor
    · rw [happly, isNaN_normalize, isNaN_ofRatio]
    · rw [happly, Value.normalize_isFinite, isFinite_ofRatio_iff _ unitsPerOne_pos]
      simp

/-- Where the width is below `2 ^ 961`, no product is too large. -/
theorem not_overflows_of_narrow {k : Nat} (hk : k ≤ 961)
    (hnarrow : ∀ width, q.epsilon? = some width → width.units < 2 ^ k * unitsPerOne) :
    ¬ q.Overflows x := by
  rintro ⟨width, bucket, hb, hle⟩
  refine absurd hle (Nat.not_le.2 ?_)
  obtain ⟨hwidth, hlt⟩ := bucket?_eq_some hb
  obtain ⟨one, hone, hunits⟩ := exists_unitsPerOne_eq
  have hlargest : 2 ^ 62 * 2 ^ k * unitsPerOne ≤ overflowUnits := by
    rw [hunits, ← Nat.pow_add, ← Nat.pow_add]
    exact le_overflowUnits (by omega)
  calc (ofInt bucket.toInt).units * width.units
      < 2 ^ 62 * unitsPerOne * (2 ^ k * unitsPerOne) :=
        Nat.mul_lt_mul_of_le_of_lt (ofInt_spec (by decide) hlt).2 (hnarrow width hwidth)
          (Nat.mul_pos (by decide) unitsPerOne_pos)
    _ = 2 ^ 62 * 2 ^ k * unitsPerOne * unitsPerOne := by
        rw [Nat.mul_mul_mul_comm, ← Nat.mul_assoc (2 ^ 62 * 2 ^ k)]
    _ ≤ overflowUnits * unitsPerOne := Nat.mul_le_mul_right _ hlargest

end Quantization

theorem Settings.epsilon?_quantization {g : Settings} : g.quantization.epsilon? = g.epsilon? := by
  unfold quantization
  cases g.epsilon? <;> rfl

theorem Settings.isWidth_of_check {g : Settings} (h : g.check = .ok ()) {width : Binary64}
    (hw : g.epsilon? = some width) : isWidth width = true := by
  unfold check at h
  rw [hw, Option.filter_some] at h
  cases hwidth : isWidth width with
  | true => rfl
  | false =>
    rw [hwidth] at h
    cases h

/-- The width that checked settings give is that of finite buckets. -/
theorem Settings.isFinite_of_check {g : Settings} (h : g.check = .ok ()) {width : Binary64}
    (hw : g.quantization.epsilon? = some width) : width.isFinite = true := by
  have hwidth := isWidth_of_check h (epsilon?_quantization ▸ hw)
  simp only [isWidth, Bool.and_eq_true] at hwidth
  exact hwidth.1.1

end ConfigCompiler
