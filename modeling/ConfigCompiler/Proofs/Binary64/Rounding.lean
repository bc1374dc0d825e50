import ConfigCompiler.Proofs.Binary64.Range

/-!
# How far rounding goes

A finite number that a ratio is rounded to is off by half a unit of its last bit at most (`near_ofRatio`).
Whole numbers below `2 ^ 53` are kept as they are (`units_ofInt`). Multiplying a whole number below `2 ^ 51` and
dividing the product again, both rounded, gives a quotient nearest to this whole number (`Near.quotient`,
`round_eq`).
-/

namespace ConfigCompiler.Binary64

/-! ## Bits and units -/

/-- The units of a number by the significand that was rounded to and the number of bits taken off. -/
theorem units_of_magnitude {x : Binary64} {s m : Nat} (hm : m ≤ 2 ^ 53) (hs : s = 0 ∨ 2 ^ 52 ≤ m)
    (h : x.magnitude = s * 2 ^ 52 + m) : x.units = m * 2 ^ s := by
  have hshift : 1 <<< 52 = 2 ^ 52 := rfl
  simp only [units, h, Nat.shiftRight_eq_div_pow, hshift, Nat.shiftLeft_eq]
  obtain hlt | ⟨hge, hlt⟩ | rfl : m < 2 ^ 52 ∨ (2 ^ 52 ≤ m ∧ m < 2 ^ 53) ∨ m = 2 ^ 53 := by omega
  · -- no leading bit
    obtain rfl : s = 0 := by omega
    rw [if_pos (by omega)]
    omega
  · have hexponent : (s * 2 ^ 52 + m) / 2 ^ 52 = s + 1 := by omega
    have hfraction : 2 ^ 52 + (s * 2 ^ 52 + m) % 2 ^ 52 = m := by omega
    rw [hexponent, hfraction, if_neg (by omega), Nat.add_sub_cancel]
  · -- rounded up to the next power of two
    have hexponent : (s * 2 ^ 52 + 2 ^ 53) / 2 ^ 52 = s + 2 := by omega
    have hfraction : 2 ^ 52 + (s * 2 ^ 52 + 2 ^ 53) % 2 ^ 52 = 2 ^ 52 := by omega
    rw [hexponent, hfraction, if_neg (by omega), show s + 2 - 1 = s + 1 by omega, Nat.pow_succ 2 s]
    omega

theorem isNegative_ofMagnitude (negative : Bool) {m : Nat} (hm : m < 2 ^ 63) :
    (ofMagnitude negative m).isNegative = negative := by
  have hshift : 1 <<< 63 = 2 ^ 63 := rfl
  rw [isNegative, ofMagnitude, UInt64.toNat_ofNat', hshift]
  cases negative with
  | false => exact decide_eq_false (by rw [if_neg Bool.false_ne_true]; omega)
  | true => exact decide_eq_true (by rw [if_pos rfl]; omega)

theorem isNegative_ofRatio (negative : Bool) (num den : Nat) : (ofRatio negative num den).isNegative = negative :=
  isNegative_ofMagnitude _ (Nat.lt_of_le_of_lt (Nat.min_le_right _ _) (by decide))

theorem units_of_isZero {x : Binary64} (h : x.isZero = true) : x.units = 0 := by
  have hm : x.magnitude = 0 := of_decide_eq_true h
  exact units_of_magnitude (s := 0) (m := 0) (by decide) (.inl rfl) hm

theorem isZero_of_units {x : Binary64} (h : x.units = 0) : x.isZero = true := by
  refine decide_eq_true ?_
  have hsplit := Nat.div_add_mod x.magnitude (2 ^ 52)
  have hshift : 1 <<< 52 = 2 ^ 52 := rfl
  simp only [units, Nat.shiftRight_eq_div_pow, hshift, Nat.shiftLeft_eq] at h
  split at h
  · omega
  · have hpos : 0 < (2 ^ 52 + x.magnitude % 2 ^ 52) * 2 ^ (x.magnitude / 2 ^ 52 - 1) :=
      Nat.mul_pos (by omega) (Nat.two_pow_pos _)
    omega

theorem normalize_of_units_ne_zero {x : Binary64} (hx : x.isNaN = false) (h : x.units ≠ 0) : x.normalize = x := by
  unfold normalize
  rw [hx, Bool.eq_false_iff.2 fun hz => h (units_of_isZero hz)]
  rfl

theorem units_normalize {x : Binary64} (hx : x.isNaN = false) : x.normalize.units = x.units := by
  by_cases h : x.units = 0
  · unfold normalize
    rw [hx, isZero_of_units h, h]
    exact units_of_isZero (x := zero) (by decide)
  · rw [normalize_of_units_ne_zero hx h]

/-! ## Rounded ratios -/

theorem roundHalfEven_of_dvd {num den : Nat} (hden : 0 < den) (h : den ∣ num) : roundHalfEven num den = num / den := by
  unfold roundHalfEven
  rw [Nat.mod_eq_zero_of_dvd h]
  exact if_pos (.inl hden)

theorem units_ofRatio {negative : Bool} {num den : Nat} (hf : (ofRatio negative num den).isFinite = true) :
    (ofRatio negative num den).units =
      roundHalfEven num (den * 2 ^ excess (num / den)) * 2 ^ excess (num / den) := by
  have hlt := (div_excess (num / den)).1
  have hround := roundHalfEven_cases num (den * 2 ^ excess (num / den))
  rw [Nat.div_div_eq_div_mul] at hlt
  refine units_of_magnitude (by omega) ?_ ?_
  · refine Classical.or_iff_not_imp_left.2 fun hs => ?_
    have hge := le_div_excess hs
    rw [Nat.div_div_eq_div_mul] at hge
    omega
  · have hm := of_decide_eq_true hf
    rw [magnitude_ofRatio, Nat.shiftLeft_eq, Nat.shiftLeft_eq] at hm ⊢
    omega

/-- So many units are a ratio up to half a step. A step is one unit, or else small against the ratio. -/
def Near (units num den : Nat) : Prop :=
  ∃ step, (step = den ∨ 2 ^ 52 * step ≤ num) ∧ 2 * (units * den) ≤ 2 * num + step ∧
    2 * num ≤ 2 * (units * den) + step

theorem near_ofRatio {negative : Bool} {num den : Nat} (hden : 0 < den)
    (hf : (ofRatio negative num den).isFinite = true) : Near (ofRatio negative num den).units num den := by
  have hstep : 0 < den * 2 ^ excess (num / den) := Nat.mul_pos hden (Nat.two_pow_pos _)
  refine ⟨den * 2 ^ excess (num / den), ?_, ?_⟩
  · by_cases hs : excess (num / den) = 0
    · rw [hs]
      exact .inl (Nat.mul_one den)
    · have hge := le_div_excess hs
      rw [Nat.div_div_eq_div_mul, Nat.le_div_iff_mul_le hstep] at hge
      exact .inr hge
  · have hround := roundHalfEven_cases num (den * 2 ^ excess (num / den))
    rw [units_ofRatio hf, Nat.mul_assoc, Nat.mul_comm (2 ^ _) den]
    generalize den * 2 ^ excess (num / den) = step at *
    have hsplit := Nat.div_add_mod' num step
    have hlt := Nat.mod_lt num hstep
    rcases hround with ⟨hround, hrest⟩ | ⟨hround, hrest⟩
    · rw [hround]
      generalize num / step * step = below at *
      omega
    · rw [hround, Nat.add_mul, Nat.one_mul]
      generalize num / step * step = below at *
      omega

theorem Near.mul_le {units num den : Nat} (h : Near units num den) : units * den ≤ 2 * num + den := by
  obtain ⟨step, hstep, hle, -⟩ := h
  omega

theorem Near.pos {units num den : Nat} (h : Near units num den) (hden : 0 < den) (hnum : den ≤ num) : 0 < units := by
  obtain ⟨step, hstep, -, hge⟩ := h
  refine Nat.pos_of_ne_zero fun h0 => ?_
  rw [h0, Nat.zero_mul] at hge
  omega

/-! ## Whole numbers, products and quotients -/

/--
Where a whole number below `2 ^ 51` is multiplied and the product is divided again, the quotient is nearer than
one half to the whole number, although both were rounded.
-/
theorem Near.quotient {n width one product quotient : Nat} (hn : n < 2 ^ 51) (hwidth : 0 < width) (hone : 4 ≤ one)
    (h : Near product (n * width * one) one) (h' : Near quotient (product * one) width) :
    2 * (n * one) ≤ 2 * quotient + one ∧ 2 * quotient < 2 * (n * one) + one := by
  obtain ⟨step, hstep, hle, hge⟩ := h
  obtain ⟨step', hstep', hle', hge'⟩ := h'
  -- where the step is one unit, the product is exact
  have hexact : step = one → product * one = n * width * one := fun hs => by
    have h : 2 * product ≤ 2 * (n * width) + 1 := by
      refine Nat.le_of_mul_le_mul_right (c := one) ?_ (by omega)
      rw [Nat.add_mul, Nat.mul_assoc 2, Nat.mul_assoc 2]
      omega
    have h' : 2 * (n * width) ≤ 2 * product + 1 := by
      refine Nat.le_of_mul_le_mul_right (c := one) ?_ (by omega)
      rw [Nat.add_mul, Nat.mul_assoc 2, Nat.mul_assoc 2]
      omega
    rw [show product = n * width by omega]
  have hsmall : n * width * one ≤ (2 ^ 51 - 1) * (width * one) := by
    rw [Nat.mul_assoc]
    exact Nat.mul_le_mul_right _ (by omega)
  have hfour : width * 4 ≤ width * one := Nat.mul_le_mul_left _ hone
  have hscale : n * one * width = n * width * one := Nat.mul_right_comm ..
  constructor
  · refine Nat.le_of_mul_le_mul_right (c := width) ?_ hwidth
    rw [Nat.add_mul, Nat.mul_assoc 2, Nat.mul_assoc 2, hscale, Nat.mul_comm one]
    omega
  · refine Nat.lt_of_mul_lt_mul_right (a := width) ?_
    rw [Nat.add_mul, Nat.mul_assoc 2, Nat.mul_assoc 2, hscale, Nat.mul_comm one]
    omega

/-- A ratio that is a whole number of steps is not rounded. -/
theorem units_ofRatio_of_dvd {negative : Bool} {num : Nat} (h : 2 ^ excess num ∣ num)
    (hf : (ofRatio negative num 1).isFinite = true) : (ofRatio negative num 1).units = num := by
  rw [units_ofRatio hf, Nat.div_one, Nat.one_mul, roundHalfEven_of_dvd (Nat.two_pow_pos _) h,
    Nat.div_mul_cancel h]

/-- Whole numbers below `2 ^ 53` are floats. -/
theorem units_ofInt {i : Int} (h : i.natAbs < 2 ^ 53) : (ofInt i).units = i.natAbs * unitsPerOne := by
  obtain ⟨one, hone, hunits⟩ := exists_unitsPerOne_eq
  have hlt : i.natAbs * unitsPerOne < 2 ^ (53 + one) := by
    rw [hunits, Nat.pow_add]
    exact Nat.mul_lt_mul_of_pos_right h (Nat.two_pow_pos one)
  have hexcess : excess (i.natAbs * unitsPerOne) ≤ one := by
    have := excess_lt (by omega) hlt
    omega
  refine units_ofRatio_of_dvd ?_ (ofInt_spec (k := 53) (by decide) h).1
  rw [hunits] at hexcess ⊢
  exact Nat.dvd_mul_left_of_dvd (Nat.pow_dvd_pow 2 hexcess) _

theorem four_le_unitsPerOne : 4 ≤ unitsPerOne := by
  obtain ⟨one, hone, hunits⟩ := exists_unitsPerOne_eq
  rw [hunits]
  exact Nat.pow_le_pow_right (n := 2) (i := 2) (by decide) (by omega)

theorem le_overflowUnits_one : 2 ^ 53 * unitsPerOne ≤ overflowUnits := by
  obtain ⟨one, hone, hunits⟩ := exists_unitsPerOne_eq
  rw [hunits, ← Nat.pow_add]
  exact le_overflowUnits (by omega)

theorem isNegative_ofInt (i : Int) : (ofInt i).isNegative = decide (i < 0) := isNegative_ofRatio ..

theorem div_of_isFinite {x y : Binary64} (hx : x.isFinite = true) (hy : y.isFinite = true) (hy0 : y.isZero = false) :
    x.div y = ofRatio (x.isNegative != y.isNegative) (x.units * unitsPerOne) y.units := by
  obtain ⟨hxn, hxi⟩ := isFinite_iff.1 hx
  obtain ⟨hyn, hyi⟩ := isFinite_iff.1 hy
  simp only [div, hxn, hyn, hxi, hyi, hy0, Bool.or_false, Bool.false_eq_true, if_false]

/-- A number that is nearer than one half to a whole number is rounded to this. -/
theorem round_eq {x : Binary64} {n : Nat} (h : 2 * (n * unitsPerOne) ≤ 2 * x.units + unitsPerOne)
    (h' : 2 * x.units < 2 * (n * unitsPerOne) + unitsPerOne) : x.round = if x.isNegative then -(n : Int) else n := by
  have hpos := unitsPerOne_pos
  have hround : (2 * x.units + unitsPerOne) / (2 * unitsPerOne) = n := by
    rw [Nat.div_eq_iff (by omega)]
    generalize unitsPerOne = one at *
    rw [Nat.mul_left_comm]
    omega
  rw [round, hround]

end ConfigCompiler.Binary64
