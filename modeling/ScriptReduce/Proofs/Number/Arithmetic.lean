/-
ScriptReduce.Proofs.Number.Arithmetic: sums and products are rounded once.

The arithmetic of doubles unpacks two patterns, works on mantissas and exponents and
rounds what comes out to a mantissa that fits. Said in units, nothing of this is left:
a product is the point nearest to the product of units (`mul_ofMagnitude`), and a sum
the one nearest to the sum of units (`add_ofMagnitude`), both for numbers without a
sign. `pack_round` is the link. It shows that shifting a mantissa to the right and
rounding it by the bits shifted out is `divideToEven`, and so that the point packed at
the end is the one that `nearestUnits` finds.

Numbers without a sign never add or multiply to NaN unless one is zero and the other
infinite, so what is not NaN stays so (`isNaN_ofMagnitude`).
-/
import ScriptReduce.Proofs.Number.Rounding

namespace ScriptReduce.Binary64

/- Powers of natural numbers are core's own, whatever else is in scope. -/
attribute [local instance (high)] instPowNat

open Float.Model
open Float.Model.UnpackedFloat (Sign ExtendedMantissa packComponents unpackSign unpackExponent
  unpackMantissa roundWithAccuracy shiftToTargetExponent shiftToExponent packedInfinity)

/-! ## 1. Shifting a mantissa is division -/

/-- A mantissa shifted right by some bits: the last bit shifted out is the round bit,
and the sticky bit tells whether any of the bits before it was set. -/
def shifted (m k : Nat) : ExtendedMantissa :=
  if k = 0 then ⟨m, false, false⟩
  else ⟨m / 2 ^ k, m / 2 ^ (k - 1) % 2 == 1, m % 2 ^ (k - 1) != 0⟩

theorem mod_two_pow_succ (m k : Nat) :
    m % 2 ^ (k + 1) = 2 ^ k * (m / 2 ^ k % 2) + m % 2 ^ k := by
  rw [Nat.pow_succ, Nat.mod_mul, Nat.add_comm]

theorem shiftRight_eq_shifted (m k : Nat) :
    (⟨m, false, false⟩ : ExtendedMantissa) >>> k = shifted m k := by
  show Nat.repeat ExtendedMantissa.shiftRightOne k ⟨m, false, false⟩ = shifted m k
  induction k with
  | zero => rfl
  | succ k ih =>
    have hmod := mod_two_pow_succ m (k - 1)
    rw [Nat.repeat, ih]
    cases k with
    | zero => simp [shifted, ExtendedMantissa.shiftRightOne]; grind
    | succ j =>
      have hdiv : m / 2 ^ (j + 1) / 2 = m / 2 ^ (j + 1 + 1) := by
        rw [Nat.div_div_eq_div_mul, ← Nat.pow_succ]
      simp only [shifted, ExtendedMantissa.shiftRightOne, Nat.add_sub_cancel, Nat.succ_ne_zero,
        if_false, ExtendedMantissa.mk.injEq] at hmod ⊢
      refine ⟨hdiv, by grind, ?_⟩
      -- the old round bit joins the bits below it
      have hpos := Nat.two_pow_pos j
      rcases Nat.mod_two_eq_zero_or_one (m / 2 ^ j) with h | h <;> rw [h] at hmod ⊢ <;> grind

theorem mantissa_shifted (m k : Nat) : (shifted m k).mantissa = m / 2 ^ k := by
  unfold shifted
  split
  · rename_i h
    rw [h, Nat.pow_zero, Nat.div_one]
  · rfl

/-- Rounding by the bits shifted out is rounding the quotient. -/
theorem roundedMantissa_shifted (m k : Nat) :
    (shifted m k).roundedMantissa = divideToEven m (2 ^ k) := by
  cases k with
  | zero =>
    have h := divideToEven_mul m Nat.one_pos
    rw [Nat.mul_one] at h
    rw [Nat.pow_zero, h]
    rfl
  | succ k =>
    have hmod := mod_two_pow_succ m k
    have hpow : 2 ^ (k + 1) = 2 * 2 ^ k := by rw [Nat.pow_succ, Nat.mul_comm]
    have hlt : m % 2 ^ k < 2 ^ k := Nat.mod_lt _ (Nat.two_pow_pos k)
    simp only [shifted, Nat.succ_ne_zero, if_false, Nat.add_sub_cancel,
      ExtendedMantissa.roundedMantissa, divideToEven]
    rcases Nat.mod_two_eq_zero_or_one (m / 2 ^ k) with h | h <;>
      rcases Nat.eq_zero_or_pos (m % 2 ^ k) with h0 | h0 <;>
        rw [h] at hmod <;>
        simp [ExtendedMantissa.accuracy, h, UnpackedFloat.Accuracy.roundToNearestEven] <;> grind

/-! ## 2. The target of a shift -/

theorem targetExponent_eq (m : Nat) (e : Int) :
    Format.binary64.targetExponent (totalExponent m e) = max ((m.log2 : Int) + e - 52) (-1074) := by
  show max ((m.log2 : Int) + 1 + e - (1 + 52 : Nat)) (3 - 2 ^ (11 - 1) - (1 + 52 : Nat)) = _
  congr 1
  omega

/-- A mantissa is shifted to the right until it fits. -/
theorem shiftToTargetExponent_eq (m : Nat) (e : Int) :
    shiftToTargetExponent Format.binary64 m e .exact
      = (shifted m (max ((m.log2 : Int) + e - 52) (-1074) - e).toNat,
          e + (max ((m.log2 : Int) + e - 52) (-1074) - e).toNat) := by
  unfold shiftToTargetExponent
  simp only [targetExponent_eq]
  rw [← shiftRight_eq_shifted]
  rfl

theorem log2_div_two_pow (n k : Nat) : (n / 2 ^ k).log2 = n.log2 - k := by
  induction k with
  | zero => rw [Nat.pow_zero, Nat.div_one, Nat.sub_zero]
  | succ k ih =>
    rw [Nat.pow_succ, ← Nat.div_div_eq_div_mul, ← Nat.sub_sub, ← ih, Nat.log2_def (n / 2 ^ k)]
    generalize n / 2 ^ k = q
    by_cases h : 2 ≤ q
    · rw [if_pos h, Nat.add_sub_cancel]
    · have h0 : q / 2 = 0 := by omega
      rw [if_neg h, h0, Nat.log2_zero]

/-! ## 3. Packing what was rounded -/

/-- The bits of a point that is infinite or finite. -/
theorem toNat_signed_of_le (negative : Bool) {m : Nat} (h : m ≤ infinity) :
    (signed negative m).toNat = (if negative then 2 ^ (63 : Nat) else 0) + m := by
  rcases Nat.eq_or_lt_of_le h with rfl | h
  · cases negative <;> decide
  · exact toNat_signed negative h

/-- A mantissa with its exponent is packed as the point that many steps up, or as
infinity where the grid ends. -/
theorem pack_steps {r step : Nat} (hr : 0 < r) (hlt : r < 2 ^ (53 : Nat))
    (h : step = 0 ∨ 2 ^ (52 : Nat) ≤ r) :
    UnpackedFloat.pack Format.binary64 (.finite .positive r ((step : Int) - 1074) hr)
      = signed false (min infinity (step * 2 ^ (52 : Nat) + r)) := by
  have hbiased : ((step : Int) - 1074 + 1023 + 52).toNat = step + 1 := by omega
  rw [pack_finite, hbiased]
  apply BitVec.eq_of_toNat_eq
  rw [toNat_signed_of_le false (Nat.min_le_left _ _)]
  unfold infinity
  by_cases hover : 2 ^ (11 : Nat) ≤ step + 1 + 1
  · rw [if_pos hover, Nat.min_eq_left (by omega)]
    rfl
  · rw [if_neg hover]
    by_cases hnormal : 2 ^ (52 : Nat) ≤ r
    · have hlog : r.log2 + 1 = 53 := by
        rw [(Nat.log2_eq_iff (Nat.ne_of_gt hr)).2 ⟨hnormal, hlt⟩]
      rw [if_pos hlog, toNat_packComponents, BitVec.toNat_ofNat, BitVec.toNat_ofNat,
        Nat.min_eq_right (by omega)]
      show 0 * 2 ^ (63 : Nat) + _ + _ = 0 + _
      omega
    · have hlog : r.log2 + 1 ≠ 53 := by
        have := (Nat.log2_lt (Nat.ne_of_gt hr)).2 (Nat.lt_of_not_le hnormal)
        omega
      rw [if_neg hlog, toNat_packComponents, BitVec.toNat_ofNat r, Nat.min_eq_right (by omega)]
      show 0 * 2 ^ (63 : Nat) + 0 * 2 ^ (52 : Nat) + _ = 0 + _
      omega

/-- A mantissa with an exponent, or zero. -/
def finiteOrZero (mantissa : Nat) (e : Int) : UnpackedFloat :=
  if h : mantissa = 0 then .zero .positive
  else .finite .positive mantissa e (Nat.pos_of_ne_zero h)

/-- The last stage of rounding: a mantissa that has become one bit too long is shifted
once more. -/
def settled (r : Nat) (e : Int) : UnpackedFloat :=
  let final := shiftToTargetExponent Format.binary64 r e .exact
  finiteOrZero final.1.mantissa final.2

theorem pack_settled {r step : Nat} (hr : r ≤ 2 ^ (53 : Nat))
    (h : step = 0 ∨ 2 ^ (52 : Nat) ≤ r) :
    UnpackedFloat.pack Format.binary64 (settled r ((step : Int) - 1074))
      = signed false (min infinity (step * 2 ^ (52 : Nat) + r)) := by
  unfold settled
  simp only [shiftToTargetExponent_eq, mantissa_shifted]
  rcases Nat.eq_or_lt_of_le hr with rfl | hlt
  · have hone : (max (((2 ^ (53 : Nat)).log2 : Int) + ((step : Int) - 1074) - 52) (-1074)
        - ((step : Int) - 1074)).toNat = 1 := by
      rw [Nat.log2_two_pow]
      omega
    have hexp : (step : Int) - 1074 + (1 : Nat) = ((step + 1 : Nat) : Int) - 1074 := by omega
    have hhalf : 2 ^ (53 : Nat) / 2 ^ (1 : Nat) = 2 ^ (52 : Nat) := by decide
    simp only [hone, hexp, hhalf]
    have hpos : 0 < 2 ^ (52 : Nat) := Nat.two_pow_pos 52
    have hpack := @pack_steps _ (step + 1) hpos (by omega) (.inr (Nat.le_refl _))
    have hsum : step * 2 ^ (52 : Nat) + 2 ^ (53 : Nat)
        = (step + 1) * 2 ^ (52 : Nat) + 2 ^ (52 : Nat) := by omega
    rw [hsum, ← hpack, finiteOrZero, dif_neg (Nat.ne_of_gt hpos)]
  · have hzero : (max ((r.log2 : Int) + ((step : Int) - 1074) - 52) (-1074)
        - ((step : Int) - 1074)).toNat = 0 := by
      have := log2_lt_of_lt (by decide) hlt
      omega
    simp only [hzero, Nat.pow_zero, Nat.div_one, Int.natCast_zero, Int.add_zero]
    rcases Nat.eq_zero_or_pos r with rfl | hpos
    · have h0 : step = 0 := by omega
      rw [finiteOrZero, dif_pos rfl, h0]
      rfl
    · rw [finiteOrZero, dif_neg (Nat.ne_of_gt hpos), pack_steps hpos hlt h]

/-- Rounding a mantissa that has enough bits, or steps as small as they get, packs the
nearest point. -/
theorem pack_round {m : Nat} {e : Int} (hm : 0 < m) (h : 52 ≤ m.log2 ∨ e ≤ -1074) {a b : Nat}
    (he : e + 1074 = (a : Int) - b) :
    UnpackedFloat.pack Format.binary64 (roundWithAccuracy Format.binary64 .positive m e .exact)
      = signed false (min infinity (nearestUnits (m * 2 ^ a) (2 ^ b))) := by
  have hlog : (m * 2 ^ a / 2 ^ b).log2 = m.log2 + a - b := by
    rw [log2_div_two_pow, log2_mul_two_pow hm]
  have hstep : stepOf (m * 2 ^ a) (2 ^ b) = m.log2 + a - b + 1 - 53 := by rw [stepOf, hlog]
  obtain ⟨hle, hlow⟩ := @rounded_bounds (m * 2 ^ a) (2 ^ b)
  -- the shift that rounding makes, and the exponent after it
  generalize hk : (max ((m.log2 : Int) + e - 52) (-1074) - e).toNat = k
  have hexp : e + k = (stepOf (m * 2 ^ a) (2 ^ b) : Int) - 1074 := by omega
  have hround : divideToEven (m * 2 ^ a) (2 ^ b * 2 ^ stepOf (m * 2 ^ a) (2 ^ b))
      = divideToEven m (2 ^ k) := by
    rw [← Nat.pow_add, show b + stepOf (m * 2 ^ a) (2 ^ b) = k + a by omega, Nat.pow_add,
      divideToEven_mul_right _ _ (Nat.two_pow_pos a)]
  have hsettled : roundWithAccuracy Format.binary64 .positive m e .exact
      = settled (divideToEven m (2 ^ k)) (e + k) := by
    show settled (shiftToTargetExponent Format.binary64 m e .exact).1.roundedMantissa
      (shiftToTargetExponent Format.binary64 m e .exact).2 = _
    rw [shiftToTargetExponent_eq, hk, roundedMantissa_shifted]
  rw [hround] at hle hlow
  rw [hsettled, hexp, pack_settled hle hlow, nearestUnits, hround]

/-- The same for any mantissa: one with too few bits is first shifted to the left. -/
theorem pack_round_short {m : Nat} {e : Int} (hm : 0 < m) {a b : Nat}
    (he : e + 1074 = (a : Int) - b) :
    UnpackedFloat.pack Format.binary64 (UnpackedFloat.round Format.binary64 .positive m e)
      = signed false (min infinity (nearestUnits (m * 2 ^ a) (2 ^ b))) := by
  generalize hs : (e - max ((m.log2 : Int) + e - 52) (-1074)).toNat = s
  have hround : UnpackedFloat.round Format.binary64 .positive m e
      = roundWithAccuracy Format.binary64 .positive (m * 2 ^ s) (e - s) .exact := by
    simp only [UnpackedFloat.round, UnpackedFloat.decreaseExponent, targetExponent_eq, hs,
      Nat.shiftLeft_eq]
  have hlog := log2_mul_two_pow hm s
  have hpack := @pack_round (m * 2 ^ s) (e - s) (Nat.mul_pos hm (Nat.two_pow_pos s)) (by omega)
    a (b + s) (by omega)
  rw [hround, hpack, Nat.mul_right_comm, Nat.pow_add,
    nearestUnits_mul_right _ _ (Nat.two_pow_pos s)]

/-! ## 4. Unpacking -/

theorem pattern_ofMagnitude_of_le (negative : Bool) {m : Nat} (h : m ≤ infinity) :
    pattern (ofMagnitude negative m) = signed negative m := by
  rcases Nat.eq_or_lt_of_le h with rfl | h
  · cases negative <;> decide
  · exact pattern_ofMagnitude negative h

/-- A finite number other than zero is unpacked to a mantissa with an exponent. The
mantissa has all its bits, unless the exponent is the least. -/
theorem exists_unpack {m : Nat} (h0 : 0 < m) (hm : m < infinity) :
    ∃ (r e : Nat) (hr : 0 < r),
      UnpackedFloat.unpack Format.binary64 (pattern (ofMagnitude false m))
        = .finite .positive r ((e : Int) - 1074) hr ∧
      units m = r * 2 ^ e ∧ (52 ≤ r.log2 ∨ e = 0) ∧ r < 2 ^ (53 : Nat) := by
  have hbits := toNat_signed false hm
  simp only [Bool.false_eq_true, if_false, Nat.zero_add] at hbits
  have hsign := toNat_unpackSign (signed false m)
  have hexp := toNat_unpackExponent (signed false m)
  have hfrac := toNat_unpackMantissa (signed false m)
  have hne := exponent_signed_ne false hm
  rw [pattern_ofMagnitude false hm, unpack_eq_ofFields]
  rw [hbits] at hsign hexp hfrac
  unfold infinity at hm
  have hpositive : unpackSign (signed false m) = 0#1 :=
    BitVec.eq_of_toNat_eq (by rw [hsign]; show m / 2 ^ (63 : Nat) = 0; omega)
  rw [hpositive]
  generalize unpackExponent (signed false m) = e at hexp hne ⊢
  generalize unpackMantissa (signed false m) = f at hfrac ⊢
  unfold ofFields
  rw [if_neg hne]
  by_cases he : e = 0#_
  · have he0 : m / 2 ^ (52 : Nat) = 0 := by
      have : e.toNat = 0 := by rw [he]; rfl
      omega
    have hf : f ≠ 0#_ := by
      intro hf
      have : f.toNat = 0 := by rw [hf]; rfl
      omega
    rw [if_pos he, dif_neg hf]
    have hlt : f.toNat < 2 ^ (52 : Nat) := f.isLt
    refine ⟨f.toNat, 0, toNat_pos_of_ne_zero hf, ?_, ?_, .inr rfl, by omega⟩
    · rw [he]
      rfl
    · rw [units_of_exponent_eq_zero he0, hfrac, Nat.pow_zero, Nat.mul_one]
  · have hpos : 0 < e.toNat := toNat_pos_of_ne_zero he
    have he0 : m / 2 ^ (52 : Nat) = e.toNat := by omega
    have hhidden := toNat_hidden_append f
    have hlog : (2 ^ (52 : Nat) + f.toNat).log2 = 52 := by
      rw [Nat.log2_eq_iff (by omega)]; omega
    rw [if_neg he]
    have hlog' : (1#1 ++ f).toNat.log2 = 52 := by rw [hhidden, hlog]
    have hexponent : (e.toNat : Int) - 1075 = ((e.toNat - 1 : Nat) : Int) - 1074 := by omega
    have hlt : f.toNat < 2 ^ (52 : Nat) := f.isLt
    refine ⟨(1#1 ++ f).toNat, e.toNat - 1, by omega, ?_, ?_,
      .inl (Nat.le_of_eq hlog'.symm), by omega⟩
    · rw [hexponent]
      rfl
    · rw [units_of_exponent_ne_zero (by omega), he0, hhidden, hfrac]

/-! ## 5. Products and sums -/

theorem pattern_mul (x y : Float) :
    pattern (x * y) = UnpackedFloat.pack Format.binary64
      (UnpackedFloat.mul Format.binary64 (UnpackedFloat.unpack Format.binary64 (pattern x))
        (UnpackedFloat.unpack Format.binary64 (pattern y))) := rfl

theorem pattern_add (x y : Float) :
    pattern (x + y) = UnpackedFloat.pack Format.binary64
      (UnpackedFloat.add Format.binary64 (UnpackedFloat.unpack Format.binary64 (pattern x))
        (UnpackedFloat.unpack Format.binary64 (pattern y))) := rfl

theorem unpack_zero :
    UnpackedFloat.unpack Format.binary64 (pattern (ofMagnitude false 0)) = .zero .positive := rfl

theorem unpack_infinity :
    UnpackedFloat.unpack Format.binary64 (pattern (ofMagnitude false infinity))
      = .infinity .positive := rfl

/-- What was unpacked from a finite number is packed again as it was. -/
theorem pack_unpack {m : Nat} (hm : m < infinity) :
    UnpackedFloat.pack Format.binary64
        (UnpackedFloat.unpack Format.binary64 (pattern (ofMagnitude false m)))
      = signed false m := by
  rw [pattern_ofMagnitude false hm]
  exact pattern_ofMagnitude false hm

theorem nearestUnits_zero {d : Nat} (hd : 0 < d) : nearestUnits 0 d = 0 := by
  have h := nearestUnits_mul_right 0 1 hd
  rw [Nat.zero_mul, Nat.one_mul] at h
  rw [h]
  exact nearestUnits_units 0

/-- A product is rounded once. -/
theorem mul_ofMagnitude {x y : Nat} (hx : x < infinity) (hy : y < infinity) :
    ofMagnitude false x * ofMagnitude false y
      = ofMagnitude false (min infinity (nearestUnits (units x * units y) one)) := by
  have hunits : units 0 = 0 := rfl
  apply ext_pattern
  rw [pattern_mul, pattern_ofMagnitude_of_le false (Nat.min_le_left _ _)]
  rcases Nat.eq_zero_or_pos x with rfl | hx0
  · rw [unpack_zero, hunits, Nat.zero_mul, nearestUnits_zero one_pos]
    rcases Nat.eq_zero_or_pos y with rfl | hy0
    · rw [unpack_zero]
      rfl
    · obtain ⟨r, e, hr, hunpack, -, -⟩ := exists_unpack hy0 hy
      rw [hunpack]
      rfl
  · obtain ⟨r, e, hr, hunpack, hvalue, hbits⟩ := exists_unpack hx0 hx
    rw [hunpack, hvalue]
    rcases Nat.eq_zero_or_pos y with rfl | hy0
    · rw [unpack_zero, hunits, Nat.mul_zero, nearestUnits_zero one_pos]
      rfl
    · obtain ⟨r', e', hr', hunpack', hvalue', hbits'⟩ := exists_unpack hy0 hy
      have hlog : r.log2 ≤ (r * r').log2 := log2_le_log2 (Nat.le_mul_of_pos_right _ hr')
      have hlog' : r'.log2 ≤ (r * r').log2 := log2_le_log2 (Nat.le_mul_of_pos_left _ hr)
      have hproduct : r * 2 ^ e * (r' * 2 ^ e') = r * r' * 2 ^ (e + e') := by
        rw [Nat.pow_add]
        ac_rfl
      have hmul : UnpackedFloat.mul Format.binary64 (.finite .positive r ((e : Int) - 1074) hr)
            (.finite .positive r' ((e' : Int) - 1074) hr')
          = roundWithAccuracy Format.binary64 .positive (r * r')
              ((e : Int) - 1074 + ((e' : Int) - 1074)) .exact := rfl
      have hpack := @pack_round (r * r') ((e : Int) - 1074 + ((e' : Int) - 1074))
        (Nat.mul_pos hr hr') (by omega) (e + e') 1074 (by omega)
      rw [hunpack', hvalue', hproduct, hmul, hpack, one]

/-- Two mantissas are brought to the smaller exponent and added. -/
theorem add_finite {m m' : Nat} (e e' : Int) (hm : 0 < m) (hm' : 0 < m') :
    UnpackedFloat.add Format.binary64 (.finite .positive m e hm) (.finite .positive m' e' hm')
      = UnpackedFloat.normalize Format.binary64
          ((m * 2 ^ (e - min e e').toNat + m' * 2 ^ (e' - min e e').toNat : Nat) : Int)
          (min e e') .positive := by
  show UnpackedFloat.normalize Format.binary64
    (((m <<< (e - min e e').toNat : Nat) : Int) + ((m' <<< (e' - min e e').toNat : Nat) : Int))
    (min e e') .positive = _
  rw [Nat.shiftLeft_eq, Nat.shiftLeft_eq, ← Int.natCast_add]

theorem normalize_of_pos {m : Nat} (hm : 0 < m) (e : Int) :
    UnpackedFloat.normalize Format.binary64 (m : Int) e .positive
      = UnpackedFloat.round Format.binary64 .positive m e := by
  have hcompare : compare (m : Int) 0 = .gt := Int.compare_eq_gt.2 (by omega)
  simp only [UnpackedFloat.normalize, hcompare, Int.toNat_natCast]

theorem pack_add_finite {m m' : Nat} (e e' : Nat) (hm : 0 < m) (hm' : 0 < m') :
    UnpackedFloat.pack Format.binary64
        (UnpackedFloat.add Format.binary64 (.finite .positive m ((e : Int) - 1074) hm)
          (.finite .positive m' ((e' : Int) - 1074) hm'))
      = signed false (min infinity (nearestUnits (m * 2 ^ e + m' * 2 ^ e') 1)) := by
  obtain ⟨k, hk⟩ : ∃ k, k = min e e' := ⟨_, rfl⟩
  have hmin : min ((e : Int) - 1074) ((e' : Int) - 1074) = (k : Int) - 1074 := by omega
  have hshift : ((e : Int) - 1074 - ((k : Int) - 1074)).toNat = e - k := by omega
  have hshift' : ((e' : Int) - 1074 - ((k : Int) - 1074)).toNat = e' - k := by omega
  have hsum : m * 2 ^ e + m' * 2 ^ e' = (m * 2 ^ (e - k) + m' * 2 ^ (e' - k)) * 2 ^ k := by
    rw [Nat.add_mul, Nat.mul_assoc, Nat.mul_assoc, ← Nat.pow_add, ← Nat.pow_add,
      Nat.sub_add_cancel (by omega), Nat.sub_add_cancel (by omega)]
  have hpos : 0 < m * 2 ^ (e - k) + m' * 2 ^ (e' - k) :=
    Nat.add_pos_left (Nat.mul_pos hm (Nat.two_pow_pos _)) _
  have hpack := @pack_round_short _ ((k : Int) - 1074) hpos k 0 (by omega)
  rw [add_finite, hmin, hshift, hshift', normalize_of_pos hpos, hpack, hsum, Nat.pow_zero]

/-- Zero adds nothing. -/
theorem add_unpack_zero {m : Nat} (hm : m < infinity) :
    UnpackedFloat.add Format.binary64 (.zero .positive)
        (UnpackedFloat.unpack Format.binary64 (pattern (ofMagnitude false m)))
      = UnpackedFloat.unpack Format.binary64 (pattern (ofMagnitude false m)) ∧
    UnpackedFloat.add Format.binary64
        (UnpackedFloat.unpack Format.binary64 (pattern (ofMagnitude false m))) (.zero .positive)
      = UnpackedFloat.unpack Format.binary64 (pattern (ofMagnitude false m)) := by
  rcases Nat.eq_zero_or_pos m with rfl | hpos
  · rw [unpack_zero]
    exact ⟨rfl, rfl⟩
  · obtain ⟨r, e, hr, hunpack, -, -⟩ := exists_unpack hpos hm
    rw [hunpack]
    exact ⟨rfl, rfl⟩

/-- A sum is rounded once. -/
theorem add_ofMagnitude {x y : Nat} (hx : x < infinity) (hy : y < infinity) :
    ofMagnitude false x + ofMagnitude false y
      = ofMagnitude false (min infinity (nearestUnits (units x + units y) 1)) := by
  have hunits : units 0 = 0 := rfl
  apply ext_pattern
  rw [pattern_add, pattern_ofMagnitude_of_le false (Nat.min_le_left _ _)]
  rcases Nat.eq_zero_or_pos x with rfl | hx0
  · rw [unpack_zero, (add_unpack_zero hy).1, pack_unpack hy, hunits, Nat.zero_add,
      nearestUnits_units, Nat.min_eq_right (Nat.le_of_lt hy)]
  · rcases Nat.eq_zero_or_pos y with rfl | hy0
    · rw [unpack_zero, (add_unpack_zero hx).2, pack_unpack hx, hunits, Nat.add_zero,
        nearestUnits_units, Nat.min_eq_right (Nat.le_of_lt hx)]
    · obtain ⟨r, e, hr, hunpack, hvalue, -⟩ := exists_unpack hx0 hx
      obtain ⟨r', e', hr', hunpack', hvalue', -⟩ := exists_unpack hy0 hy
      rw [hunpack, hunpack', hvalue, hvalue', pack_add_finite]

/-- A product with infinity is infinite, unless the other factor is zero. -/
theorem infinity_mul_ofMagnitude {m : Nat} (h0 : 0 < m) (hm : m < infinity) :
    ofMagnitude false infinity * ofMagnitude false m = ofMagnitude false infinity := by
  obtain ⟨r, e, hr, hunpack, -, -⟩ := exists_unpack h0 hm
  apply ext_pattern
  rw [pattern_mul, unpack_infinity, hunpack, pattern_ofMagnitude_of_le false (Nat.le_refl _)]
  rfl

/-- A sum with infinity is infinite. -/
theorem infinity_add_ofMagnitude {m : Nat} (hm : m < infinity) :
    ofMagnitude false infinity + ofMagnitude false m = ofMagnitude false infinity := by
  apply ext_pattern
  rw [pattern_add, unpack_infinity, pattern_ofMagnitude_of_le false (Nat.le_refl _)]
  rcases Nat.eq_zero_or_pos m with rfl | hpos
  · rfl
  · obtain ⟨r, e, hr, hunpack, -, -⟩ := exists_unpack hpos hm
    rw [hunpack]
    rfl

/-! ## 6. What is not NaN -/

theorem isNaN_ofMagnitude (negative : Bool) {m : Nat} (hm : m ≤ infinity) :
    (ofMagnitude negative m).isNaN = false := by
  rcases Nat.eq_or_lt_of_le hm with rfl | hlt
  · cases negative <;> rfl
  · refine isNaN_of_isFinite (isFinite_iff.2 ?_)
    rw [pattern_ofMagnitude negative hlt]
    exact exponent_signed_ne negative hlt

theorem isNegative_ofMagnitude_of_le (negative : Bool) {m : Nat} (hm : m ≤ infinity) :
    isNegative (ofMagnitude negative m) = negative := by
  rcases Nat.eq_or_lt_of_le hm with rfl | hlt
  · cases negative <;> rfl
  · exact isNegative_ofMagnitude negative hlt

theorem neg_ofMagnitude_of_le {m : Nat} (hm : m ≤ infinity) :
    -ofMagnitude false m = ofMagnitude true m := by
  rcases Nat.eq_or_lt_of_le hm with rfl | hlt
  · exact ext_pattern (by decide)
  · exact neg_ofMagnitude hlt

/-- A number is equal to itself. -/
theorem beq_self {x : Float} (h : x.isNaN = false) : (x == x) = true := by
  have hnan : (UnpackedFloat.unpack Format.binary64 (pattern x)).isNaN = false := h
  show (UnpackedFloat.unpack Format.binary64 (pattern x)).beq
    (UnpackedFloat.unpack Format.binary64 (pattern x)) = true
  cases hu : UnpackedFloat.unpack Format.binary64 (pattern x) with
  | notANumber =>
    rw [hu] at hnan
    cases hnan
  | infinity s => cases s <;> rfl
  | zero s => rfl
  | finite s m e hm =>
    have hequal : (compare e e).then (compare m m) = .eq := by simp
    cases s
    · show (some ((compare e e).then (compare m m)).swap == some Ordering.eq) = true
      rw [hequal]
      rfl
    · show (some ((compare e e).then (compare m m)) == some Ordering.eq) = true
      rw [hequal]
      rfl

theorem magnitude_ofMagnitude (negative : Bool) {m : Nat} (hm : m ≤ infinity) :
    magnitude (ofMagnitude negative m) = m := by
  have hbits := toNat_signed_of_le negative hm
  unfold magnitude
  rw [← toNat_pattern, pattern_ofMagnitude_of_le negative hm, hbits]
  unfold infinity at hm
  split <;> omega

end ScriptReduce.Binary64
