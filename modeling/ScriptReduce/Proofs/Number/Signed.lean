/-
ScriptReduce.Proofs.Number.Signed: doubles with a sign, and results that are exact.

A finite double stands for a number of units with a sign (`signedUnits`). The order of
doubles is the order of these integers (`lt_iff`, `le_iff`), and a sum is exact whenever
the grid has a point at the sum of the two integers (`signedUnits_add`). So it is enough
to know where there are points. A mantissa that fits is one, any number of steps up
(`exists_units`), and hence the remainder of two points is one, and so is the integer part
of a point (`exists_units_mod`, `exists_units_whole`): remainders and integer parts are
exact for all doubles, however large.
-/
import ScriptReduce.Proofs.Number.Arithmetic

namespace ScriptReduce.Binary64

/- Powers of natural numbers are core's own, whatever else is in scope. -/
attribute [local instance (high)] instPowNat

open Float.Model
open Float.Model.UnpackedFloat (Sign packComponents unpackSign unpackExponent unpackMantissa)

/-! ## 1. Points of the grid -/

/-- A mantissa that fits is a point, any number of steps up. -/
theorem exists_units {k : Nat} (hk : k ≤ 2 ^ (53 : Nat)) (step : Nat) :
    ∃ m, units m = k * 2 ^ step := by
  induction step generalizing k with
  | zero => exact ⟨_, units_steps hk (.inl rfl)⟩
  | succ step ih =>
    by_cases hfull : 2 ^ (52 : Nat) ≤ k
    · exact ⟨_, units_steps hk (.inr hfull)⟩
    · -- the mantissa has room for one of the steps
      obtain ⟨m, hm⟩ := @ih (2 * k) (by omega)
      exact ⟨m, by rw [hm, Nat.pow_succ]; ac_rfl⟩

/-- What does not lie above a finite point is finite. -/
theorem lt_infinity_of_units_le {m m' : Nat} (h : units m ≤ units m') (hm' : m' < infinity) :
    m < infinity := by
  refine Nat.lt_of_not_le fun hle => ?_
  have := units_lt_units (Nat.lt_of_lt_of_le hm' hle)
  omega

/-- The position of a point, as a mantissa and a number of steps. -/
theorem units_eq_steps (m : Nat) :
    ∃ r step : Nat, units m = r * 2 ^ step ∧ r < 2 ^ (53 : Nat) ∧
      (step = 0 ∨ 2 ^ (52 : Nat) ≤ r) := by
  have hfrac : m % 2 ^ (52 : Nat) < 2 ^ (52 : Nat) := Nat.mod_lt _ (Nat.two_pow_pos 52)
  by_cases he : m / 2 ^ (52 : Nat) = 0
  · exact ⟨m % 2 ^ (52 : Nat), 0, by rw [units_of_exponent_eq_zero he, Nat.pow_zero, Nat.mul_one],
      by omega, .inl rfl⟩
  · exact ⟨_, _, units_of_exponent_ne_zero he, by omega, .inr (Nat.le_add_right _ _)⟩

/-- The remainder of two points is a point. -/
theorem exists_units_mod {x y : Nat} (hx : x < infinity) (hy : 0 < y) :
    ∃ m < infinity, units m = units x % units y := by
  rcases Nat.lt_or_ge (units x) (units y) with hlt | hge
  · exact ⟨x, hx, (Nat.mod_eq_of_lt hlt).symm⟩
  · obtain ⟨r, step, hr, hfit, hfull⟩ := units_eq_steps y
    have hpos : 0 < r := Nat.pos_of_ne_zero fun h0 => by
      have := units_pos hy
      rw [hr, h0, Nat.zero_mul] at this
      omega
    -- the dividend is not below the divisor, so it is a whole number of the same steps
    have hgrid : ∃ k, units x = k * 2 ^ step := by
      rcases units_grid x step with hk | ⟨hstep, hlow⟩
      · exact hk
      · have := Nat.mul_le_mul_right (2 ^ step) (hfull.resolve_left (by omega))
        omega
    obtain ⟨k, hk⟩ := hgrid
    have hmod : units x % units y = k % r * 2 ^ step := by rw [hk, hr, Nat.mul_mod_mul_right]
    obtain ⟨m, hm⟩ := exists_units (Nat.le_of_lt (Nat.lt_trans (Nat.mod_lt k hpos) hfit)) step
    refine ⟨m, lt_infinity_of_units_le ?_ hx, hm.trans hmod.symm⟩
    rw [hm, ← hmod]
    exact Nat.mod_le _ _

theorem one_eq : one = 2 ^ (1074 : Nat) := by rw [one]

/-- The integer part of a point is a point. -/
theorem exists_units_whole {m : Nat} (hm : m < infinity) :
    ∃ m' < infinity, units m' = units m / one * one := by
  have hexists : ∃ m', units m' = units m / one * one := by
    rcases Nat.lt_or_ge (units m / one) (2 ^ (53 : Nat)) with hlt | hge
    · rw [one_eq] at hlt ⊢
      exact exists_units (Nat.le_of_lt hlt) 1074
    · -- so far up there are only whole numbers
      have hhigh := (Nat.le_div_iff_mul_le one_pos).1 hge
      rcases units_grid m 1074 with ⟨k, hk⟩ | ⟨-, hlow⟩
      · rw [← one_eq] at hk
        exact ⟨m, by rw [hk, Nat.mul_div_cancel _ one_pos]⟩
      · rw [← one_eq] at hlow
        omega
  obtain ⟨m', h⟩ := hexists
  refine ⟨m', lt_infinity_of_units_le ?_ hm, h⟩
  rw [h]
  exact Nat.div_mul_le_self _ _

/-- Up to `2 ^ 53`, natural numbers are points. -/
theorem exists_units_natural {n : Nat} (hn : n ≤ 2 ^ (53 : Nat)) :
    ∃ m < infinity, units m = n * one := by
  have htop := @units_steps 1074 _ (Nat.le_refl _) (.inr (by decide))
  have hfinite : 1074 * 2 ^ (52 : Nat) + 2 ^ (53 : Nat) < infinity := by decide
  obtain ⟨m, hm⟩ := exists_units hn 1074
  rw [← one_eq] at hm htop
  refine ⟨m, lt_infinity_of_units_le ?_ hfinite, hm⟩
  rw [hm, htop]
  exact Nat.mul_le_mul_right _ hn

/-! ## 2. Signs -/

/-- A natural number with a sign in front of it. -/
def withSign (negative : Bool) (n : Nat) : Int := if negative then -(n : Int) else n

@[simp] theorem withSign_false (n : Nat) : withSign false n = n := rfl

@[simp] theorem withSign_true (n : Nat) : withSign true n = -(n : Int) := rfl

@[simp] theorem withSign_units_zero (negative : Bool) : withSign negative (units 0) = 0 := by
  revert negative
  decide

/-- What a finite double stands for, in units. -/
def signedUnits (x : Float) : Int := withSign (isNegative x) (units (magnitude x))

theorem isFinite_ofMagnitude (negative : Bool) {m : Nat} (hm : m < infinity) :
    (ofMagnitude negative m).isFinite := by
  rw [isFinite_iff, pattern_ofMagnitude negative hm]
  exact exponent_signed_ne negative hm

theorem signedUnits_ofMagnitude (negative : Bool) {m : Nat} (hm : m < infinity) :
    signedUnits (ofMagnitude negative m) = withSign negative (units m) := by
  rw [signedUnits, isNegative_ofMagnitude negative hm,
    magnitude_ofMagnitude negative (Nat.le_of_lt hm)]

/-- The sign that a sign bit stands for. -/
def signOf (negative : Bool) : Sign := if negative then .negative else .positive

theorem apply_signOf (negative : Bool) (n : Nat) :
    (signOf negative).apply n = withSign negative n := by
  cases negative <;> rfl

/-- The other sign is unpacked to the other sign. -/
theorem unpack_negative {m : Nat} (hm : m < infinity) :
    UnpackedFloat.unpack Format.binary64 (pattern (ofMagnitude true m))
      = (UnpackedFloat.unpack Format.binary64 (pattern (ofMagnitude false m))).neg := by
  have hneg : pattern (-ofMagnitude false m) = pattern (ofMagnitude true m) := by
    rw [neg_ofMagnitude hm]
  have htrue := toNat_signed true hm
  have hfalse := toNat_signed false hm
  have hbound := hm
  unfold infinity at hbound
  rw [pattern_ofMagnitude true hm, pattern_ofMagnitude false hm, unpack_eq_ofFields,
    unpack_eq_ofFields, neg_ofFields]
  simp only [if_true, Bool.false_eq_true, if_false] at htrue hfalse
  have hexponent : unpackExponent (signed true m) = unpackExponent (signed false m) := by
    apply BitVec.eq_of_toNat_eq
    rw [toNat_unpackExponent, toNat_unpackExponent, htrue, hfalse]
    omega
  have hmantissa : unpackMantissa (signed true m) = unpackMantissa (signed false m) := by
    apply BitVec.eq_of_toNat_eq
    rw [toNat_unpackMantissa, toNat_unpackMantissa, htrue, hfalse]
    omega
  have hsign : unpackSign (signed true m) = 1#1 := by
    apply BitVec.eq_of_toNat_eq
    rw [toNat_unpackSign, htrue]
    show (2 ^ (63 : Nat) + m) / 2 ^ (63 : Nat) = 1
    omega
  have hsign' : unpackSign (signed false m) = 0#1 := by
    apply BitVec.eq_of_toNat_eq
    rw [toNat_unpackSign, hfalse]
    show (0 + m) / 2 ^ (63 : Nat) = 0
    omega
  rw [hexponent, hmantissa, hsign, hsign']
  rfl

theorem unpack_zero_signed (negative : Bool) :
    UnpackedFloat.unpack Format.binary64 (pattern (ofMagnitude negative 0))
      = .zero (signOf negative) := by
  cases negative <;> rfl

/-- A finite number other than zero is unpacked to its sign and its steps. -/
theorem exists_unpack_signed {m : Nat} (h0 : 0 < m) (hm : m < infinity) :
    ∃ (r e : Nat) (hr : 0 < r),
      (∀ negative, UnpackedFloat.unpack Format.binary64 (pattern (ofMagnitude negative m))
        = .finite (signOf negative) r ((e : Int) - 1074) hr) ∧
      units m = r * 2 ^ e ∧ (2 ^ (52 : Nat) ≤ r ∨ e = 0) ∧ r < 2 ^ (53 : Nat) := by
  obtain ⟨r, e, hr, hunpack, hvalue, hbits, hfit⟩ := exists_unpack h0 hm
  refine ⟨r, e, hr, fun negative => ?_, hvalue, hbits.imp_left fun hlog => ?_, hfit⟩
  · cases negative with
    | false => exact hunpack
    | true =>
      rw [unpack_negative hm, hunpack]
      rfl
  · exact (Nat.le_log2 (Nat.ne_of_gt hr)).1 hlog

/-! ## 3. Order -/

/-- Of two mantissas that have all their bits, the one with more steps is greater. -/
theorem steps_lt {r r' e e' : Nat} (hr : r < 2 ^ (53 : Nat)) (hr' : 2 ^ (52 : Nat) ≤ r' ∨ e' = 0)
    (h : e < e') : r * 2 ^ e < r' * 2 ^ e' := by
  calc r * 2 ^ e < 2 ^ (53 : Nat) * 2 ^ e := Nat.mul_lt_mul_of_pos_right hr (Nat.two_pow_pos e)
    _ = 2 ^ (52 : Nat) * 2 ^ (e + 1) := by rw [Nat.pow_succ 2 52, Nat.pow_succ 2 e]; ac_rfl
    _ ≤ r' * 2 ^ e' := Nat.mul_le_mul (hr'.resolve_right (by omega))
      (Nat.pow_le_pow_right (by decide) h)

theorem compare_steps {r r' e e' : Nat} (hr : r < 2 ^ (53 : Nat)) (hr' : r' < 2 ^ (53 : Nat))
    (hfull : 2 ^ (52 : Nat) ≤ r ∨ e = 0) (hfull' : 2 ^ (52 : Nat) ≤ r' ∨ e' = 0) :
    (compare ((e : Int) - 1074) ((e' : Int) - 1074)).then (compare r r')
      = compare (r * 2 ^ e) (r' * 2 ^ e') := by
  rcases Nat.lt_trichotomy e e' with hlt | rfl | hgt
  · rw [Int.compare_eq_lt.2 (by omega), Nat.compare_eq_lt.2 (steps_lt hr hfull' hlt)]
    rfl
  · rw [Int.compare_eq_eq.2 rfl, Ordering.eq_then]
    have hpow := Nat.two_pow_pos e
    rcases Nat.lt_trichotomy r r' with hlt | rfl | hgt
    · rw [Nat.compare_eq_lt.2 hlt, Nat.compare_eq_lt.2 (Nat.mul_lt_mul_of_pos_right hlt hpow)]
    · rw [Nat.compare_eq_eq.2 rfl, Nat.compare_eq_eq.2 rfl]
    · rw [Nat.compare_eq_gt.2 hgt, Nat.compare_eq_gt.2 (Nat.mul_lt_mul_of_pos_right hgt hpow)]
  · rw [Int.compare_eq_gt.2 (by omega), Nat.compare_eq_gt.2 (steps_lt hr' hfull hgt)]
    rfl

theorem compare_natCast (a b : Nat) : compare (a : Int) b = compare a b := by
  rcases Nat.lt_trichotomy a b with hlt | rfl | hgt
  · rw [Nat.compare_eq_lt.2 hlt, Int.compare_eq_lt.2 (by omega)]
  · rw [Nat.compare_eq_eq.2 rfl, Int.compare_eq_eq.2 rfl]
  · rw [Nat.compare_eq_gt.2 hgt, Int.compare_eq_gt.2 (by omega)]

theorem compare_neg_natCast (a b : Nat) :
    compare (-(a : Int)) (-(b : Int)) = (compare a b).swap := by
  rw [Nat.compare_swap, ← compare_natCast]
  rcases Nat.lt_trichotomy a b with hlt | rfl | hgt
  · rw [Int.compare_eq_gt.2 (by omega), Int.compare_eq_gt.2 (by omega)]
  · rw [Int.compare_eq_eq.2 rfl, Int.compare_eq_eq.2 rfl]
  · rw [Int.compare_eq_lt.2 (by omega), Int.compare_eq_lt.2 (by omega)]

theorem compare_zero_withSign (negative : Bool) {n : Nat} (hn : 0 < n) :
    compare 0 (withSign negative n) = if negative then .gt else .lt := by
  cases negative
  · exact Int.compare_eq_lt.2 (by rw [withSign_false]; omega)
  · exact Int.compare_eq_gt.2 (by rw [withSign_true]; omega)

/-- Different signs decide, and two minus signs turn the order round. -/
theorem compare_withSign (negative negative' : Bool) {m n : Nat} (hm : 0 < m) (hn : 0 < n) :
    compare (withSign negative m) (withSign negative' n) =
      match negative, negative' with
      | false, false => compare m n
      | false, true => .gt
      | true, false => .lt
      | true, true => (compare m n).swap := by
  cases negative <;> cases negative'
  · exact compare_natCast m n
  · exact Int.compare_eq_gt.2 (by rw [withSign_false, withSign_true]; omega)
  · exact Int.compare_eq_lt.2 (by rw [withSign_false, withSign_true]; omega)
  · exact compare_neg_natCast m n

/-- Finite doubles are ordered as what they stand for. -/
theorem compare_eq_signedUnits {x y : Float} (hx : x.isFinite) (hy : y.isFinite) :
    (UnpackedFloat.unpack Format.binary64 (pattern x)).compare
        (UnpackedFloat.unpack Format.binary64 (pattern y))
      = some (compare (signedUnits x) (signedUnits y)) := by
  rw [← ofMagnitude_magnitude hx, ← ofMagnitude_magnitude hy]
  have hm := magnitude_lt_infinity hx
  have hm' := magnitude_lt_infinity hy
  generalize magnitude x = m at hm ⊢
  generalize magnitude y = m' at hm' ⊢
  rw [signedUnits_ofMagnitude _ hm, signedUnits_ofMagnitude _ hm']
  rcases Nat.eq_zero_or_pos m with rfl | hpos
  · rw [unpack_zero_signed, withSign_units_zero]
    rcases Nat.eq_zero_or_pos m' with rfl | hpos'
    · rw [unpack_zero_signed, withSign_units_zero]
      rfl
    · obtain ⟨r, e, hr, hunpack, -⟩ := exists_unpack_signed hpos' hm'
      rw [hunpack, compare_zero_withSign _ (units_pos hpos')]
      cases isNegative y <;> rfl
  · obtain ⟨r, e, hr, hunpack, hvalue, hfull, hfit⟩ := exists_unpack_signed hpos hm
    rcases Nat.eq_zero_or_pos m' with rfl | hpos'
    · rw [hunpack, unpack_zero_signed, withSign_units_zero, Std.OrientedOrd.eq_swap,
        compare_zero_withSign _ (units_pos hpos)]
      cases isNegative x <;> rfl
    · obtain ⟨r', e', hr', hunpack', hvalue', hfull', hfit'⟩ := exists_unpack_signed hpos' hm'
      have hsteps := compare_steps hfit hfit' hfull hfull'
      rw [← hvalue, ← hvalue'] at hsteps
      rw [hunpack, hunpack', compare_withSign _ _ (units_pos hpos) (units_pos hpos'), ← hsteps]
      cases isNegative x <;> cases isNegative y <;> rfl

theorem lt_iff {x y : Float} (hx : x.isFinite) (hy : y.isFinite) :
    x < y ↔ signedUnits x < signedUnits y := by
  have hcompare := compare_eq_signedUnits hx hy
  have hlt : x < y ↔ (UnpackedFloat.unpack Format.binary64 (pattern x)).compare
      (UnpackedFloat.unpack Format.binary64 (pattern y)) = some .lt :=
    decide_eq_true_iff.trans
      (beq_iff_eq (a := (UnpackedFloat.unpack Format.binary64 (pattern x)).compare _))
  rw [hlt, hcompare, Option.some.injEq, Int.compare_eq_lt]

theorem le_iff {x y : Float} (hx : x.isFinite) (hy : y.isFinite) :
    x ≤ y ↔ signedUnits x ≤ signedUnits y := by
  have hcompare := compare_eq_signedUnits hx hy
  have hle : x ≤ y ↔ ((UnpackedFloat.unpack Format.binary64 (pattern x)).compare
      (UnpackedFloat.unpack Format.binary64 (pattern y))).any (·.isLE) = true :=
    decide_eq_true_iff
  rw [hle, hcompare, Option.any_some, Int.isLE_compare]

theorem beq_iff {x y : Float} (hx : x.isFinite) (hy : y.isFinite) :
    (x == y) = true ↔ signedUnits x = signedUnits y := by
  have hcompare := compare_eq_signedUnits hx hy
  have hbeq : (x == y) = true ↔ (UnpackedFloat.unpack Format.binary64 (pattern x)).compare
      (UnpackedFloat.unpack Format.binary64 (pattern y)) = some .eq :=
    beq_iff_eq (a := (UnpackedFloat.unpack Format.binary64 (pattern x)).compare _)
  rw [hbeq, hcompare, Option.some.injEq, Int.compare_eq_eq]

/-! ## 4. Sums -/

/-- Rounding does not look at the sign: it only goes into the sign bit. -/
theorem exists_pack_round (m : Nat) (e : Int) :
    ∃ (exponent : BitVec 11) (mantissa : BitVec 52), ∀ s,
      UnpackedFloat.pack Format.binary64 (UnpackedFloat.round Format.binary64 s m e)
        = packComponents Format.binary64 s exponent mantissa := by
  obtain ⟨r, e', hround⟩ : ∃ (r : Nat) (e' : Int), ∀ s,
      UnpackedFloat.round Format.binary64 s m e
        = if h : r = 0 then .zero s else .finite s r e' (Nat.pos_of_ne_zero h) :=
    ⟨_, _, fun _ => rfl⟩
  by_cases hr : r = 0
  · refine ⟨0, 0, fun s => ?_⟩
    rw [hround, dif_pos hr]
    rfl
  · by_cases hover : 2 ^ (11 : Nat) ≤ (e' + 1023 + 52).toNat + 1
    · refine ⟨-1#_, 0, fun s => ?_⟩
      rw [hround, dif_neg hr, pack_finite, if_pos hover]
      rfl
    · by_cases hfull : r.log2 + 1 = 53
      · refine ⟨.ofNat 11 (e' + 1023 + 52).toNat, .ofNat 52 r, fun s => ?_⟩
        rw [hround, dif_neg hr, pack_finite, if_neg hover, if_pos hfull]
      · refine ⟨0#11, .ofNat 52 r, fun s => ?_⟩
        rw [hround, dif_neg hr, pack_finite, if_neg hover, if_neg hfull]

theorem pack_round_signed (negative : Bool) {m : Nat} {e : Int} (hm : 0 < m) {a b : Nat}
    (he : e + 1074 = (a : Int) - b) :
    UnpackedFloat.pack Format.binary64 (UnpackedFloat.round Format.binary64 (signOf negative) m e)
      = signed negative (min infinity (nearestUnits (m * 2 ^ a) (2 ^ b))) := by
  obtain ⟨exponent, mantissa, hpack⟩ := exists_pack_round m e
  have hpositive := congrArg BitVec.toNat (pack_round_short hm he)
  have hle := Nat.min_le_left infinity (nearestUnits (m * 2 ^ a) (2 ^ b))
  rw [hpack, toNat_packComponents, toNat_signed_of_le false hle] at hpositive
  apply BitVec.eq_of_toNat_eq
  rw [hpack, toNat_packComponents, toNat_signed_of_le negative hle]
  simp only [Sign.toBitVec, Bool.false_eq_true, if_false] at hpositive
  cases negative
  · simpa [signOf, Sign.toBitVec] using hpositive
  · simp [signOf, Sign.toBitVec] at hpositive ⊢
    omega

/-- A sum of mantissas is packed as the point where it lies. -/
theorem pack_normalize {z : Int} {k m : Nat} (hm : m < infinity) (h : z.natAbs * 2 ^ k = units m) :
    ∃ negative, UnpackedFloat.pack Format.binary64
        (UnpackedFloat.normalize Format.binary64 z ((k : Int) - 1074) .positive)
      = signed negative m ∧ withSign negative (units m) = z * 2 ^ k := by
  have hexact : min infinity (nearestUnits (z.natAbs * 2 ^ k) (2 ^ (0 : Nat))) = m := by
    rw [h, Nat.pow_zero, nearestUnits_units, Nat.min_eq_right (Nat.le_of_lt hm)]
  have hunits : (units m : Int) = z.natAbs * 2 ^ k := by
    rw [← h]
    push_cast
    rfl
  rcases Int.lt_trichotomy z 0 with hneg | rfl | hpos
  · have hcompare : compare z 0 = .lt := Int.compare_eq_lt.2 hneg
    have hpack := @pack_round_signed true z.natAbs ((k : Int) - 1074) (by omega) k 0 (by omega)
    have habs : (-z).toNat = z.natAbs := by omega
    rw [hexact] at hpack
    refine ⟨true, ?_, ?_⟩
    · simp only [UnpackedFloat.normalize, hcompare, habs]
      exact hpack
    · rw [withSign_true, hunits, ← Int.neg_mul]
      congr 1
      omega
  · have h0 : m = 0 := by
      refine Decidable.byContradiction fun hne => ?_
      have := units_pos (Nat.pos_of_ne_zero hne)
      rw [← h, Int.natAbs_zero, Nat.zero_mul] at this
      omega
    subst h0
    refine ⟨false, rfl, ?_⟩
    rw [Int.zero_mul]
    rfl
  · have hcompare : compare z 0 = .gt := Int.compare_eq_gt.2 hpos
    have hpack := @pack_round_signed false z.natAbs ((k : Int) - 1074) (by omega) k 0 (by omega)
    have habs : z.toNat = z.natAbs := by omega
    rw [hexact] at hpack
    refine ⟨false, ?_, ?_⟩
    · simp only [UnpackedFloat.normalize, hcompare, habs]
      exact hpack
    · rw [withSign_false, hunits]
      congr 1
      omega

theorem withSign_mul (negative : Bool) (a b : Nat) :
    withSign negative (a * b) = withSign negative a * b := by
  cases negative with
  | false => exact Int.natCast_mul a b
  | true => rw [withSign_true, withSign_true, Int.natCast_mul, Int.neg_mul]

/-- Two mantissas with their signs are brought to the smaller exponent and added. -/
theorem add_finite_signed (s s' : Sign) {r r' : Nat} (e e' : Int) (hr : 0 < r) (hr' : 0 < r') :
    UnpackedFloat.add Format.binary64 (.finite s r e hr) (.finite s' r' e' hr')
      = UnpackedFloat.normalize Format.binary64
          (s.apply (r * 2 ^ (e - min e e').toNat : Nat) +
            s'.apply (r' * 2 ^ (e' - min e e').toNat : Nat))
          (min e e') .positive := by
  rw [← Nat.shiftLeft_eq, ← Nat.shiftLeft_eq]
  rfl

theorem zero_add_zero (n n' : Bool) :
    (ofMagnitude n 0 + ofMagnitude n' 0).isFinite ∧
      signedUnits (ofMagnitude n 0 + ofMagnitude n' 0) = 0 + 0 := by
  revert n n'
  decide +kernel

theorem zero_add_ofMagnitude (n n' : Bool) {b : Nat} (h0 : 0 < b) (hb : b < infinity) :
    ofMagnitude n 0 + ofMagnitude n' b = ofMagnitude n' b := by
  obtain ⟨r, e, hr, hunpack, -⟩ := exists_unpack_signed h0 hb
  apply ext_pattern
  rw [pattern_add, unpack_zero_signed, hunpack]
  show UnpackedFloat.pack Format.binary64 (.finite (signOf n') r ((e : Int) - 1074) hr) = _
  rw [← hunpack, pattern_ofMagnitude n' hb]
  exact pattern_ofMagnitude n' hb

theorem add_zero_ofMagnitude (n n' : Bool) {a : Nat} (h0 : 0 < a) (ha : a < infinity) :
    ofMagnitude n a + ofMagnitude n' 0 = ofMagnitude n a := by
  obtain ⟨r, e, hr, hunpack, -⟩ := exists_unpack_signed h0 ha
  apply ext_pattern
  rw [pattern_add, unpack_zero_signed, hunpack]
  show UnpackedFloat.pack Format.binary64 (.finite (signOf n) r ((e : Int) - 1074) hr) = _
  rw [← hunpack, pattern_ofMagnitude n ha]
  exact pattern_ofMagnitude n ha

/-- The sum of two numbers other than zero is the point at the sum of their units. -/
theorem exists_add_ofMagnitude (n n' : Bool) {a b m : Nat} (ha : 0 < a) (hb : 0 < b)
    (hafin : a < infinity) (hbfin : b < infinity) (hm : m < infinity)
    (h : (withSign n (units a) + withSign n' (units b)).natAbs = units m) :
    ∃ negative, ofMagnitude n a + ofMagnitude n' b = ofMagnitude negative m ∧
      withSign negative (units m) = withSign n (units a) + withSign n' (units b) := by
  obtain ⟨r, e, hr, hunpack, hvalue, -⟩ := exists_unpack_signed ha hafin
  obtain ⟨r', e', hr', hunpack', hvalue', -⟩ := exists_unpack_signed hb hbfin
  -- both are brought to `k` steps, the smaller number of the two
  obtain ⟨k, hk⟩ : ∃ k, k = min e e' := ⟨_, rfl⟩
  have hmin : min ((e : Int) - 1074) ((e' : Int) - 1074) = (k : Int) - 1074 := by omega
  have hshift : ((e : Int) - 1074 - ((k : Int) - 1074)).toNat = e - k := by omega
  have hshift' : ((e' : Int) - 1074 - ((k : Int) - 1074)).toNat = e' - k := by omega
  have ha' : units a = r * 2 ^ (e - k) * 2 ^ k := by
    rw [hvalue, Nat.mul_assoc, ← Nat.pow_add, Nat.sub_add_cancel (by omega)]
  have hb' : units b = r' * 2 ^ (e' - k) * 2 ^ k := by
    rw [hvalue', Nat.mul_assoc, ← Nat.pow_add, Nat.sub_add_cancel (by omega)]
  have hz : withSign n (units a) + withSign n' (units b)
      = (withSign n (r * 2 ^ (e - k)) + withSign n' (r' * 2 ^ (e' - k))) * (2 ^ k : Nat) := by
    rw [ha', hb', withSign_mul n (r * 2 ^ (e - k)), withSign_mul n' (r' * 2 ^ (e' - k)),
      Int.add_mul]
  obtain ⟨negative, hpack, hsigned⟩ := pack_normalize
    (z := withSign n (r * 2 ^ (e - k)) + withSign n' (r' * 2 ^ (e' - k))) (k := k) hm
    (by rw [← h, hz, Int.natAbs_mul, Int.natAbs_natCast])
  refine ⟨negative, ?_, ?_⟩
  · apply ext_pattern
    rw [pattern_add, hunpack, hunpack', add_finite_signed, hmin, hshift, hshift',
      apply_signOf, apply_signOf, hpack, pattern_ofMagnitude negative hm]
  · rw [hsigned, hz]
    push_cast
    rfl

/-- A sum is exact if the grid has a point there. -/
theorem signedUnits_add {x y : Float} (hx : x.isFinite) (hy : y.isFinite) {m : Nat}
    (hm : m < infinity) (h : (signedUnits x + signedUnits y).natAbs = units m) :
    (x + y).isFinite ∧ signedUnits (x + y) = signedUnits x + signedUnits y := by
  have ha := magnitude_lt_infinity hx
  have hb := magnitude_lt_infinity hy
  rw [← ofMagnitude_magnitude hx, ← ofMagnitude_magnitude hy] at h ⊢
  generalize magnitude x = a at ha h ⊢
  generalize magnitude y = b at hb h ⊢
  generalize isNegative x = n at h ⊢
  generalize isNegative y = n' at h ⊢
  rw [signedUnits_ofMagnitude _ ha, signedUnits_ofMagnitude _ hb] at h ⊢
  rcases Nat.eq_zero_or_pos a with rfl | ha0
  · rcases Nat.eq_zero_or_pos b with rfl | hb0
    · rw [withSign_units_zero, withSign_units_zero]
      exact zero_add_zero n n'
    · rw [zero_add_ofMagnitude n n' hb0 hb, withSign_units_zero, Int.zero_add]
      exact ⟨isFinite_ofMagnitude n' hb, signedUnits_ofMagnitude n' hb⟩
  · rcases Nat.eq_zero_or_pos b with rfl | hb0
    · rw [add_zero_ofMagnitude n n' ha0 ha, withSign_units_zero, Int.add_zero]
      exact ⟨isFinite_ofMagnitude n ha, signedUnits_ofMagnitude n ha⟩
    · obtain ⟨negative, hsum, hunits⟩ := exists_add_ofMagnitude n n' ha0 hb0 ha hb hm h
      rw [hsum, ← hunits]
      exact ⟨isFinite_ofMagnitude negative hm, signedUnits_ofMagnitude negative hm⟩

/-- A difference is the sum with the other sign. -/
theorem sub_unpacked (u v : UnpackedFloat) :
    UnpackedFloat.sub Format.binary64 u v = UnpackedFloat.add Format.binary64 u v.neg := by
  cases u with
  | notANumber => cases v <;> rfl
  | infinity s => cases v <;> rfl
  | zero s => cases v <;> rfl
  | finite s m e h =>
    cases v with
    | finite s' m' e' h' =>
      have hsign : ∀ a b : Int, a - s'.apply b = a + (-s').apply b := by
        intro a b
        cases s' with
        | negative => exact Int.sub_neg a b
        | positive => exact Int.sub_eq_add_neg
      show UnpackedFloat.normalize Format.binary64 (_ - s'.apply _) _ .positive = _
      rw [hsign]
      rfl
    | _ => rfl

theorem sub_ofMagnitude (x : Float) {m : Nat} (hm : m < infinity) :
    x - ofMagnitude false m = x + ofMagnitude true m := by
  apply ext_pattern
  rw [pattern_add, unpack_negative hm, ← sub_unpacked]
  rfl

end ScriptReduce.Binary64
