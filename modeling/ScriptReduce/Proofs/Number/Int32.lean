/-
ScriptReduce.Proofs.Number.Int32: the conversion to 32-bit integers is exact.

The conversion computes among doubles: it drops the fraction, takes a remainder, adds
`2 ^ 32` to it if it is negative, and takes `2 ^ 32` from it if it is too large. Each of
these results stands for a whole number exactly (`Whole`). The integer part and the
remainder do so however large the number is, because the grid has points there; after the
remainder all numbers are below `2 ^ 53`, where every whole number is a point. So the
conversion finds what integers would: the integer part modulo `2 ^ 32`, in the range of the
signed integers (`toInt_toInt32`), and the bitwise operators combine the low bits of integer
parts (`apply_of_onBits?`).
-/
import ScriptReduce.Proofs.Number.Signed
import ScriptReduce.Value.Operator

namespace ScriptReduce

/- Powers of natural numbers are core's own, whatever else is in scope. -/
attribute [local instance (high)] instPowNat

namespace Binary64

open Float.Model (UnpackedFloat Format)

/-! ## 1. Whole numbers -/

/-- A double stands for an integer, and for nothing but it. -/
structure Whole (x : Float) (i : Int) : Prop where
  isFinite : x.isFinite
  signedUnits_eq : signedUnits x = i * one

variable {x y : Float} {i j : Int} {m n : Nat}

theorem one_pos_int : 0 < (one : Int) := Int.natCast_pos.2 one_pos

theorem Whole.lt_iff (hx : Whole x i) (hy : Whole y j) : x < y ↔ i < j := by
  rw [Binary64.lt_iff hx.isFinite hy.isFinite, hx.signedUnits_eq, hy.signedUnits_eq,
    Int.mul_lt_mul_right one_pos_int]

theorem Whole.le_iff (hx : Whole x i) (hy : Whole y j) : x ≤ y ↔ i ≤ j := by
  rw [Binary64.le_iff hx.isFinite hy.isFinite, hx.signedUnits_eq, hy.signedUnits_eq,
    Int.mul_le_mul_right one_pos_int]

theorem whole_ofMagnitude (negative : Bool) (hm : m < infinity) (h : units m = n * one) :
    Whole (ofMagnitude negative m) (withSign negative n) where
  isFinite := isFinite_ofMagnitude negative hm
  signedUnits_eq := by rw [signedUnits_ofMagnitude negative hm, h, withSign_mul]

/-- A natural number that is a point is rounded to that point. -/
theorem nearest_natural (hm : m < infinity) (h : units m = n * one) : nearest n 1 = m := by
  rw [nearest_eq_min, ← h, nearestUnits_units, Nat.min_eq_right (Nat.le_of_lt hm)]

theorem exists_ofNat (hn : n ≤ 2 ^ (53 : Nat)) :
    ∃ m < infinity, units m = n * one ∧ ofNat n = ofMagnitude false m := by
  obtain ⟨m, hm, hunits⟩ := exists_units_natural hn
  exact ⟨m, hm, hunits, by rw [ofNat, nearest_natural hm hunits]⟩

theorem whole_ofNat (hn : n ≤ 2 ^ (53 : Nat)) : Whole (ofNat n) n := by
  obtain ⟨m, hm, hunits, heq⟩ := exists_ofNat hn
  rw [heq]
  exact whole_ofMagnitude false hm hunits

theorem whole_ofInt (hi : i.natAbs ≤ 2 ^ (53 : Nat)) : Whole (ofInt i) i := by
  obtain ⟨m, hm, hunits⟩ := exists_units_natural hi
  have h := whole_ofMagnitude (decide (i < 0)) hm hunits
  have hsign : withSign (decide (i < 0)) i.natAbs = i := by
    by_cases hneg : i < 0
    · rw [decide_eq_true hneg, withSign_true]
      omega
    · rw [decide_eq_false hneg, withSign_false]
      omega
  rw [hsign] at h
  rw [ofInt, nearest_natural hm hunits]
  exact h

/-- Sums of whole numbers are exact up to `2 ^ 53`. -/
theorem Whole.add (hx : Whole x i) (hy : Whole y j) (h : (i + j).natAbs ≤ 2 ^ (53 : Nat)) :
    Whole (x + y) (i + j) := by
  obtain ⟨m, hm, hunits⟩ := exists_units_natural h
  have hsum : signedUnits x + signedUnits y = (i + j) * one := by
    rw [hx.signedUnits_eq, hy.signedUnits_eq, Int.add_mul]
  obtain ⟨hfinite, heq⟩ := signedUnits_add hx.isFinite hy.isFinite hm
    (by rw [hsum, Int.natAbs_mul, Int.natAbs_natCast, hunits])
  exact ⟨hfinite, heq.trans hsum⟩

/-- And so are differences. -/
theorem Whole.sub_ofNat (hx : Whole x i) (hn : n ≤ 2 ^ (53 : Nat))
    (h : (i - n).natAbs ≤ 2 ^ (53 : Nat)) : Whole (x - ofNat n) (i - n) := by
  obtain ⟨m, hm, hunits, heq⟩ := exists_ofNat hn
  rw [heq, sub_ofMagnitude x hm, Int.sub_eq_add_neg]
  exact hx.add (whole_ofMagnitude true hm hunits) (by rwa [Int.sub_eq_add_neg] at h)

/-! ## 2. Integer parts and remainders -/

theorem truncate_eq (x : Float) : truncate x = (signedUnits x).tdiv one := by
  unfold truncate signedUnits
  cases isNegative x with
  | false => rw [withSign_false, ← Int.ofNat_tdiv]; rfl
  | true => rw [withSign_true, Int.neg_tdiv, ← Int.ofNat_tdiv]; rfl

theorem Whole.truncate_eq (hx : Whole x i) : truncate x = i := by
  rw [Binary64.truncate_eq, hx.signedUnits_eq,
    Int.mul_tdiv_cancel _ (Int.ne_of_gt one_pos_int)]

/-- The integer part is exact. -/
theorem whole_integerPart (hx : x.isFinite) : Whole (integerPart x) (truncate x) := by
  obtain ⟨m, hm, hunits⟩ := exists_units_whole (magnitude_lt_infinity hx)
  have h := whole_ofMagnitude (isNegative x) hm hunits
  rw [integerPart, if_pos hx, nearest_natural hm hunits]
  exact h

theorem isInf_of_isFinite (h : x.isFinite) : x.isInf = false := by
  have hf : (x.toModel.unpack).isFinite := h
  show (x.toModel.unpack).isInf = false
  cases hu : x.toModel.unpack with
  | infinity s =>
    rw [hu] at hf
    cases hf
  | _ => rfl

theorem withSign_tmod (negative negative' : Bool) (m n : Nat) :
    (withSign negative m).tmod (withSign negative' n) = withSign negative (m % n) := by
  have h := Int.ofNat_tmod m n
  cases negative <;> cases negative' <;>
    simp only [withSign_false, withSign_true, Int.neg_tmod, Int.tmod_neg, h]

/-- The remainder is exact, for all finite numbers. -/
theorem signedUnits_remainder (hx : x.isFinite) (hy : y.isFinite) (h0 : signedUnits y ≠ 0) :
    (remainder x y).isFinite ∧
      signedUnits (remainder x y) = (signedUnits x).tmod (signedUnits y) := by
  have hpos : 0 < magnitude y := by
    refine Nat.pos_of_ne_zero fun hzero => h0 ?_
    rw [signedUnits, hzero]
    cases isNegative y <;> rfl
  have hzero : (y == 0) = false := by
    have hfinite : (0 : Float).isFinite ∧ signedUnits 0 = 0 := by decide +kernel
    rw [Bool.eq_false_iff, ne_eq, beq_iff hy hfinite.1, hfinite.2]
    exact h0
  obtain ⟨m, hm, hunits⟩ := exists_units_mod (magnitude_lt_infinity hx) hpos
  have heq : remainder x y = ofMagnitude (isNegative x) m := by
    have hnearest := nearest_units hm Nat.one_pos
    rw [Nat.mul_one, Nat.mul_one] at hnearest
    rw [remainder, isNaN_of_isFinite hx, isNaN_of_isFinite hy, isInf_of_isFinite hx, hzero,
      isInf_of_isFinite hy, ← hunits]
    simp only [Bool.or_self, Bool.false_eq_true, if_false, hnearest]
  rw [heq]
  refine ⟨isFinite_ofMagnitude _ hm, ?_⟩
  rw [signedUnits_ofMagnitude _ hm, hunits]
  exact (withSign_tmod ..).symm

theorem Whole.remainder (hx : Whole x i) (hy : Whole y j) (hj : j ≠ 0) :
    Whole (remainder x y) (i.tmod j) := by
  have hy0 : signedUnits y ≠ 0 := by
    rw [hy.signedUnits_eq]
    exact Int.mul_ne_zero hj (Int.ne_of_gt one_pos_int)
  obtain ⟨hfinite, heq⟩ := signedUnits_remainder hx.isFinite hy.isFinite hy0
  refine ⟨hfinite, ?_⟩
  rw [heq, hx.signedUnits_eq, hy.signedUnits_eq, Int.mul_comm i, Int.mul_comm j,
    Int.mul_tmod_mul_of_pos _ _ one_pos_int, Int.mul_comm]

theorem abs_ofMagnitude (hm : m < infinity) : (ofMagnitude false m).abs = ofMagnitude false m := by
  rcases Nat.eq_zero_or_pos m with rfl | hpos
  · rfl
  · obtain ⟨r, e, hr, hunpack, -⟩ := exists_unpack hpos hm
    have habs : (UnpackedFloat.unpack Format.binary64 (pattern (ofMagnitude false m))).abs
        = UnpackedFloat.unpack Format.binary64 (pattern (ofMagnitude false m)) := by
      rw [hunpack]
      rfl
    apply ext_pattern
    show UnpackedFloat.pack Format.binary64
      (UnpackedFloat.unpack Format.binary64 (pattern (ofMagnitude false m))).abs = _
    rw [habs, pack_unpack hm, pattern_ofMagnitude false hm]

/-- The remainder that is not negative is exact as well. -/
theorem Whole.modulo (hx : Whole x i) (hn : 0 < n) (hn' : n ≤ 2 ^ (53 : Nat)) :
    Whole (modulo x (ofNat n)) (i % n) := by
  have hrest := hx.remainder (whole_ofNat hn') (Int.natCast_ne_zero.2 (Nat.ne_of_gt hn))
  have hzero : Whole (ofNat 0) 0 := whole_ofNat (Nat.zero_le _)
  have habs : (ofNat n).abs = ofNat n := by
    obtain ⟨m, hm, -, heq⟩ := exists_ofNat hn'
    rw [heq, abs_ofMagnitude hm]
  have hlt := Int.emod_lt_of_pos i (Int.natCast_pos.2 hn)
  have hnonneg := Int.emod_nonneg i (Int.natCast_ne_zero.2 (Nat.ne_of_gt hn))
  have htmod := @Int.emod_eq_tmod i n
  unfold Binary64.modulo
  simp only [hrest.lt_iff hzero, habs]
  split
  · rename_i hneg
    have hsum : i % n = i.tmod n + n := by
      split at htmod
      · omega
      · rw [htmod, Int.natAbs_natCast]
    rw [hsum]
    exact hrest.add (whole_ofNat hn') (by omega)
  · rename_i hnneg
    have hsame : i % n = i.tmod n := by
      split at htmod <;> omega
    rw [hsame]
    exact hrest

end Binary64

/-- What an operator does to bits, if it is a bitwise one. -/
def BinaryOperator.onBits? : BinaryOperator → Option (BitVec 32 → BitVec 32 → BitVec 32)
  | .bitAnd => some (· &&& ·)
  | .bitOr => some (· ||| ·)
  | .bitXor | .bitXorAssign => some (· ^^^ ·)
  | _ => none

namespace Number

open Binary64

/-! ## 3. The conversion -/

theorem whole_twoPow32 : Whole twoPow32 (2 ^ (32 : Nat)) := whole_ofNat (by decide)

theorem whole_twoPow31 : Whole twoPow31 (2 ^ (31 : Nat)) := whole_ofNat (by decide)

/-- The cast of a whole number in range is exact. -/
theorem toInt_clampInt32 {x : Float} {i : Int} (hx : Whole x i) (hlow : -2 ^ (31 : Nat) ≤ i)
    (hhigh : i < 2 ^ (31 : Nat)) : (clampInt32 x).toInt = i := by
  rw [clampInt32, isNaN_of_isFinite hx.isFinite, hx.truncate_eq]
  exact Int32.toInt_ofIntClamp hlow (by show i ≤ 2147483647; omega)

/-- The conversion of a finite number. -/
theorem toInt32_of_isFinite {x : Float} (hx : x.isFinite) :
    toInt32 x = clampInt32 (if twoPow31 ≤ modulo (integerPart x) twoPow32 then
      modulo (integerPart x) twoPow32 - twoPow32 else modulo (integerPart x) twoPow32) :=
  if_pos hx

theorem whole_modulo {x : Float} (hx : x.isFinite) :
    Whole (modulo (integerPart x) twoPow32) (truncate x % 2 ^ (32 : Nat)) :=
  (whole_integerPart hx).modulo (n := 2 ^ (32 : Nat)) (by decide) (by decide)

theorem whole_corrected {x : Float} (hx : x.isFinite) :
    Whole (modulo (integerPart x) twoPow32 - twoPow32)
      (truncate x % 2 ^ (32 : Nat) - 2 ^ (32 : Nat)) :=
  (whole_modulo hx).sub_ofNat (n := 2 ^ (32 : Nat)) (by decide) (by omega)

theorem le_modulo_iff {x : Float} (hx : x.isFinite) :
    twoPow31 ≤ modulo (integerPart x) twoPow32 ↔ 2 ^ (31 : Nat) ≤ truncate x % 2 ^ (32 : Nat) :=
  whole_twoPow31.le_iff (whole_modulo hx)

/-- The conversion agrees with the integer part modulo `2 ^ 32`. -/
theorem toInt_toInt32 {x : Float} (hx : x.isFinite) :
    (toInt32 x).toInt = (truncate x).bmod (2 ^ (32 : Nat)) := by
  rw [toInt32_of_isFinite hx, Int.bmod_def]
  simp only [le_modulo_iff hx]
  split
  · rename_i hhigh
    rw [toInt_clampInt32 (whole_corrected hx) (by omega) (by omega), if_neg (by omega)]
    rfl
  · rename_i hlow
    rw [toInt_clampInt32 (whole_modulo hx) (by omega) (by omega), if_pos (by omega)]
    rfl

/-! ## 4. Bits -/

/-- The low 32 bits of the integer part of a number; infinities and NaN have none that is
set. -/
def lowBits (x : Float) : BitVec 32 := if x.isFinite then .ofInt 32 (truncate x) else 0#32

theorem toBitVec_toInt32 (x : Float) : (toInt32 x).toBitVec = lowBits x := by
  unfold lowBits
  split
  · rename_i hx
    apply BitVec.eq_of_toInt_eq
    rw [BitVec.toInt_ofInt, ← toInt_toInt32 hx]
    rfl
  · rename_i hx
    rw [toInt32, if_neg hx]
    rfl

/-- Every 32-bit integer is a number exactly. -/
theorem whole_toInt (v : BitVec 32) : Whole (ofInt v.toInt) v.toInt := by
  have hlow : -2 ^ (31 : Nat) ≤ v.toInt := v.le_toInt
  have hhigh : v.toInt < 2 ^ (31 : Nat) := v.toInt_lt
  exact whole_ofInt (by omega)

theorem bitwise_eq {g : Int32 → Int32 → Int32} {f : BitVec 32 → BitVec 32 → BitVec 32}
    (h : ∀ m n, (g m n).toBitVec = f m.toBitVec n.toBitVec) (a b : Value) :
    a.bitwise g b = .number (ofInt (f (lowBits a.toNumber) (lowBits b.toNumber)).toInt) := by
  rw [← toBitVec_toInt32, ← toBitVec_toInt32, ← h]
  rfl

/-- The bitwise operators combine bits. -/
theorem apply_of_onBits? {op : BinaryOperator} {f : BitVec 32 → BitVec 32 → BitVec 32}
    (h : op.onBits? = some f) (a b : Value) :
    op.apply a b
      = some (.number (ofInt (f (lowBits a.toNumber) (lowBits b.toNumber)).toInt)) := by
  cases op <;> cases h <;> exact congrArg some (bitwise_eq (fun _ _ => rfl) a b)

/-- The conversion to 32-bit integers is exact. What is not finite becomes zero. Of a finite
number, the integer part, its remainder, the remainder that is not negative and the one
brought into the range of signed integers are all whole numbers, none of them rounded; the
cast keeps whole numbers of that range; and the result is the one integer of the range that
agrees with the integer part modulo `2 ^ 32`. So the number that a bitwise operator gives is
the one whose 32 bits are the combined low bits of the integer parts of its operands. -/
theorem int32_exact :
    (∀ x : Float, ¬x.isFinite → toInt32 x = 0) ∧
      (∀ x : Float, x.isFinite →
        truncate x = (signedUnits x).tdiv one ∧
        Whole (integerPart x) (truncate x) ∧
        Whole (remainder (integerPart x) twoPow32) ((truncate x).tmod (2 ^ (32 : Nat))) ∧
        Whole (modulo (integerPart x) twoPow32) (truncate x % 2 ^ (32 : Nat)) ∧
        (twoPow31 ≤ modulo (integerPart x) twoPow32
          ↔ 2 ^ (31 : Nat) ≤ truncate x % 2 ^ (32 : Nat)) ∧
        Whole (modulo (integerPart x) twoPow32 - twoPow32)
          (truncate x % 2 ^ (32 : Nat) - 2 ^ (32 : Nat)) ∧
        ∀ n : Int, (toInt32 x).toInt = n ↔
          -2 ^ (31 : Nat) ≤ n ∧ n < 2 ^ (31 : Nat) ∧
            n % 2 ^ (32 : Nat) = truncate x % 2 ^ (32 : Nat)) ∧
      (∀ (y : Float) (n : Int), Whole y n → -2 ^ (31 : Nat) ≤ n → n < 2 ^ (31 : Nat) →
        (clampInt32 y).toInt = n) ∧
      ∀ op f, BinaryOperator.onBits? op = some f → ∀ a b : Value,
        op.apply a b
            = some (.number (ofInt (f (lowBits a.toNumber) (lowBits b.toNumber)).toInt)) ∧
          Whole (ofInt (f (lowBits a.toNumber) (lowBits b.toNumber)).toInt)
            (f (lowBits a.toNumber) (lowBits b.toNumber)).toInt := by
  refine ⟨fun x hx => if_neg hx, fun x hx => ?_, fun y n hy hlow hhigh => ?_,
    fun op f h a b => ⟨apply_of_onBits? h a b, whole_toInt _⟩⟩
  · refine ⟨truncate_eq x, whole_integerPart hx, ?_, whole_modulo hx, le_modulo_iff hx,
      whole_corrected hx, fun n => ?_⟩
    · exact (whole_integerPart hx).remainder whole_twoPow32 (by decide)
    · rw [toInt_toInt32 hx, Int.bmod_eq_iff (by decide)]
      omega
  · exact toInt_clampInt32 hy hlow hhigh

/-- A number far above `2 ^ 53`, and the text of a negative one that has a fraction. -/
theorem int32_exact_large :
    BinaryOperator.onBits? .bitAnd = some (· &&& ·) ∧
      (ofNat (10 ^ (21 : Nat))).isFinite ∧
      (toInt32 (ofNat (10 ^ (21 : Nat)))).toInt = -559939584 ∧
      BinaryOperator.apply .bitAnd (.string "-4294967297.5") (.number (ofNat (10 ^ (21 : Nat))))
        = some (.number (ofInt (-559939584))) ∧
      Whole (ofInt (-559939584)) (-559939584) := by
  obtain ⟨-, hconvert, -, hoperators⟩ := int32_exact
  have hfinite : (ofNat (10 ^ (21 : Nat))).isFinite := by decide +kernel
  have htruncate : truncate (ofNat (10 ^ (21 : Nat))) = 10 ^ (21 : Nat) := by decide +kernel
  have happly := hoperators .bitAnd _ rfl (.string "-4294967297.5")
    (.number (ofNat (10 ^ (21 : Nat))))
  have hbits : (lowBits (Value.string "-4294967297.5").toNumber
      &&& lowBits (Value.number (ofNat (10 ^ (21 : Nat)))).toNumber).toInt = -559939584 := by
    decide +kernel
  rw [hbits] at happly
  refine ⟨rfl, hfinite, ((hconvert _ hfinite).2.2.2.2.2.2 _).2 ?_, happly⟩
  rw [htruncate]
  decide

end Number

end ScriptReduce
