/-
ScriptReduce.Proofs.Number.Bits: doubles and their bit patterns.

A pattern is a sign, an exponent field and a fraction field. Every operation
on doubles unpacks patterns, works on what they stand for and packs the
result again. For a pattern that is not the one of an infinity or NaN, nothing
is lost on the way: `pack_ofFields` packs back exactly the fields that were
unpacked. From this follow the three facts that other modules use: a finite
double is the one with its sign and its magnitude (`ofMagnitude_magnitude`),
the magnitude of a finite double is below the infinite one
(`magnitude_lt_infinity`), and negation only turns the sign
(`neg_ofMagnitude`).
-/
import ScriptReduce.Number.Binary64

namespace ScriptReduce.Binary64

/- Powers of natural numbers are core's own, whatever else is in scope. -/
attribute [local instance (high)] instPowNat

open Float.Model
open Float.Model.UnpackedFloat (Sign packComponents unpackSign unpackExponent unpackMantissa)

/-! ## 1. Fields -/

/-- The 64 bits of a double. -/
abbrev Pattern := BitVec Format.binary64.numBits

theorem toNat_pos_of_ne_zero {w : Nat} {f : BitVec w} (h : ¬f = 0#w) : 0 < f.toNat := by
  rcases Nat.eq_zero_or_pos f.toNat with h0 | h0
  · exact absurd (BitVec.eq_of_toNat_eq (by simpa using h0)) h
  · exact h0

theorem toNat_append_eq {v w : Nat} (x : BitVec v) (y : BitVec w) :
    (x ++ y).toNat = x.toNat * 2 ^ w + y.toNat := by
  rw [BitVec.toNat_append, Nat.shiftLeft_eq, Nat.mul_comm, Nat.two_pow_add_eq_or_of_lt y.isLt]

theorem toNat_hidden_append (f : BitVec 52) : (1#1 ++ f).toNat = 2 ^ (52 : Nat) + f.toNat := by
  rw [toNat_append_eq]
  simp

theorem toNat_packComponents (s : Sign) (e : BitVec 11) (f : BitVec 52) :
    (packComponents Format.binary64 s e f).toNat
      = s.toBitVec.toNat * 2 ^ (63 : Nat) + e.toNat * 2 ^ (52 : Nat) + f.toNat := by
  show (s.toBitVec ++ e ++ f).toNat = _
  rw [toNat_append_eq, toNat_append_eq]
  omega

theorem toNat_unpackExponent (v : Pattern) :
    (unpackExponent v).toNat = v.toNat / 2 ^ (52 : Nat) % 2 ^ (11 : Nat) := by
  simp [unpackExponent, Nat.shiftRight_eq_div_pow]

theorem toNat_unpackMantissa (v : Pattern) :
    (unpackMantissa v).toNat = v.toNat % 2 ^ (52 : Nat) := by
  simp [unpackMantissa, Nat.shiftRight_eq_div_pow]

theorem toNat_unpackSign (v : Pattern) : (unpackSign v).toNat = v.toNat / 2 ^ (63 : Nat) := by
  have h : v.toNat < 2 ^ (64 : Nat) := v.isLt
  show (v.extractLsb 63 63).toNat = _
  rw [BitVec.extractLsb_toNat, Nat.shiftRight_eq_div_pow]
  show v.toNat / 2 ^ (63 : Nat) % 2 ^ (1 : Nat) = _
  omega

/-! ## 2. Packing what was unpacked -/

/-- What a sign, an exponent field and a fraction field stand for. -/
def ofFields (s : Sign) (e : BitVec 11) (f : BitVec 52) : UnpackedFloat :=
  if e = -1#_ then
    if f = 0#_ then .infinity s else .notANumber
  else if e = 0#_ then
    if h : f = 0#_ then .zero s
    else .finite s f.toNat ((e.toNat : Int) - 1075 + 1) (toNat_pos_of_ne_zero h)
  else .finite s (1#1 ++ f).toNat ((e.toNat : Int) - 1075) (by rw [toNat_hidden_append]; omega)

theorem unpack_eq_ofFields (v : Pattern) :
    UnpackedFloat.unpack Format.binary64 v
      = ofFields (Sign.ofBitVec (unpackSign v)) (unpackExponent v) (unpackMantissa v) := rfl

theorem neg_ofFields (s : Sign) (e : BitVec 11) (f : BitVec 52) :
    (ofFields s e f).neg = ofFields (-s) e f := by
  unfold ofFields
  by_cases he : e = -1#_
  · rw [if_pos he, if_pos he]
    by_cases hf : f = 0#_
    · rw [if_pos hf, if_pos hf]; rfl
    · rw [if_neg hf, if_neg hf]; rfl
  · rw [if_neg he, if_neg he]
    by_cases he0 : e = 0#_
    · rw [if_pos he0, if_pos he0]
      by_cases hf : f = 0#_
      · rw [dif_pos hf, dif_pos hf]; rfl
      · rw [dif_neg hf, dif_neg hf]; rfl
    · rw [if_neg he0, if_neg he0]; rfl

/-- How a finite number is packed. -/
theorem pack_finite (s : Sign) {m : Nat} (e : Int) (h : 0 < m) :
    UnpackedFloat.pack Format.binary64 (.finite s m e h) =
      if 2 ^ (11 : Nat) ≤ (e + 1023 + 52).toNat + 1 then
        UnpackedFloat.packedInfinity Format.binary64 s
      else if m.log2 + 1 = 53 then
        packComponents Format.binary64 s (.ofNat 11 (e + 1023 + 52).toNat) (.ofNat 52 m)
      else packComponents Format.binary64 s 0#11 (.ofNat 52 m) := rfl

theorem pack_ofFields (s : Sign) (e : BitVec 11) (f : BitVec 52) (h : e ≠ -1#_) :
    UnpackedFloat.pack Format.binary64 (ofFields s e f) = packComponents Format.binary64 s e f := by
  have he : e.toNat ≠ 2047 := fun h' => h (BitVec.eq_of_toNat_eq (by simpa using h'))
  have hlt : e.toNat < 2 ^ (11 : Nat) := e.isLt
  have hf : f.toNat < 2 ^ (52 : Nat) := f.isLt
  unfold ofFields
  rw [if_neg h]
  by_cases h0 : e = 0#_
  · rw [if_pos h0]
    subst h0
    by_cases h1 : f = 0#_
    · rw [dif_pos h1]
      subst h1
      rfl
    · -- a subnormal: its fraction has too few bits to be taken for a normal one
      rw [dif_neg h1]
      have hpos := toNat_pos_of_ne_zero h1
      have hlog : f.toNat.log2 < 52 := (Nat.log2_lt (by omega)).2 hf
      rw [pack_finite, if_neg (by simp), if_neg (by omega), BitVec.ofNat_toNat]
      rfl
  · rw [if_neg h0]
    have h0' : 0 < e.toNat := toNat_pos_of_ne_zero h0
    have hlog : (2 ^ (52 : Nat) + f.toNat).log2 = 52 := by
      rw [Nat.log2_eq_iff (by omega)]; omega
    have hb : ((e.toNat : Int) - 1075 + 1023 + 52).toNat = e.toNat := by omega
    rw [pack_finite, hb, if_neg (by omega), toNat_hidden_append, if_pos (by omega)]
    congr 1
    · simp
    · exact BitVec.eq_of_toNat_eq (by simpa using Nat.mod_eq_of_lt hf)

/-! ## 3. Finite doubles -/

/-- The bits of a double. -/
def pattern (x : Float) : Pattern := x.toBits.toBitVec

theorem toNat_pattern (x : Float) : (pattern x).toNat = x.toBits.toNat := rfl

theorem ext_pattern {x y : Float} (h : pattern x = pattern y) : x = y := by
  rcases x with ⟨⟨a, ha⟩⟩
  rcases y with ⟨⟨b, hb⟩⟩
  have hab : a = b := UInt64.toBitVec_inj.1 h
  subst hab
  rfl

/-- What fields can stand for. -/
theorem ofFields_cases (s : Sign) (e : BitVec 11) (f : BitVec 52) :
    (e = -1#_ ∧ f = 0#_ ∧ ofFields s e f = .infinity s) ∨
      (e = -1#_ ∧ f ≠ 0#_ ∧ ofFields s e f = .notANumber) ∨
      e ≠ -1#_ ∧ (ofFields s e f = .zero s ∨ ∃ m k h, ofFields s e f = .finite s m k h) := by
  unfold ofFields
  by_cases he : e = -1#_
  · by_cases hf : f = 0#_
    · exact .inl ⟨he, hf, by rw [if_pos he, if_pos hf]⟩
    · exact .inr (.inl ⟨he, hf, by rw [if_pos he, if_neg hf]⟩)
  · refine .inr (.inr ⟨he, ?_⟩)
    rw [if_neg he]
    by_cases he0 : e = 0#_
    · rw [if_pos he0]
      by_cases hf : f = 0#_
      · exact .inl (dif_pos hf)
      · exact .inr ⟨_, _, _, dif_neg hf⟩
    · exact .inr ⟨_, _, _, if_neg he0⟩

theorem isFinite_ofFields (s : Sign) (e : BitVec 11) (f : BitVec 52) :
    (ofFields s e f).isFinite = decide (e ≠ -1#_) := by
  rcases ofFields_cases s e f with ⟨he, -, h⟩ | ⟨he, -, h⟩ | ⟨he, h | ⟨m, k, hm, h⟩⟩
  · rw [h, decide_eq_false (not_not_intro he)]; rfl
  · rw [h, decide_eq_false (not_not_intro he)]; rfl
  · rw [h, decide_eq_true he]; rfl
  · rw [h, decide_eq_true he]; rfl

theorem isFinite_iff {x : Float} : x.isFinite ↔ unpackExponent (pattern x) ≠ -1#_ := by
  show (UnpackedFloat.unpack Format.binary64 (pattern x)).isFinite = true ↔ _
  rw [unpack_eq_ofFields, isFinite_ofFields, decide_eq_true_iff]

theorem isNaN_of_isFinite {x : Float} (h : x.isFinite) : x.isNaN = false := by
  have hf : (x.toModel.unpack).isFinite := h
  show (x.toModel.unpack).isNaN = false
  cases hu : x.toModel.unpack with
  | notANumber =>
    rw [hu] at hf
    cases hf
  | _ => rfl

theorem isNaN_ofFields (s : Sign) (e : BitVec 11) (f : BitVec 52) :
    (ofFields s e f).isNaN = decide (e = -1#_ ∧ f ≠ 0#_) := by
  rcases ofFields_cases s e f with ⟨-, hf, h⟩ | ⟨he, hf, h⟩ | ⟨he, h | ⟨m, k, hm, h⟩⟩
  · rw [h, decide_eq_false fun hnan => hnan.2 hf]; rfl
  · rw [h, decide_eq_true ⟨he, hf⟩]; rfl
  · rw [h, decide_eq_false fun hnan => he hnan.1]; rfl
  · rw [h, decide_eq_false fun hnan => he hnan.1]; rfl

/-- What is neither finite nor NaN is an infinity. -/
theorem magnitude_eq_infinity {x : Float} (hnan : x.isNaN = false) (h : ¬x.isFinite) :
    magnitude x = infinity := by
  have he : unpackExponent (pattern x) = -1#_ :=
    Decidable.byContradiction fun he => h (isFinite_iff.2 he)
  have hf : unpackMantissa (pattern x) = 0#_ := by
    refine Decidable.byContradiction fun hf => ?_
    have hdecide : x.isNaN = decide (unpackExponent (pattern x) = -1#_
        ∧ unpackMantissa (pattern x) ≠ 0#_) := by
      rw [← isNaN_ofFields (Sign.ofBitVec (unpackSign (pattern x))), ← unpack_eq_ofFields]
      rfl
    rw [hnan, decide_eq_true ⟨he, hf⟩] at hdecide
    cases hdecide
  have he' : (unpackExponent (pattern x)).toNat = 2047 := by rw [he]; rfl
  have hf' : (unpackMantissa (pattern x)).toNat = 0 := by rw [hf]; rfl
  rw [toNat_unpackExponent, toNat_pattern] at he'
  rw [toNat_unpackMantissa, toNat_pattern] at hf'
  unfold magnitude infinity
  omega

theorem magnitude_lt_infinity {x : Float} (h : x.isFinite) : magnitude x < infinity := by
  have hlt : (unpackExponent (pattern x)).toNat < 2 ^ (11 : Nat) :=
    (unpackExponent (pattern x)).isLt
  have he : (unpackExponent (pattern x)).toNat ≠ 2047 := fun h' =>
    isFinite_iff.1 h (BitVec.eq_of_toNat_eq (by simpa using h'))
  rw [toNat_unpackExponent, toNat_pattern] at he hlt
  unfold magnitude infinity
  omega

theorem toBitVec_ofBitVec (v : BitVec 1) : (Sign.ofBitVec v).toBitVec = v := by
  revert v; decide

theorem toBitVec_neg_ofBitVec (v : BitVec 1) :
    (-Sign.ofBitVec v).toBitVec.toNat = 1 - v.toNat := by
  revert v; decide

/-- The pattern of a sign in front of a magnitude. -/
def signed (negative : Bool) (m : Nat) : Pattern :=
  BitVec.ofNat 64 ((if negative then 2 ^ (63 : Nat) else 0) + m)

theorem toNat_signed (negative : Bool) {m : Nat} (h : m < infinity) :
    (signed negative m).toNat = (if negative then 2 ^ (63 : Nat) else 0) + m := by
  unfold infinity at h
  refine Nat.mod_eq_of_lt ?_
  show _ < 2 ^ (64 : Nat)
  split <;> omega

theorem exponent_signed_ne (negative : Bool) {m : Nat} (h : m < infinity) :
    unpackExponent (signed negative m) ≠ -1#_ := by
  intro he
  have h2 : (unpackExponent (signed negative m)).toNat = 2047 := by rw [he]; rfl
  rw [toNat_unpackExponent, toNat_signed negative h] at h2
  unfold infinity at h
  split at h2 <;> omega

/-- The bits of a double that is put together from a sign and a finite
magnitude. -/
theorem pattern_ofMagnitude (negative : Bool) {m : Nat} (h : m < infinity) :
    pattern (ofMagnitude negative m) = signed negative m := by
  show UnpackedFloat.pack Format.binary64
    (UnpackedFloat.unpack Format.binary64 (signed negative m)) = signed negative m
  rw [unpack_eq_ofFields, pack_ofFields _ _ _ (exponent_signed_ne negative h)]
  apply BitVec.eq_of_toNat_eq
  rw [toNat_packComponents, toBitVec_ofBitVec, toNat_unpackSign, toNat_unpackExponent,
    toNat_unpackMantissa]
  have := toNat_signed negative h
  unfold infinity at h
  split at this <;> omega

theorem isNegative_ofMagnitude (negative : Bool) {m : Nat} (h : m < infinity) :
    isNegative (ofMagnitude negative m) = negative := by
  unfold isNegative
  rw [← toNat_pattern, pattern_ofMagnitude negative h, toNat_signed negative h]
  unfold infinity at h
  cases negative <;> simp
  omega

/-- The bits of a double are its sign and its magnitude. -/
theorem sign_add_magnitude (x : Float) :
    (if isNegative x then 2 ^ (63 : Nat) else 0) + magnitude x = x.toBits.toNat := by
  have := x.toBits.toNat_lt
  unfold isNegative magnitude
  by_cases hn : 2 ^ (63 : Nat) ≤ x.toBits.toNat
  · simp only [hn, decide_true, if_true]
    omega
  · simp only [hn, decide_false, Bool.false_eq_true, if_false]
    omega

/-- A finite double is the one with its sign and its magnitude. -/
theorem ofMagnitude_magnitude {x : Float} (h : x.isFinite) :
    ofMagnitude (isNegative x) (magnitude x) = x := by
  apply ext_pattern
  rw [pattern_ofMagnitude _ (magnitude_lt_infinity h)]
  apply BitVec.eq_of_toNat_eq
  rw [toNat_pattern, toNat_signed _ (magnitude_lt_infinity h), sign_add_magnitude]

/-- An infinity is the one with its sign. -/
theorem ofMagnitude_infinity {x : Float} (hnan : x.isNaN = false) (h : ¬x.isFinite) :
    ofMagnitude (isNegative x) infinity = x := by
  have hpattern : ∀ negative, (pattern (ofMagnitude negative infinity)).toNat
      = (if negative then 2 ^ (63 : Nat) else 0) + infinity := by decide +kernel
  apply ext_pattern
  apply BitVec.eq_of_toNat_eq
  rw [hpattern, toNat_pattern, ← magnitude_eq_infinity hnan h, sign_add_magnitude]

/-- Negation turns the sign. -/
theorem neg_ofMagnitude {m : Nat} (h : m < infinity) :
    -ofMagnitude false m = ofMagnitude true m := by
  apply ext_pattern
  show UnpackedFloat.pack Format.binary64
    (UnpackedFloat.unpack Format.binary64 (pattern (ofMagnitude false m))).neg = _
  rw [pattern_ofMagnitude _ h, pattern_ofMagnitude _ h, unpack_eq_ofFields, neg_ofFields,
    pack_ofFields _ _ _ (exponent_signed_ne false h)]
  apply BitVec.eq_of_toNat_eq
  rw [toNat_packComponents, toBitVec_neg_ofBitVec, toNat_unpackSign, toNat_unpackExponent,
    toNat_unpackMantissa, toNat_signed _ h, toNat_signed _ h]
  unfold infinity at h
  simp only [Bool.false_eq_true, if_false, if_true]
  omega

end ScriptReduce.Binary64
