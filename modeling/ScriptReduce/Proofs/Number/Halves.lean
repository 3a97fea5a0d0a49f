/-
ScriptReduce.Proofs.Number.Halves: whole numbers half way between two doubles.

A whole number with more bits than a double is rounded by its first 53 bits and what
stands behind them. Digits that are written behind the number move its rounding by their
own bits and change nothing else, unless the number stands half way between two doubles
and the lower one is even (`EvenHalf`): then it is rounded down, and up as soon as a
digit behind it is not zero (`nearestUnits_append`).

In doubles, to write a digit behind a number is to multiply and to add. Up to 53 bits
this is exact but for the last rounding (`mul_add_short`). Further up the product only
moves the magnitude (`mul_two_pow`), and a digit is too small to be added at all
(`add_digit`).
-/
import ScriptReduce.Proofs.Number.Arithmetic

namespace ScriptReduce.Binary64

/- Powers of natural numbers are core's own, whatever else is in scope. -/
attribute [local instance (high)] instPowNat

/-! ## 1. Half ways -/

/-- Half way between two neighbours on the grid, of which the lower is the even one. In
bits: as many as a double has, the last of them zero, then a one, then only zeros. -/
def EvenHalf (n : Nat) : Prop :=
  ∃ q k : Nat, n = (2 * q + 1) * 2 ^ k ∧ 2 ^ (52 : Nat) ≤ q ∧ q < 2 ^ (53 : Nat) ∧ q % 2 = 0

theorem log2_half {q k : Nat} (h : 2 ^ (52 : Nat) ≤ q) (h' : q < 2 ^ (53 : Nat)) :
    ((2 * q + 1) * 2 ^ k).log2 = 53 + k := by
  have hlog : (2 * q + 1).log2 = 53 := (Nat.log2_eq_iff (by omega)).2 (by omega)
  rw [log2_mul_two_pow (by omega), hlog]

theorem log2_whole {n : Nat} (hn : 2 ^ (53 : Nat) ≤ n) : 53 ≤ n.log2 :=
  (Nat.le_log2 (by omega)).2 hn

/-- A number with more bits than a double has as many steps as fill these bits. -/
theorem quotient_bounds {n : Nat} (hn : 2 ^ (53 : Nat) ≤ n) :
    2 ^ (52 : Nat) ≤ n / 2 ^ (n.log2 - 52) ∧ n / 2 ^ (n.log2 - 52) < 2 ^ (53 : Nat) := by
  have hlog := log2_whole hn
  rw [Nat.le_div_iff_mul_le (Nat.two_pow_pos _), Nat.div_lt_iff_lt_mul (Nat.two_pow_pos _),
    ← Nat.pow_add, ← Nat.pow_add, show 52 + (n.log2 - 52) = n.log2 by omega,
    show 53 + (n.log2 - 52) = n.log2 + 1 by omega]
  exact ⟨Nat.log2_self_le (by omega), Nat.lt_log2_self⟩

theorem EvenHalf.le {n : Nat} (h : EvenHalf n) : 2 ^ (53 : Nat) ≤ n := by
  obtain ⟨q, k, rfl, hq, -⟩ := h
  have := Nat.le_mul_of_pos_right (2 * q + 1) (Nat.two_pow_pos k)
  omega

/-- Zeros at the end change nothing. -/
theorem EvenHalf.mul_two_pow {n : Nat} (h : EvenHalf n) (j : Nat) : EvenHalf (n * 2 ^ j) := by
  obtain ⟨q, k, rfl, hq⟩ := h
  exact ⟨q, k + j, by rw [Nat.pow_add, Nat.mul_assoc], hq⟩

/-- Where a number is rounded, a half leaves half a step. -/
theorem evenHalf_iff {n : Nat} (hn : 2 ^ (53 : Nat) ≤ n) :
    EvenHalf n ↔
      2 * (n % 2 ^ (n.log2 - 52)) = 2 ^ (n.log2 - 52) ∧ n / 2 ^ (n.log2 - 52) % 2 = 0 := by
  constructor
  · rintro ⟨q, k, rfl, hq, hq', heven⟩
    have hpow : 2 ^ (k + 1) = 2 * 2 ^ k := by rw [Nat.pow_succ, Nat.mul_comm]
    have hsplit : (2 * q + 1) * 2 ^ k = 2 ^ k + q * 2 ^ (k + 1) := by
      rw [hpow, Nat.add_mul, Nat.one_mul, Nat.add_comm, Nat.mul_left_comm, Nat.mul_assoc]
    have hlt : 2 ^ k < 2 ^ (k + 1) := by
      have := Nat.two_pow_pos k
      omega
    rw [log2_half hq hq', show 53 + k - 52 = k + 1 by omega, hsplit, Nat.add_mul_mod_self_right,
      Nat.add_mul_div_right _ _ (Nat.two_pow_pos _), Nat.mod_eq_of_lt hlt, Nat.div_eq_of_lt hlt,
      Nat.zero_add]
    exact ⟨hpow.symm, heven⟩
  · rintro ⟨hhalf, heven⟩
    obtain ⟨hlow, hhigh⟩ := quotient_bounds hn
    have hlog := log2_whole hn
    obtain ⟨k, hk⟩ : ∃ k, n.log2 - 52 = k + 1 := ⟨n.log2 - 53, by omega⟩
    rw [hk] at hhalf heven hlow hhigh
    have hpow : 2 ^ (k + 1) = 2 * 2 ^ k := by rw [Nat.pow_succ, Nat.mul_comm]
    have hsplit := Nat.div_add_mod' n (2 ^ (k + 1))
    refine ⟨n / 2 ^ (k + 1), k, ?_, hlow, hhigh, heven⟩
    rw [Nat.add_mul, Nat.one_mul, Nat.mul_right_comm, ← hpow, Nat.mul_comm (2 ^ (k + 1))]
    omega

/-! ## 2. Whole numbers on the grid -/

/-- Rounding a whole number that has more bits than a double. -/
theorem nearestUnits_whole {n : Nat} (hn : 2 ^ (53 : Nat) ≤ n) :
    nearestUnits (n * one) 1
      = (n.log2 + 1022) * 2 ^ (52 : Nat) + divideToEven n (2 ^ (n.log2 - 52)) := by
  have hlog := log2_whole hn
  have hstep : stepOf (n * one) 1 = n.log2 + 1022 := by
    rw [stepOf, Nat.div_one, one, log2_mul_two_pow (by omega) 1074]
    omega
  have hpow : 1 * 2 ^ (n.log2 + 1022) = 2 ^ (n.log2 - 52) * one := by
    rw [Nat.one_mul, one, ← Nat.pow_add 2 (n.log2 - 52) 1074,
      show n.log2 - 52 + 1074 = n.log2 + 1022 by omega]
  rw [nearestUnits, hstep, hpow, divideToEven_mul_right _ _ one_pos]

theorem divideToEven_bounds {n : Nat} (hn : 2 ^ (53 : Nat) ≤ n) :
    2 ^ (52 : Nat) ≤ divideToEven n (2 ^ (n.log2 - 52)) ∧
      divideToEven n (2 ^ (n.log2 - 52)) ≤ 2 ^ (53 : Nat) := by
  have hbounds := quotient_bounds hn
  have hcases := divideToEven_cases n (2 ^ (n.log2 - 52))
  generalize n / 2 ^ (n.log2 - 52) = quotient at *
  generalize divideToEven n (2 ^ (n.log2 - 52)) = rounded at *
  omega

/-- The rounding of such a number is a normal number. -/
theorem le_nearestUnits_whole {n : Nat} (hn : 2 ^ (53 : Nat) ≤ n) :
    2 ^ (52 : Nat) * (n.log2 + 1023) ≤ nearestUnits (n * one) 1 := by
  have hbounds := divideToEven_bounds hn
  rw [nearestUnits_whole hn]
  generalize divideToEven n (2 ^ (n.log2 - 52)) = rounded at *
  omega

/-- Digits behind a number stay behind its quotient, in the rest. -/
theorem append_div_mod (n : Nat) {c d D : Nat} (hd : d < c) (h0 : 0 < D) :
    (n * c + d) / (D * c) = n / D ∧ (n * c + d) % (D * c) = n % D * c + d := by
  have hroom : (n % D + 1) * c ≤ D * c := Nat.mul_le_mul_right c (Nat.mod_lt n h0)
  rw [Nat.add_one_mul] at hroom
  have hsplit : n * c + d = n % D * c + d + n / D * (D * c) := by
    have := Nat.div_add_mod' n D
    calc n * c + d = (n / D * D + n % D) * c + d := by rw [this]
      _ = n % D * c + d + n / D * (D * c) := by rw [Nat.add_mul, Nat.mul_assoc]; omega
  have hsmall : n % D * c + d < D * c := by omega
  have hpos : 0 < D * c := by omega
  constructor
  · rw [hsplit, Nat.add_mul_div_right _ _ hpos, Nat.div_eq_of_lt hsmall, Nat.zero_add]
  · rw [hsplit, Nat.add_mul_mod_self_right, Nat.mod_eq_of_lt hsmall]

/-- Digits behind a number show in its rounding only if it stood half way and was rounded
down. -/
theorem divideToEven_append (n : Nat) {c d D : Nat} (hd : d < c) (hD : D % 2 = 0) (h0 : 0 < D) :
    divideToEven (n * c + d) (D * c)
      = divideToEven n D + if 2 * (n % D) = D ∧ n / D % 2 = 0 ∧ 0 < d then 1 else 0 := by
  obtain ⟨hdiv, hmod⟩ := append_div_mod n hd h0
  unfold divideToEven
  simp only [hdiv, hmod]
  rcases Nat.lt_trichotomy (2 * (n % D)) D with hlow | hhalf | hhigh
  · have hroom' : (2 * (n % D) + 2) * c ≤ D * c := Nat.mul_le_mul_right c (by omega)
    rw [Nat.add_mul, Nat.mul_assoc] at hroom'
    rw [if_pos (by omega), if_pos hlow, if_neg (by omega), Nat.add_zero]
  · have hhalf' : 2 * (n % D * c) = D * c := by rw [← Nat.mul_assoc, hhalf]
    have hlow : ¬2 * (n % D) < D := by omega
    have hhigh : ¬D < 2 * (n % D) := by omega
    rw [if_neg (by omega), if_neg hlow, if_neg hhigh]
    split <;> split <;> omega
  · have hroom' : (D + 1) * c ≤ 2 * (n % D) * c := Nat.mul_le_mul_right c hhigh
    rw [Nat.add_mul, Nat.mul_assoc] at hroom'
    rw [if_neg (by omega), if_pos (by omega), if_neg (by omega), if_pos hhigh, if_neg (by omega)]

theorem log2_append {n b d : Nat} (hn : 0 < n) (hd : d < 2 ^ b) :
    (n * 2 ^ b + d).log2 = n.log2 + b := by
  have hpos : 0 < n * 2 ^ b := Nat.mul_pos hn (Nat.two_pow_pos b)
  rw [Nat.log2_eq_iff (by omega)]
  have hlow := Nat.mul_le_mul_right (2 ^ b) (Nat.log2_self_le (Nat.ne_of_gt hn))
  have hhigh := Nat.mul_le_mul_right (2 ^ b) (show n + 1 ≤ _ from Nat.lt_log2_self)
  rw [← Nat.pow_add] at hlow hhigh
  rw [Nat.add_one_mul] at hhigh
  rw [show n.log2 + b + 1 = n.log2 + 1 + b by omega]
  omega

theorem step_even {n : Nat} (hn : 2 ^ (53 : Nat) ≤ n) : 2 ^ (n.log2 - 52) % 2 = 0 := by
  have hlog := log2_whole hn
  obtain ⟨k, hk⟩ : ∃ k, n.log2 - 52 = k + 1 := ⟨n.log2 - 53, by omega⟩
  rw [hk, Nat.pow_succ, Nat.mul_mod_left]

theorem step_append {n : Nat} (hn : 2 ^ (53 : Nat) ≤ n) (b : Nat) :
    2 ^ (n.log2 + b - 52) = 2 ^ (n.log2 - 52) * 2 ^ b := by
  have hlog := log2_whole hn
  rw [← Nat.pow_add, show n.log2 + b - 52 = n.log2 - 52 + b by omega]

theorem le_append {n : Nat} (hn : 2 ^ (53 : Nat) ≤ n) (b d : Nat) :
    2 ^ (53 : Nat) ≤ n * 2 ^ b + d :=
  Nat.le_add_right_of_le (Nat.le_trans hn (Nat.le_mul_of_pos_right n (Nat.two_pow_pos b)))

/-- A digit can only be behind a half as a zero. -/
theorem EvenHalf.of_append {n b d : Nat} (hn : 2 ^ (53 : Nat) ≤ n) (hd : d < 2 ^ b)
    (h : EvenHalf (n * 2 ^ b + d)) : EvenHalf n ∧ d = 0 := by
  rw [evenHalf_iff (le_append hn b d), log2_append (by omega) hd, step_append hn] at h
  rw [evenHalf_iff hn]
  obtain ⟨hdiv, hmod⟩ := append_div_mod n hd (Nat.two_pow_pos (n.log2 - 52))
  rw [hdiv, hmod] at h
  obtain ⟨hhalf, heven⟩ := h
  have hstep := step_even hn
  generalize 2 ^ (n.log2 - 52) = D at *
  have hexact : 2 * (n % D) = D := by
    refine Nat.le_antisymm (Nat.not_lt.1 fun hgt => ?_) (Nat.not_lt.1 fun hlt => ?_)
    · have := Nat.mul_le_mul_right (2 ^ b) (show D + 1 ≤ _ from hgt)
      rw [Nat.add_one_mul, Nat.mul_assoc] at this
      omega
    · have := Nat.mul_le_mul_right (2 ^ b) (show 2 * (n % D) + 2 ≤ D by omega)
      rw [Nat.add_mul, Nat.mul_assoc] at this
      omega
  have hdouble : 2 * (n % D * 2 ^ b) = D * 2 ^ b := by rw [← Nat.mul_assoc, hexact]
  exact ⟨⟨hexact, heven⟩, by omega⟩

/-- One more digit behind a whole number moves its rounding by the bits of the digit,
unless the number stood half way and had been rounded down. -/
theorem nearestUnits_append {n b d : Nat} (hn : 2 ^ (53 : Nat) ≤ n) (hd : d < 2 ^ b) :
    (EvenHalf n ∧ 0 < d → nearestUnits ((n * 2 ^ b + d) * one) 1
      = nearestUnits (n * one) 1 + b * 2 ^ (52 : Nat) + 1) ∧
    (¬(EvenHalf n ∧ 0 < d) → nearestUnits ((n * 2 ^ b + d) * one) 1
      = nearestUnits (n * one) 1 + b * 2 ^ (52 : Nat)) := by
  have hlog := log2_whole hn
  rw [nearestUnits_whole hn, nearestUnits_whole (le_append hn b d), log2_append (by omega) hd,
    step_append hn b, divideToEven_append n hd (step_even hn) (Nat.two_pow_pos _), evenHalf_iff hn,
    and_assoc]
  constructor
  · intro h
    rw [if_pos h]
    omega
  · intro h
    rw [if_neg h]
    omega

/-! ## 3. One digit, in doubles -/

/-- A number with no more than 53 bits before the zeros at its end is on the grid. -/
theorem units_nearestUnits_short {n : Nat} (hn : n < 2 ^ (53 : Nat)) (k : Nat) :
    units (nearestUnits (n * 2 ^ k) 1) = n * 2 ^ k := by
  rcases Nat.eq_zero_or_pos n with rfl | hpos
  · rw [Nat.zero_mul, nearestUnits_zero Nat.one_pos]
    rfl
  · have hlog : n.log2 < 53 := (Nat.log2_lt (by omega)).2 hn
    have hstep : stepOf (n * 2 ^ k) 1 ≤ k := by
      rw [stepOf, Nat.div_one, log2_mul_two_pow hpos]
      omega
    have hsplit : n * 2 ^ k
        = n * 2 ^ (k - stepOf (n * 2 ^ k) 1) * 2 ^ stepOf (n * 2 ^ k) 1 := by
      rw [Nat.mul_assoc, ← Nat.pow_add, Nat.sub_add_cancel hstep]
    rw [units_nearestUnits, Nat.one_mul]
    generalize stepOf (n * 2 ^ k) 1 = step at hsplit
    rw [hsplit, divideToEven_mul _ (Nat.two_pow_pos step)]

/-- A point in the range of normal numbers has its multiple by a power of two straight
above it. -/
theorem units_shift {m : Nat} (hm : 2 ^ (52 : Nat) ≤ m) (b : Nat) :
    units (m + b * 2 ^ (52 : Nat)) = units m * 2 ^ b := by
  have hdiv : (m + b * 2 ^ (52 : Nat)) / 2 ^ (52 : Nat) = m / 2 ^ (52 : Nat) + b := by omega
  have hmod : (m + b * 2 ^ (52 : Nat)) % 2 ^ (52 : Nat) = m % 2 ^ (52 : Nat) := by omega
  rw [units_of_exponent_ne_zero (by omega), units_of_exponent_ne_zero (by omega), hdiv, hmod,
    Nat.mul_assoc, ← Nat.pow_add,
    show m / 2 ^ (52 : Nat) + b - 1 = m / 2 ^ (52 : Nat) - 1 + b by omega]

/-- Nor is a whole number that is short in this sense, and not too large, rounded. -/
theorem nearestUnits_short {n k : Nat} (hn : n < 2 ^ (53 : Nat)) (hk : k < 53) :
    nearestUnits (n * 2 ^ k * one) 1 < infinity ∧
      units (nearestUnits (n * 2 ^ k * one) 1) = n * 2 ^ k * one := by
  have hexact : units (nearestUnits (n * 2 ^ k * one) 1) = n * 2 ^ k * one := by
    rw [one, Nat.mul_assoc, ← Nat.pow_add 2 k 1074]
    exact units_nearestUnits_short hn _
  refine ⟨Nat.not_le.1 fun hge => ?_, hexact⟩
  have hbound : 2 ^ (53 : Nat) * 2 ^ (53 : Nat) * one ≤ units infinity := by decide +kernel
  have hpow : 2 ^ k ≤ 2 ^ (53 : Nat) := Nat.pow_le_pow_right (by decide) (by omega)
  have hmul : n * 2 ^ k < 2 ^ (53 : Nat) * 2 ^ (53 : Nat) :=
    Nat.lt_of_lt_of_le (Nat.mul_lt_mul_of_pos_right hn (Nat.two_pow_pos k))
      (Nat.mul_le_mul_left _ hpow)
  have hlt := Nat.mul_lt_mul_of_pos_right hmul one_pos
  have hle := units_le_units hge
  rw [hexact] at hle
  exact absurd (Nat.le_trans hbound hle) (Nat.not_le.2 hlt)

/-- A number with up to 53 bits is rounded to itself. -/
theorem nearest_short {n : Nat} (hn : n < 2 ^ (53 : Nat)) :
    nearest n 1 < infinity ∧ units (nearest n 1) = n * one := by
  have h := @nearestUnits_short n 0 hn (by decide)
  rw [Nat.pow_zero, Nat.mul_one] at h
  rw [nearest_eq_min, Nat.min_eq_right (Nat.le_of_lt h.1)]
  exact h

/-- Multiplying by a power of two, which needs no rounding in the range of normal
numbers. -/
theorem mul_two_pow {m b : Nat} (hm : 2 ^ (52 : Nat) ≤ m) (hb : b < 53) :
    ofMagnitude false (min infinity m) * ofNat (2 ^ b)
      = ofMagnitude false (min infinity (m + b * 2 ^ (52 : Nat))) := by
  obtain ⟨hfin, hunits⟩ := nearest_short (Nat.pow_lt_pow_right (by decide) hb)
  rcases Nat.lt_or_ge m infinity with hlt | hge
  · have hscale := nearestUnits_mul_right (units m * 2 ^ b) 1 one_pos
    rw [Nat.one_mul] at hscale
    rw [ofNat, Nat.min_eq_right (Nat.le_of_lt hlt), mul_ofMagnitude hlt hfin, hunits,
      ← Nat.mul_assoc, hscale, ← units_shift hm, nearestUnits_units]
  · have hpos : 0 < nearest (2 ^ b) 1 := by
      refine Nat.pos_of_ne_zero fun h0 => ?_
      rw [h0, show units 0 = 0 from rfl] at hunits
      exact Nat.ne_of_gt (Nat.mul_pos (Nat.two_pow_pos b) one_pos) hunits.symm
    rw [ofNat, Nat.min_eq_left hge, infinity_mul_ofMagnitude hpos hfin,
      Nat.min_eq_left (Nat.le_add_right_of_le hge)]

/-- Adding a digit, which changes nothing where a step is more than twice any digit. -/
theorem add_digit {m b digit : Nat} (hm : 2 ^ (52 : Nat) * (1076 + b) ≤ m) (hb : b < 53)
    (hdigit : digit < 2 ^ b) :
    ofMagnitude false (min infinity m) + ofNat digit = ofMagnitude false (min infinity m) := by
  have hpow : 2 ^ b ≤ 2 ^ (52 : Nat) := Nat.pow_le_pow_right (by decide) (by omega)
  obtain ⟨hfin, hunits⟩ := nearest_short (show digit < 2 ^ (53 : Nat) by omega)
  rcases Nat.lt_or_ge m infinity with hlt | hge
  · have hroom : 2 * (digit * one) < 2 ^ (m / 2 ^ (52 : Nat) - 1) := by
      have hexp : 1 + b + 1074 ≤ m / 2 ^ (52 : Nat) - 1 := by omega
      refine Nat.lt_of_lt_of_le ?_ (Nat.pow_le_pow_right (by decide) hexp)
      rw [Nat.pow_add 2 (1 + b) 1074, Nat.pow_add 2 1 b, ← one, ← Nat.mul_assoc]
      exact Nat.mul_lt_mul_of_pos_right (by omega) one_pos
    rw [ofNat, Nat.min_eq_right (Nat.le_of_lt hlt), add_ofMagnitude hlt hfin, hunits,
      nearestUnits_add hroom, Nat.min_eq_right (Nat.le_of_lt hlt)]
  · rw [ofNat, Nat.min_eq_left hge, infinity_add_ofMagnitude hfin]

/-- Up to 53 bits a product is exact, and a digit is added with a single rounding. -/
theorem mul_add_short {n b digit : Nat} (hn : n < 2 ^ (53 : Nat)) (hb : b < 53)
    (hdigit : digit < 2 ^ b) :
    ofNat n * ofNat (2 ^ b) + ofNat digit = ofNat (n * 2 ^ b + digit) := by
  have hpow : 2 ^ b ≤ 2 ^ (52 : Nat) := Nat.pow_le_pow_right (by decide) (by omega)
  obtain ⟨hfin, hunits⟩ := nearest_short hn
  obtain ⟨hfin', hunits'⟩ := nearest_short (show 2 ^ b < 2 ^ (53 : Nat) by omega)
  obtain ⟨hfin'', hunits''⟩ := nearest_short (show digit < 2 ^ (53 : Nat) by omega)
  obtain ⟨hlt, hexact⟩ := nearestUnits_short hn hb
  have hproduct : nearestUnits (n * one * (2 ^ b * one)) one
      = nearestUnits (n * 2 ^ b * one) 1 := by
    have hscale := nearestUnits_mul_right (n * 2 ^ b * one) 1 one_pos
    rw [Nat.one_mul] at hscale
    rw [← hscale, ← Nat.mul_assoc, Nat.mul_right_comm n one]
  rw [ofNat, ofNat, ofNat, mul_ofMagnitude hfin hfin', hunits, hunits', hproduct,
    Nat.min_eq_right (Nat.le_of_lt hlt), add_ofMagnitude hlt hfin'', hexact, hunits'',
    ← Nat.add_mul]
  rfl

end ScriptReduce.Binary64
