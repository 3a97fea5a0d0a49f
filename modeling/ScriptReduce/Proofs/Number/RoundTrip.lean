/-
ScriptReduce.Proofs.Number.RoundTrip: a number survives its spelling.

Three steps lead from a double to its text and back. The magnitude becomes
its shortest decimal, which reads back as the magnitude because the search
tries each candidate (`magnitude_shortest`); the last resort of the search,
all digits of the double, stands exactly on the grid. The decimal is laid out
as text in one of four ways, and each is read back as a decimal of the same
magnitude (`plain_decimalText`). The sign goes in front. Negative zero
is written without its sign, and so it is the one finite number that is lost
(`ofLiteral?_toLiteral?_iff`).
-/
import ScriptReduce.Proofs.Number.Bits
import ScriptReduce.Proofs.Number.Digits
import ScriptReduce.Value.Basic

namespace ScriptReduce

/- Powers of natural numbers are core's own, whatever else is in scope. -/
attribute [local instance (high)] instPowNat

/-! ## 1. The grid is exact -/

namespace Binary64

theorem divideToEven_mul (q : Nat) {d : Nat} (hd : 0 < d) : divideToEven (q * d) d = q := by
  unfold divideToEven
  simp only [Nat.mul_mod_left, Nat.mul_div_cancel q hd]
  rw [if_pos (by omega)]

theorem log2_mul_two_pow {n : Nat} (hn : 0 < n) (k : Nat) : (n * 2 ^ k).log2 = n.log2 + k := by
  have hne : n ≠ 0 := Nat.ne_of_gt hn
  have hpos : 0 < 2 ^ k := Nat.two_pow_pos k
  rw [Nat.log2_eq_iff (Nat.ne_of_gt (Nat.mul_pos hn hpos)), Nat.pow_add,
    show n.log2 + k + 1 = n.log2 + 1 + k by omega, Nat.pow_add]
  exact ⟨Nat.mul_le_mul_right _ (Nat.log2_self_le hne),
    Nat.mul_lt_mul_of_pos_right Nat.lt_log2_self hpos⟩

theorem one_pos : 0 < one := by decide +kernel

theorem units_of_exponent_eq_zero {m : Nat} (h : m / 2 ^ (52 : Nat) = 0) :
    units m = m % 2 ^ (52 : Nat) :=
  if_pos h

theorem units_of_exponent_ne_zero {m : Nat} (h : m / 2 ^ (52 : Nat) ≠ 0) :
    units m = (2 ^ (52 : Nat) + m % 2 ^ (52 : Nat)) * 2 ^ (m / 2 ^ (52 : Nat) - 1) :=
  if_neg h

theorem nearest_eq {n d whole : Nat} (h : n * one / d = whole) :
    nearest n d = min infinity ((whole.log2 + 1 - 53) * 2 ^ (52 : Nat)
      + divideToEven (n * one) (d * 2 ^ (whole.log2 + 1 - 53))) := by
  subst h
  rfl

/-- A quotient that stands on the grid is not rounded. -/
theorem nearest_units {m k : Nat} (hm : m < infinity) (hk : 0 < k) :
    nearest (units m * k) (one * k) = m := by
  have hpos : 0 < one * k := Nat.mul_pos one_pos hk
  have hswap : units m * k * one = units m * (one * k) := by rw [Nat.mul_assoc, Nat.mul_comm k]
  rw [nearest_eq (by rw [hswap, Nat.mul_div_cancel _ hpos]), hswap]
  generalize one * k = unit at hpos
  have hsplit := Nat.div_add_mod m (2 ^ (52 : Nat))
  have hfrac : m % 2 ^ (52 : Nat) < 2 ^ (52 : Nat) := Nat.mod_lt _ (Nat.two_pow_pos 52)
  unfold infinity at hm ⊢
  by_cases he : m / 2 ^ (52 : Nat) = 0
  · -- no exponent: the fraction counts units, and the step is one unit
    have hlog : (units m).log2 < 53 := by
      rw [units_of_exponent_eq_zero he]
      rcases Nat.eq_zero_or_pos (m % 2 ^ (52 : Nat)) with h0 | h0
      · rw [h0]; decide
      · exact Nat.lt_succ_of_lt ((Nat.log2_lt (Nat.ne_of_gt h0)).2 hfrac)
    rw [show (units m).log2 + 1 - 53 = 0 by omega, Nat.pow_zero, Nat.mul_one,
      divideToEven_mul _ hpos, units_of_exponent_eq_zero he]
    omega
  · -- the hidden bit makes the fraction 53 bits long, one step for each
    have hlog : (2 ^ (52 : Nat) + m % 2 ^ (52 : Nat)).log2 = 52 := by
      rw [Nat.log2_eq_iff (by omega)]; omega
    rw [units_of_exponent_ne_zero he, log2_mul_two_pow (by omega), hlog,
      show 52 + (m / 2 ^ (52 : Nat) - 1) + 1 - 53 = m / 2 ^ (52 : Nat) - 1 by omega]
    generalize hstep : 2 ^ (m / 2 ^ (52 : Nat) - 1) = step
    have hsteppos : 0 < step := hstep ▸ Nat.two_pow_pos _
    rw [Nat.mul_assoc, Nat.mul_comm step, divideToEven_mul _ (Nat.mul_pos hpos hsteppos)]
    omega

theorem units_pos {m : Nat} (hm : 0 < m) : 0 < units m := by
  have hsplit := Nat.div_add_mod m (2 ^ (52 : Nat))
  by_cases he : m / 2 ^ (52 : Nat) = 0
  · rw [units_of_exponent_eq_zero he]
    omega
  · rw [units_of_exponent_ne_zero he]
    exact Nat.mul_pos (by omega) (Nat.two_pow_pos _)

theorem log2_lt_of_lt {n k : Nat} (hk : 0 < k) (h : n < 2 ^ k) : n.log2 < k := by
  rcases Nat.eq_zero_or_pos n with rfl | hn
  · simpa using hk
  · exact (Nat.log2_lt (Nat.ne_of_gt hn)).2 h

theorem log2_mul_le (a b : Nat) : (a * b).log2 ≤ a.log2 + b.log2 + 1 := by
  refine Nat.lt_succ_iff.1 (log2_lt_of_lt (Nat.succ_pos _) ?_)
  show a * b < 2 ^ (a.log2 + b.log2 + 1 + 1)
  rw [show a.log2 + b.log2 + 1 + 1 = a.log2 + 1 + (b.log2 + 1) by omega, Nat.pow_add]
  exact Nat.mul_lt_mul'' Nat.lt_log2_self Nat.lt_log2_self

theorem log2_succ_le (n : Nat) : (n + 1).log2 ≤ n.log2 + 1 := by
  refine Nat.lt_succ_iff.1 (log2_lt_of_lt (Nat.succ_pos _) ?_)
  have : n < 2 ^ (n.log2 + 1) := Nat.lt_log2_self
  have hpos := Nat.two_pow_pos (n.log2 + 1)
  rw [Nat.pow_succ]
  omega

theorem log2_le_log2 {a b : Nat} (h : a ≤ b) : a.log2 ≤ b.log2 :=
  Nat.lt_succ_iff.1
    (log2_lt_of_lt (Nat.succ_pos _) (Nat.lt_of_le_of_lt h Nat.lt_log2_self))

theorem log2_ten_pow_le (k : Nat) : (10 ^ k).log2 ≤ 4 * k := by
  refine Nat.lt_succ_iff.1 (log2_lt_of_lt (Nat.succ_pos _) ?_)
  have h : 10 ^ k ≤ (2 ^ (4 : Nat)) ^ k := Nat.pow_le_pow_left (by decide) k
  rw [← Nat.pow_mul] at h
  exact Nat.lt_of_le_of_lt h (Nat.pow_lt_pow_right (by decide) (Nat.lt_succ_self _))

/-- No finite double has more units than bits can count up to its exponent. -/
theorem log2_units_lt {m : Nat} (hm : m < infinity) : (units m).log2 < 2100 := by
  have hfrac : m % 2 ^ (52 : Nat) < 2 ^ (52 : Nat) := Nat.mod_lt _ (Nat.two_pow_pos 52)
  unfold infinity at hm
  by_cases he : m / 2 ^ (52 : Nat) = 0
  · rw [units_of_exponent_eq_zero he]
    exact Nat.lt_trans (log2_lt_of_lt (by decide) hfrac) (by decide)
  · have hlog : (2 ^ (52 : Nat) + m % 2 ^ (52 : Nat)).log2 < 53 :=
      log2_lt_of_lt (by decide) (by omega)
    rw [units_of_exponent_ne_zero he, log2_mul_two_pow (by omega)]
    omega

end Binary64

/-! ## 2. The shortest decimal -/

namespace Decimal

open Binary64 (units one infinity nearest)

theorem le_log2_mul_five_pow {n : Nat} (hn : 0 < n) (k : Nat) : k ≤ (n * 5 ^ k).log2 := by
  refine (Nat.le_log2 (Nat.ne_of_gt (Nat.mul_pos hn (Nat.pow_pos (by decide))))).2 ?_
  exact Nat.le_trans (Nat.pow_le_pow_left (by decide) k) (Nat.le_mul_of_pos_left _ hn)

theorem ten_pow (k : Nat) : 10 ^ k = 2 ^ k * 5 ^ k := by rw [← Nat.mul_pow]

/-- All digits of a double stand for it exactly. -/
theorem magnitude_exact {m : Nat} (h0 : 0 < m) (hm : m < infinity) : (exact m).magnitude = m := by
  have hpos : 0 < units m := Binary64.units_pos h0
  have hlog := le_log2_mul_five_pow hpos 1074
  have hten : (10 : Nat) ^ (1074 : Nat) = one * 5 ^ (1074 : Nat) := by
    unfold one
    exact ten_pow 1074
  have hfive := @Nat.pow_pos 5 1074 (by decide)
  unfold Decimal.magnitude exact
  simp only
  rw [if_neg (Nat.ne_of_gt (Nat.mul_pos hpos hfive)), if_neg (by omega), if_neg (by omega),
    if_neg (by omega), show (-(-1074 : Int)).toNat = 1074 from rfl, hten]
  exact Binary64.nearest_units hm hfive

theorem magnitude_withDigits {m count : Nat} {point : Int} {d : Decimal}
    (h : withDigits m point count = some d) : d.magnitude = m := by
  unfold withDigits at h
  simp only at h
  split at h
  · rename_i hc
    cases h
    exact hc.1
  · split at h
    · rename_i hc
      cases h
      exact hc
    · cases h

/-- The shortest decimal is one that `withDigits` found, or all digits. -/
theorem shortest_cases (m : Nat) :
    (∃ count ≤ 17, withDigits m (point (units m)) count = some (shortest m))
      ∨ shortest m = exact m := by
  unfold shortest
  simp only
  cases hs : (List.range 17).findSome? fun i => withDigits m (point (units m)) (i + 1) with
  | none => exact Or.inr rfl
  | some d =>
    obtain ⟨i, hi, hd⟩ := List.exists_of_findSome?_eq_some hs
    have := List.mem_range.1 hi
    exact Or.inl ⟨i + 1, by omega, hd⟩

theorem magnitude_shortest {m : Nat} (h0 : 0 < m) (hm : m < infinity) :
    (shortest m).magnitude = m := by
  rcases shortest_cases m with ⟨_, _, h⟩ | h
  · exact magnitude_withDigits h
  · rw [h]
    exact magnitude_exact h0 hm

theorem digits_trim_le (d : Decimal) : (trim d).digits ≤ d.digits := Nat.div_le_self _ _

theorem log2_digits_withDigits {m count : Nat} {d : Decimal} (hm : m < infinity)
    (hc : count ≤ 17) (h : withDigits m (point (units m)) count = some d) :
    d.digits.log2 < 8000 := by
  have hpoint : -324 ≤ point (units m) := by
    unfold point
    omega
  have hunits := Binary64.log2_units_lt hm
  have hpow := Binary64.log2_ten_pow_le (-(point (units m) - count)).toNat
  have hnum := Binary64.log2_mul_le (units m) (10 ^ (-(point (units m) - count)).toNat)
  have hcandidate : ∀ q, q ≤ units m * 10 ^ (-(point (units m) - count)).toNat + 1 →
      (trim ⟨q, point (units m) - count⟩).digits.log2 < 8000 := by
    intro q hq
    have := Binary64.log2_le_log2 (Nat.le_trans (digits_trim_le ⟨q, point (units m) - count⟩) hq)
    have := Binary64.log2_succ_le (units m * 10 ^ (-(point (units m) - count)).toNat)
    omega
  have hdiv := Nat.div_le_self (units m * 10 ^ (-(point (units m) - count)).toNat)
    (one * 10 ^ (point (units m) - count).toNat)
  unfold withDigits at h
  simp only at h
  split at h
  · cases h
    exact hcandidate _ (Nat.le_succ_of_le hdiv)
  · split at h
    · cases h
      exact hcandidate _ (Nat.succ_le_succ hdiv)
    · cases h

theorem log2_five_pow_le (k : Nat) : (5 ^ k).log2 ≤ 4 * k :=
  Nat.le_trans (Binary64.log2_le_log2 (Nat.pow_le_pow_left (by decide) k))
    (Binary64.log2_ten_pow_le k)

/-- A generous bound on the digits of a shortest decimal. -/
theorem log2_digits_shortest {m : Nat} (hm : m < infinity) :
    (shortest m).digits.log2 < 8000 := by
  rcases shortest_cases m with ⟨_, hc, h⟩ | h
  · exact log2_digits_withDigits hm hc h
  · rw [h]
    have hunits := Binary64.log2_units_lt hm
    have hfive := log2_five_pow_le 1074
    have := Binary64.log2_mul_le (units m) (5 ^ (1074 : Nat))
    show (units m * 5 ^ (1074 : Nat)).log2 < 8000
    omega

theorem magnitude_of_exponent_nonneg {d : Decimal} (hd : 0 < d.digits) (h0 : 0 ≤ d.exponent)
    (h : d.exponent ≤ 400) : d.magnitude = nearest (d.digits * 10 ^ d.exponent.toNat) 1 := by
  unfold Decimal.magnitude
  rw [if_neg (Nat.ne_of_gt hd), if_neg (by omega), if_neg (by omega), if_pos h0]

/-- Only a decimal near the grid has a finite magnitude other than zero. -/
theorem exponent_bounds {d : Decimal} (h0 : 0 < d.magnitude) (hm : d.magnitude < infinity) :
    0 < d.digits ∧ d.exponent ≤ 400 ∧ -(400 + (d.digits.log2 : Int)) ≤ d.exponent := by
  unfold Decimal.magnitude at h0 hm
  split at h0
  · omega
  · rename_i hd
    rw [if_neg hd] at hm
    split at h0
    · rename_i he
      rw [if_pos he] at hm
      omega
    · split at h0
      · omega
      · exact ⟨Nat.pos_of_ne_zero hd, by omega, by omega⟩

end Decimal

/-! ## 3. Layouts -/

namespace Number

open Binary64 (infinity)

/-- A text without a sign that spells a magnitude for every reader of numbers:
it is a decimal, it announces no radix and it is not an old octal number. -/
structure Plain (cs : List Char) (m : Nat) : Prop where
  value : (readDecimal cs).map Decimal.toFloat = some (Binary64.ofMagnitude false m)
  head : ∃ c ds, cs = c :: ds ∧ c.isDigit ∧ (c = '0' → ds = [] ∨ ∃ es, ds = '.' :: es)
  chars : ∀ c ∈ cs, c.isDigit ∨ c ∈ ['.', 'e', '+', '-']

namespace Plain

variable {cs : List Char} {m : Nat}

theorem readRadix (h : Plain cs m) : Number.readRadix cs = none := by
  obtain ⟨c, ds, rfl, -, hzero⟩ := h.head
  unfold Number.readRadix
  split <;> simp_all

theorem isLegacyOctal (h : Plain cs m) : Number.isLegacyOctal cs = false := by
  obtain ⟨c, ds, rfl, -, hzero⟩ := h.head
  unfold Number.isLegacyOctal
  split
  · rename_i heq
    cases heq
    rcases hzero rfl with h | ⟨es, h⟩
    · cases h
    · cases h
      rfl
  · rfl

theorem readUnsigned (h : Plain cs m) :
    Number.readUnsigned cs = some (Binary64.ofMagnitude false m) := by
  rw [Number.readUnsigned, h.readRadix]
  simp only [h.isLegacyOctal, Bool.false_eq_true, if_false]
  exact h.value

theorem filter_separators (h : Plain cs m) : cs.filter (· != '_') = cs := by
  refine List.filter_eq_self.2 fun c hc => ?_
  rw [bne_iff_ne]
  rintro rfl
  rcases h.chars _ hc with hdigit | hmem
  · exact absurd hdigit (by decide)
  · exact absurd hmem (by decide)

theorem readLiteral (h : Plain cs m) :
    Number.readLiteral cs = some (Binary64.ofMagnitude false m) := by
  unfold Number.readLiteral
  split
  · -- a sign is no digit
    obtain ⟨c, ds, heq, hdigit, -⟩ := h.head
    cases heq
    exact absurd hdigit (by decide)
  · rw [h.filter_separators, h.readUnsigned]

end Plain

/-- Zeros at the end of the digits stand for a positive exponent. -/
theorem magnitude_mul_ten_pow {n z : Nat} (hn : 0 < n) (hz : z ≤ 400) :
    (⟨n * 10 ^ z, 0⟩ : Decimal).magnitude = (⟨n, z⟩ : Decimal).magnitude := by
  have hpos : 0 < n * 10 ^ z := Nat.mul_pos hn (Nat.pow_pos (by decide))
  rw [Decimal.magnitude_of_exponent_nonneg hpos (Int.le_refl 0) (by simp only; omega),
    Decimal.magnitude_of_exponent_nonneg hn (Int.natCast_nonneg z) (by simp only; omega)]
  show Binary64.nearest (n * 10 ^ z * 10 ^ (0 : Nat)) 1 = _
  rw [Nat.pow_zero, Nat.mul_one, Int.toNat_natCast]

theorem isDigit_of_mem_replicate {k : Nat} {c : Char} (h : c ∈ List.replicate k '0') :
    c.isDigit := by
  rw [List.eq_of_mem_replicate h]
  rfl

section

variable {ds : List Char} (hne : ds ≠ []) (hdigit : ∀ c ∈ ds, c.isDigit)

include hne hdigit

theorem readDecimal_zeros (k : Nat) :
    readDecimal (ds ++ List.replicate k '0') = some ⟨Nat.ofDigitChars 10 ds 0 * 10 ^ k, 0⟩ := by
  have hall : ∀ c ∈ ds ++ List.replicate k '0', c.isDigit := fun c hc =>
    (List.mem_append.1 hc).elim (hdigit c) isDigit_of_mem_replicate
  have := readDecimal_whole (List.append_ne_nil_of_left_ne_nil hne _) hall endsDigits_nil rfl
  rw [List.append_nil] at this
  rw [this, Nat.ofDigitChars_append, Nat.ofDigitChars_replicate_zero, Nat.mul_comm]

theorem readDecimal_among (k : Nat) :
    readDecimal (ds.take k ++ '.' :: ds.drop k)
      = some ⟨Nat.ofDigitChars 10 ds 0, 0 - (ds.length - k : Nat)⟩ := by
  have hsplit := List.take_append_drop k ds
  have := @readDecimal_point (ds.take k) (ds.drop k) [] 0 (by rw [hsplit]; exact hne)
    (fun c hc => hdigit c (List.mem_of_mem_take hc))
    (fun c hc => hdigit c (List.mem_of_mem_drop hc)) endsDigits_nil rfl
  rwa [List.append_nil, hsplit, List.length_drop] at this

omit hne in
theorem readDecimal_behind (k : Nat) :
    readDecimal ('0' :: '.' :: (List.replicate k '0' ++ ds))
      = some ⟨Nat.ofDigitChars 10 ds 0, 0 - (k + ds.length : Nat)⟩ := by
  have := @readDecimal_point ['0'] (List.replicate k '0' ++ ds) [] 0 (by simp)
    (fun c hc => isDigit_of_mem_replicate (k := 1) hc)
    (fun c hc => (List.mem_append.1 hc).elim isDigit_of_mem_replicate (hdigit c))
    endsDigits_nil rfl
  rwa [List.append_nil, Nat.ofDigitChars_append, Nat.ofDigitChars_append,
    Nat.ofDigitChars_replicate_zero, show Nat.ofDigitChars 10 ['0'] 0 = 0 from rfl,
    Nat.mul_zero, List.length_append, List.length_replicate] at this

end

/-- One digit before the point, and an exponent. -/
theorem readDecimal_scientific {c : Char} {cs : List Char} {e : Int}
    (hdigit : ∀ d ∈ c :: cs, d.isDigit) (he : e.natAbs < 65536) :
    readDecimal (if cs = [] then c :: exponentText e else c :: '.' :: (cs ++ exponentText e))
      = some ⟨Nat.ofDigitChars 10 (c :: cs) 0, e - cs.length⟩ := by
  have hread := readExponent_exponentText he
  have hends := endsDigits_exponentText e
  split
  · rename_i hcs
    subst hcs
    have := @readDecimal_whole [c] (exponentText e) e (by simp) hdigit hends hread
    rw [show [c] ++ exponentText e = c :: exponentText e from rfl] at this
    rw [this]
    simp
  · have := @readDecimal_point [c] cs (exponentText e) e (by simp)
      (fun d hd => hdigit d (by simp_all)) (fun d hd => hdigit d (List.mem_cons_of_mem c hd))
      hends hread
    exact this

/-- A layout reads back as its digits with their exponent, or with the zeros
at the end written out. -/
theorem readDecimal_layout {ds : List Char} (hne : ds ≠ []) (hdigit : ∀ c ∈ ds, c.isDigit)
    (hpos : 0 < Nat.ofDigitChars 10 ds 0) {point : Int} (he : (point - 1).natAbs < 65536) :
    ∃ d, readDecimal (layout ds point) = some d ∧
      d.magnitude = (⟨Nat.ofDigitChars 10 ds 0, point - ds.length⟩ : Decimal).magnitude := by
  have hlast : lastPoint = 21 := rfl
  unfold layout
  by_cases h1 : (ds.length : Int) ≤ point ∧ point ≤ lastPoint
  · rw [if_pos h1]
    refine ⟨_, readDecimal_zeros hne hdigit _, ?_⟩
    rw [magnitude_mul_ten_pow hpos (by omega), Int.toNat_of_nonneg (by omega)]
  · rw [if_neg h1]
    refine ⟨_, ?_, rfl⟩
    by_cases h2 : 0 < point ∧ point ≤ lastPoint
    · rw [if_pos h2, readDecimal_among hne hdigit]
      congr 2
      omega
    · rw [if_neg h2]
      by_cases h3 : firstPoint < point ∧ point ≤ 0
      · rw [if_pos h3, readDecimal_behind hdigit]
        congr 2
        omega
      · rw [if_neg h3]
        cases ds with
        | nil => exact absurd rfl hne
        | cons c cs =>
          have hread := readDecimal_scientific hdigit he
          cases cs with
          | nil => simpa using hread
          | cons c' cs =>
            refine Eq.trans hread ?_
            congr 2
            simp only [List.length_cons]
            omega

theorem layout_head (c : Char) (cs : List Char) (point : Int) :
    (∃ rest, layout (c :: cs) point = c :: rest)
      ∨ ∃ rest, layout (c :: cs) point = '0' :: '.' :: rest := by
  unfold layout
  by_cases h1 : ((c :: cs).length : Int) ≤ point ∧ point ≤ lastPoint
  · rw [if_pos h1]
    exact Or.inl ⟨_, rfl⟩
  · rw [if_neg h1]
    by_cases h2 : 0 < point ∧ point ≤ lastPoint
    · obtain ⟨k, hk⟩ : ∃ k, point.toNat = k + 1 := ⟨point.toNat - 1, by omega⟩
      rw [if_pos h2, hk]
      exact Or.inl ⟨_, rfl⟩
    · rw [if_neg h2]
      by_cases h3 : firstPoint < point ∧ point ≤ 0
      · rw [if_pos h3]
        exact Or.inr ⟨_, rfl⟩
      · rw [if_neg h3]
        cases cs with
        | nil => exact Or.inl ⟨_, rfl⟩
        | cons c' cs => exact Or.inl ⟨_, rfl⟩

section

variable {P : Char → Prop} (hdigit : ∀ c, c.isDigit → P c)
  (hother : ∀ c ∈ ['.', 'e', '+', '-'], P c)

include hdigit hother

theorem forall_mem_exponentText (e : Int) : ∀ c ∈ exponentText e, P c := by
  refine List.forall_mem_cons.2 ⟨hother _ (by decide), List.forall_mem_cons.2 ⟨?_, fun c hc => ?_⟩⟩
  · split <;> exact hother _ (by decide)
  · exact hdigit c (isDigit_of_mem_digitsOf hc)

/-- A layout has digits, a point and an exponent at most. -/
theorem forall_mem_layout {ds : List Char} (hds : ∀ c ∈ ds, c.isDigit) (point : Int) :
    ∀ c ∈ layout ds point, P c := by
  have hd : ∀ c ∈ ds, P c := fun c hc => hdigit c (hds c hc)
  have hz : ∀ k, ∀ c ∈ List.replicate k '0', P c := fun k c hc =>
    hdigit c (isDigit_of_mem_replicate hc)
  have hpoint : P '.' := hother _ (by decide)
  have hexp := forall_mem_exponentText hdigit hother (point - 1)
  intro c hc
  unfold layout at hc
  split at hc
  · exact (List.mem_append.1 hc).elim (hd c) (hz _ c)
  · split at hc
    · rcases List.mem_append.1 hc with hc | hc
      · exact hd c (List.mem_of_mem_take hc)
      · rcases List.mem_cons.1 hc with rfl | hc
        · exact hpoint
        · exact hd c (List.mem_of_mem_drop hc)
    · split at hc
      · rcases List.mem_cons.1 hc with rfl | hc
        · exact hdigit _ rfl
        · rcases List.mem_cons.1 hc with rfl | hc
          · exact hpoint
          · exact (List.mem_append.1 hc).elim (hz _ c) (hd c)
      · split at hc
        · cases hc
        · rcases List.mem_cons.1 hc with rfl | hc
          · exact hd _ List.mem_cons_self
          · exact hexp c hc
        · rcases List.mem_cons.1 hc with rfl | hc
          · exact hd _ List.mem_cons_self
          · rcases List.mem_cons.1 hc with rfl | hc
            · exact hpoint
            · rcases List.mem_append.1 hc with hc | hc
              · exact hd c (List.mem_cons_of_mem _ hc)
              · exact hexp c hc

end

/-! ## 4. From values to literals and back -/

/-- The text of a decimal is read with the magnitude of the decimal. -/
theorem plain_decimalText {d : Decimal} (hd : 0 < d.digits)
    (he : ((Decimal.digitsOf d.digits).length + d.exponent - 1).natAbs < 65536) :
    Plain (decimalText d) d.magnitude := by
  have hdigit : ∀ c ∈ Decimal.digitsOf d.digits, c.isDigit := fun _ => isDigit_of_mem_digitsOf
  have hval := ofDigitChars_digitsOf d.digits
  have hhead := fun c cs => @head_digitsOf_ne_zero d.digits hd c cs
  have hne := digitsOf_ne_nil d.digits
  unfold decimalText
  generalize Decimal.digitsOf d.digits = ds at *
  obtain ⟨d', hread, hmag⟩ := readDecimal_layout hne hdigit (by omega) he
  have hmag' : d'.magnitude = d.magnitude := by
    rw [hmag, hval, show (ds.length : Int) + d.exponent - ds.length = d.exponent by omega]
  constructor
  · rw [hread, Option.map_some, Decimal.toFloat, hmag']
  · cases ds with
    | nil => exact absurd rfl hne
    | cons c cs =>
      rcases layout_head c cs ((c :: cs).length + d.exponent) with ⟨rest, h⟩ | ⟨rest, h⟩
      · exact ⟨c, rest, h, hdigit c List.mem_cons_self, fun h0 => absurd h0 (hhead c cs rfl)⟩
      · exact ⟨'0', '.' :: rest, h, rfl, fun _ => .inr ⟨rest, rfl⟩⟩
  · exact forall_mem_layout (fun c hc => .inl hc) (fun c hc => .inr hc) hdigit _

theorem length_digitsOf_le (n : Nat) : (Decimal.digitsOf n).length ≤ n.log2 + 1 := by
  refine (Nat.length_toDigits_le_iff (by decide) (Nat.succ_pos _)).2 ?_
  exact Nat.lt_of_lt_of_le Nat.lt_log2_self (Nat.pow_le_pow_left (by decide) _)

/-- The text of a finite magnitude is read back. -/
theorem plain_magnitudeText {m : Nat} (hm : m < infinity) : Plain (magnitudeText m) m := by
  unfold magnitudeText
  by_cases h0 : m = 0
  · rw [if_pos h0, h0]
    exact ⟨rfl, ⟨'0', [], rfl, rfl, fun _ => .inl rfl⟩, by simp⟩
  · rw [if_neg h0, if_neg (Nat.ne_of_lt hm)]
    have hmag := Decimal.magnitude_shortest (Nat.pos_of_ne_zero h0) hm
    have hlog := Decimal.log2_digits_shortest hm
    obtain ⟨hd, hhigh, hlow⟩ :=
      Decimal.exponent_bounds (by rw [hmag]; omega) (by rw [hmag]; exact hm)
    have hlen := length_digitsOf_le (Decimal.shortest m).digits
    have hplain := plain_decimalText hd (by omega)
    rwa [hmag] at hplain

/-- Negative zero: the one finite number whose text is that of another. -/
def isNegativeZero (x : Float) : Bool := Binary64.isNegative x && Binary64.magnitude x == 0

theorem toList_text {x : Float} (h : x.isNaN = false) :
    (text x).toList
      = (if Binary64.isNegative x && Binary64.magnitude x != 0 then ['-'] else [])
        ++ magnitudeText (Binary64.magnitude x) := by
  unfold text
  rw [h]
  exact String.toList_ofList

/-- A finite number is the value of the literal that spells it, unless it is
negative zero. -/
theorem ofLiteral?_text_iff {x : Float} (h : x.isFinite) :
    ofLiteral? (text x) = some x ↔ isNegativeZero x = false := by
  have hm := Binary64.magnitude_lt_infinity h
  have hunsigned := (plain_magnitudeText hm).readLiteral
  have hx := Binary64.ofMagnitude_magnitude h
  unfold ofLiteral? isNegativeZero
  rw [toList_text (Binary64.isNaN_of_isFinite h)]
  by_cases hneg : Binary64.isNegative x = true
  · by_cases h0 : Binary64.magnitude x = 0
    · -- the sign is not written, so it is the other zero that is read
      simp only [hneg, h0, bne_self_eq_false, Bool.and_false, Bool.false_eq_true, if_false,
        List.nil_append, beq_self_eq_true, Bool.and_true, iff_false, Bool.true_eq_false]
      rw [h0] at hunsigned hm
      rw [hunsigned]
      intro heq
      have hsign := Binary64.isNegative_ofMagnitude false hm
      rw [Option.some.inj heq, hneg] at hsign
      cases hsign
    · rw [hneg] at hx
      have hsign : (Binary64.isNegative x && Binary64.magnitude x != 0) = true := by
        simp [hneg, h0]
      simp only [hsign, if_true, List.singleton_append, readLiteral, hunsigned, Option.map_some]
      rw [Binary64.neg_ofMagnitude hm, hx]
      simp [h0]
  · have hneg' : Binary64.isNegative x = false := by simpa using hneg
    rw [hneg'] at hx
    simp only [hneg', Bool.false_and, Bool.false_eq_true, if_false, List.nil_append]
    rw [hunsigned, hx]
    simp

end Number

namespace Value

/-- Whether a value is the number negative zero. -/
def isNegativeZero : Value → Bool
  | .number x => Number.isNegativeZero x
  | _ => false

/-- The literal of a value stands for the value, unless it is negative zero. -/
theorem ofLiteral?_toLiteral?_iff {v : Value} {l : Literal} (h : v.toLiteral? = some l) :
    ofLiteral? l = some v ↔ v.isNegativeZero = false := by
  cases v with
  | boolean b =>
    cases h
    exact iff_of_true rfl rfl
  | number x =>
    by_cases hfin : x.isFinite
    · rw [toLiteral?, if_pos hfin] at h
      cases h
      rw [isNegativeZero, ← Number.ofLiteral?_text_iff hfin, ofLiteral?]
      simp
    · rw [toLiteral?, if_neg hfin] at h
      cases h
  | string s =>
    cases h
    exact iff_of_true rfl rfl

end Value

end ScriptReduce
