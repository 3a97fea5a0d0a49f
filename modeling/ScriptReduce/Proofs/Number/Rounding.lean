/-
ScriptReduce.Proofs.Number.Rounding: rounding finds the nearest point of the grid.

Magnitudes are points of a grid, with `units` for their positions, and infinity
stands on it one step behind the largest finite double. `IsNearest` says what it
means that a point is nearest to a quotient of units, with ties going to the even
point. There is one such point (`IsNearest.eq`), and `nearest` finds it
(`isNearest_nearest`).

The work is done on `nearestUnits`, which is `nearest` for a quotient of units and
before it stops at infinity. At a quotient the grid has steps of `2 ^ step` units,
and no point is nearer than the nearest whole number of steps: the points that are
not whole numbers of such steps are all below the range in which steps have this
size (`units_grid`).
-/
import ScriptReduce.Proofs.Number.RoundTrip

namespace ScriptReduce.Binary64

/- Powers of natural numbers are core's own, whatever else is in scope. -/
attribute [local instance (high)] instPowNat

/-! ## 1. The nearest point -/

/-- How far apart two numbers are. -/
def gap (a b : Nat) : Nat := a - b + (b - a)

/-- A point of the grid that is nearest to a quotient of units, and even if another
point is as near. -/
structure IsNearest (numerator denominator m : Nat) : Prop where
  le_infinity : m ≤ infinity
  closest : ∀ m' ≤ infinity,
    gap numerator (units m * denominator) ≤ gap numerator (units m' * denominator)
  even : ∀ m' ≤ infinity, m' ≠ m →
    gap numerator (units m * denominator) = gap numerator (units m' * denominator) → m % 2 = 0

/-! ## 2. The grid -/

/-- From each point to the next it is one step of its exponent. -/
theorem units_succ (m : Nat) : units (m + 1) = units m + 2 ^ (m / 2 ^ (52 : Nat) - 1) := by
  have hsplit := Nat.div_add_mod m (2 ^ (52 : Nat))
  have hlt : m % 2 ^ (52 : Nat) < 2 ^ (52 : Nat) := Nat.mod_lt _ (Nat.two_pow_pos 52)
  by_cases hcarry : m % 2 ^ (52 : Nat) + 1 < 2 ^ (52 : Nat)
  · -- within one exponent
    have hdiv : (m + 1) / 2 ^ (52 : Nat) = m / 2 ^ (52 : Nat) := by omega
    have hmod : (m + 1) % 2 ^ (52 : Nat) = m % 2 ^ (52 : Nat) + 1 := by omega
    by_cases he : m / 2 ^ (52 : Nat) = 0
    · rw [units_of_exponent_eq_zero he, units_of_exponent_eq_zero (by omega), hmod, he]
    · rw [units_of_exponent_ne_zero he, units_of_exponent_ne_zero (by omega), hdiv, hmod,
        ← Nat.add_assoc, Nat.add_one_mul]
  · -- a carry into the next one
    have hdiv : (m + 1) / 2 ^ (52 : Nat) = m / 2 ^ (52 : Nat) + 1 := by omega
    have hmod : (m + 1) % 2 ^ (52 : Nat) = 0 := by omega
    rw [units_of_exponent_ne_zero (m := m + 1) (by omega), hdiv, hmod, Nat.add_sub_cancel]
    by_cases he : m / 2 ^ (52 : Nat) = 0
    · rw [units_of_exponent_eq_zero he, he]
      omega
    · obtain ⟨e, he'⟩ : ∃ e, m / 2 ^ (52 : Nat) = e + 1 := ⟨_, (Nat.succ_pred he).symm⟩
      have hpow : 2 ^ (e + 1) = 2 * 2 ^ e := by rw [Nat.pow_succ, Nat.mul_comm]
      rw [units_of_exponent_ne_zero he, he', Nat.add_sub_cancel, hpow, ← Nat.mul_assoc,
        ← Nat.add_one_mul]
      congr 1
      omega

theorem units_lt_units {m m' : Nat} (h : m < m') : units m < units m' := by
  have hsucc : ∀ m, units m < units (m + 1) := fun m => by
    rw [units_succ]
    exact Nat.lt_add_of_pos_right (Nat.two_pow_pos _)
  induction h with
  | refl => exact hsucc m
  | step _ ih => exact Nat.lt_trans ih (hsucc _)

theorem units_le_units {m m' : Nat} (h : m ≤ m') : units m ≤ units m' := by
  rcases Nat.eq_or_lt_of_le h with rfl | h
  · exact Nat.le_refl _
  · exact Nat.le_of_lt (units_lt_units h)

/-- The point that is a number of steps up: at most `2 ^ 53` steps of its size, and
at least half as many unless the step is one unit. -/
theorem units_steps {step r : Nat} (hr : r ≤ 2 ^ (53 : Nat))
    (h : step = 0 ∨ 2 ^ (52 : Nat) ≤ r) : units (step * 2 ^ (52 : Nat) + r) = r * 2 ^ step := by
  by_cases hlow : r < 2 ^ (52 : Nat)
  · have h0 : step = 0 := by omega
    subst h0
    rw [Nat.zero_mul, Nat.zero_add, units_of_exponent_eq_zero (by omega), Nat.pow_zero,
      Nat.mul_one, Nat.mod_eq_of_lt hlow]
  · by_cases htop : r = 2 ^ (53 : Nat)
    · have hdiv : (step * 2 ^ (52 : Nat) + r) / 2 ^ (52 : Nat) = step + 2 := by omega
      have hmod : (step * 2 ^ (52 : Nat) + r) % 2 ^ (52 : Nat) = 0 := by omega
      rw [units_of_exponent_ne_zero (by omega), hdiv, hmod, Nat.add_zero,
        show step + 2 - 1 = 1 + step by omega, htop, Nat.pow_add, ← Nat.mul_assoc]
    · have hdiv : (step * 2 ^ (52 : Nat) + r) / 2 ^ (52 : Nat) = step + 1 := by omega
      have hmod : 2 ^ (52 : Nat) + (step * 2 ^ (52 : Nat) + r) % 2 ^ (52 : Nat) = r := by omega
      rw [units_of_exponent_ne_zero (by omega), hdiv, hmod, Nat.add_sub_cancel]

/-- A point is a whole number of steps up, or else it is too low for steps of this
size. -/
theorem units_grid (m step : Nat) :
    (∃ k, units m = k * 2 ^ step) ∨ 0 < step ∧ units m < 2 ^ (52 : Nat) * 2 ^ step := by
  have hfrac : m % 2 ^ (52 : Nat) < 2 ^ (52 : Nat) := Nat.mod_lt _ (Nat.two_pow_pos 52)
  have hpow := Nat.two_pow_pos step
  by_cases he : m / 2 ^ (52 : Nat) = 0
  · rw [units_of_exponent_eq_zero he]
    rcases Nat.eq_zero_or_pos step with rfl | hstep
    · exact .inl ⟨_, (Nat.mul_one _).symm⟩
    · exact .inr ⟨hstep, Nat.lt_of_lt_of_le hfrac (Nat.le_mul_of_pos_right _ hpow)⟩
  · obtain ⟨e, he'⟩ : ∃ e, m / 2 ^ (52 : Nat) = e + 1 := ⟨_, (Nat.succ_pred he).symm⟩
    rw [units_of_exponent_ne_zero he, he', Nat.add_sub_cancel]
    rcases Nat.lt_or_ge e step with hlt | hge
    · refine .inr ⟨by omega, ?_⟩
      have hle : 2 ^ (e + 1) ≤ 2 ^ step := Nat.pow_le_pow_right (by decide) hlt
      calc (2 ^ (52 : Nat) + m % 2 ^ (52 : Nat)) * 2 ^ e
          < 2 ^ (53 : Nat) * 2 ^ e := Nat.mul_lt_mul_of_pos_right (by omega) (Nat.two_pow_pos e)
        _ = 2 ^ (52 : Nat) * 2 ^ (e + 1) := by rw [Nat.pow_succ 2 52, Nat.pow_succ 2 e]; ac_rfl
        _ ≤ 2 ^ (52 : Nat) * 2 ^ step := Nat.mul_le_mul_left _ hle
    · refine .inl ⟨(2 ^ (52 : Nat) + m % 2 ^ (52 : Nat)) * 2 ^ (e - step), ?_⟩
      rw [Nat.mul_assoc, ← Nat.pow_add, Nat.sub_add_cancel hge]

/-! ## 3. The nearest multiple -/

/-- A quotient is rounded to one of the whole numbers around it. -/
theorem divideToEven_cases (n d : Nat) :
    divideToEven n d = n / d ∧ 2 * (n % d) ≤ d
      ∨ divideToEven n d = n / d + 1 ∧ d ≤ 2 * (n % d) := by
  unfold divideToEven
  simp only
  split
  · exact .inl ⟨rfl, by omega⟩
  · split
    · exact .inr ⟨rfl, by omega⟩
    · rcases Nat.mod_two_eq_zero_or_one (n / d) with h | h
      · exact .inl ⟨by rw [h, Nat.add_zero], by omega⟩
      · exact .inr ⟨by rw [h], by omega⟩

/-- Exactly between two whole numbers, the even one is taken. -/
theorem divideToEven_half {n d : Nat} (h : 2 * (n % d) = d) :
    divideToEven n d % 2 = 0 := by
  unfold divideToEven
  simp only
  rw [if_neg (by omega), if_neg (by omega)]
  omega

theorem divideToEven_mul_right (n d : Nat) {c : Nat} (hc : 0 < c) :
    divideToEven (n * c) (d * c) = divideToEven n d := by
  unfold divideToEven
  simp only
  rw [Nat.mul_div_mul_right _ _ hc, Nat.mul_mod_mul_right, ← Nat.mul_assoc]
  simp only [Nat.mul_lt_mul_right hc]

/-- No multiple of `d` is nearer than the one that rounding gives. -/
theorem gap_divideToEven_le (n k : Nat) {d : Nat} (hd : 0 < d) :
    gap n (divideToEven n d * d) ≤ gap n (k * d) := by
  have hsplit := Nat.div_add_mod' n d
  have hlt := Nat.mod_lt n hd
  have hside : k * d ≤ n / d * d ∨ n / d * d + d ≤ k * d := by
    rcases Nat.lt_or_ge (n / d) k with h | h
    · have := Nat.mul_le_mul_right d h
      rw [Nat.succ_mul] at this
      exact .inr this
    · exact .inl (Nat.mul_le_mul_right d h)
  unfold gap
  rcases divideToEven_cases n d with ⟨h, h'⟩ | ⟨h, h'⟩
  · rw [h]
    omega
  · rw [h, Nat.succ_mul]
    omega

/-- If another multiple of `d` is as near, rounding gives the even one. -/
theorem divideToEven_even {n k d : Nat} (hd : 0 < d) (hne : k ≠ divideToEven n d)
    (hgap : gap n (divideToEven n d * d) = gap n (k * d)) : divideToEven n d % 2 = 0 := by
  refine divideToEven_half
    (Nat.le_antisymm (Nat.not_lt.1 fun hgt => ?_) (Nat.not_lt.1 fun hlt => ?_))
  -- off the half way, the other multiple would be farther away
  rotate_left
  · have := Nat.div_add_mod' n d
    have h : divideToEven n d = n / d := if_pos hlt
    rw [h] at hne hgap
    unfold gap at hgap
    rcases Nat.lt_or_gt_of_ne hne with hk | hk
    · have := Nat.mul_le_mul_right d hk
      rw [Nat.succ_mul] at this
      omega
    · have := Nat.mul_le_mul_right d hk
      rw [Nat.succ_mul] at this
      omega
  · have := Nat.div_add_mod' n d
    have := Nat.mod_lt n hd
    have h : divideToEven n d = n / d + 1 := by
      unfold divideToEven
      simp only
      rw [if_neg (by omega), if_pos hgt]
    rw [h] at hne hgap
    unfold gap at hgap
    rw [Nat.succ_mul] at hgap
    rcases Nat.lt_or_gt_of_ne hne with hk | hk
    · have := Nat.mul_le_mul_right d (Nat.lt_succ_iff.1 hk)
      omega
    · have := Nat.mul_le_mul_right d hk
      rw [Nat.succ_mul, Nat.succ_mul] at this
      omega

/-! ## 4. Rounding a quotient of units -/

/-- At a quotient, the points of the grid are `2 ^ stepOf` units apart. -/
def stepOf (n d : Nat) : Nat := (n / d).log2 + 1 - 53

/-- The point nearest to a quotient of units, on a grid that goes on past infinity. -/
def nearestUnits (n d : Nat) : Nat :=
  stepOf n d * 2 ^ (52 : Nat) + divideToEven n (d * 2 ^ stepOf n d)

theorem nearest_eq_min (n d : Nat) : nearest n d = min infinity (nearestUnits (n * one) d) := rfl

theorem nearestUnits_mul_right (n d : Nat) {c : Nat} (hc : 0 < c) :
    nearestUnits (n * c) (d * c) = nearestUnits n d := by
  have hstep : stepOf (n * c) (d * c) = stepOf n d := by
    rw [stepOf, stepOf, Nat.mul_div_mul_right _ _ hc]
  rw [nearestUnits, nearestUnits, hstep, Nat.mul_right_comm, divideToEven_mul_right _ _ hc]

section

variable {n d : Nat}

/-- Less than `2 ^ 53` steps go up to a quotient, and at least half as many unless a
step is one unit. -/
theorem steps_bounds :
    n / (d * 2 ^ stepOf n d) < 2 ^ (53 : Nat) ∧
      (stepOf n d = 0 ∨ 2 ^ (52 : Nat) ≤ n / (d * 2 ^ stepOf n d)) := by
  have hpow := Nat.two_pow_pos (stepOf n d)
  have hdiv : n / (d * 2 ^ stepOf n d) = n / d / 2 ^ stepOf n d := (Nat.div_div_eq_div_mul ..).symm
  have hlt : n / d < 2 ^ ((n / d).log2 + 1) := Nat.lt_log2_self
  rw [hdiv]
  constructor
  · rw [Nat.div_lt_iff_lt_mul hpow, ← Nat.pow_add]
    refine Nat.lt_of_lt_of_le hlt (Nat.pow_le_pow_right (by decide) ?_)
    unfold stepOf
    omega
  · rcases Nat.eq_zero_or_pos (stepOf n d) with h | h
    · exact .inl h
    · have hne : n / d ≠ 0 := by
        intro h0
        rw [stepOf, h0] at h
        simp at h
      have hlog : (n / d).log2 = 52 + stepOf n d := by
        unfold stepOf at h ⊢
        omega
      rw [Nat.le_div_iff_mul_le hpow, ← Nat.pow_add, ← hlog]
      exact .inr (Nat.log2_self_le hne)

theorem rounded_bounds :
    divideToEven n (d * 2 ^ stepOf n d) ≤ 2 ^ (53 : Nat) ∧
      (stepOf n d = 0 ∨ 2 ^ (52 : Nat) ≤ divideToEven n (d * 2 ^ stepOf n d)) := by
  have hbounds := @steps_bounds n d
  rcases divideToEven_cases n (d * 2 ^ stepOf n d) with ⟨h, -⟩ | ⟨h, -⟩ <;> rw [h] <;> omega

/-- The position of the nearest point. -/
theorem units_nearestUnits :
    units (nearestUnits n d) = divideToEven n (d * 2 ^ stepOf n d) * 2 ^ stepOf n d :=
  units_steps rounded_bounds.1 rounded_bounds.2

variable (hd : 0 < d)

include hd

/-- No point is nearer, and if one is as near then the point is even. -/
theorem gap_nearestUnits (m : Nat) :
    gap n (units (nearestUnits n d) * d) ≤ gap n (units m * d) ∧
      (m ≠ nearestUnits n d →
        gap n (units (nearestUnits n d) * d) = gap n (units m * d) →
        nearestUnits n d % 2 = 0) := by
  have hD : 0 < d * 2 ^ stepOf n d := Nat.mul_pos hd (Nat.two_pow_pos _)
  have hswap : ∀ k, k * 2 ^ stepOf n d * d = k * (d * 2 ^ stepOf n d) := fun k => by
    rw [Nat.mul_assoc, Nat.mul_comm d]
  have hparity : nearestUnits n d % 2 = divideToEven n (d * 2 ^ stepOf n d) % 2 := by
    unfold nearestUnits
    omega
  have hunits := @units_nearestUnits n d
  rw [hunits, hswap]
  rcases units_grid m (stepOf n d) with ⟨k, hk⟩ | ⟨hstep, hlow⟩
  · rw [hk, hswap]
    refine ⟨gap_divideToEven_le n k hD, fun hne hgap => ?_⟩
    rw [hparity]
    refine divideToEven_even hD ?_ hgap
    rintro rfl
    -- two points at one position
    rcases Nat.lt_or_gt_of_ne hne with hlt | hlt
    · exact absurd (units_lt_units hlt) (by rw [hk, hunits]; exact Nat.lt_irrefl _)
    · exact absurd (units_lt_units hlt) (by rw [hk, hunits]; exact Nat.lt_irrefl _)
  · -- the point lies below the first multiple of this size, and that below the quotient
    have hquotient : 2 ^ (52 : Nat) * (d * 2 ^ stepOf n d) ≤ n :=
      (Nat.le_div_iff_mul_le hD).1 (steps_bounds.2.resolve_left (by omega))
    have hlow' := Nat.mul_lt_mul_of_pos_right hlow hd
    rw [hswap] at hlow'
    have hnear := gap_divideToEven_le n (2 ^ (52 : Nat)) hD
    unfold gap at hnear ⊢
    exact ⟨by omega, fun _ hgap => by omega⟩

/-- Past infinity, infinity is the nearest point. -/
theorem isNearest_nearestUnits : IsNearest n d (min infinity (nearestUnits n d)) := by
  rcases Nat.lt_or_ge infinity (nearestUnits n d) with hover | hin
  · rw [Nat.min_eq_left (Nat.le_of_lt hover)]
    -- infinity cannot lie above the quotient: it would be nearer than the point behind it
    have hbelow : units infinity * d ≤ n := by
      have hnear := (gap_nearestUnits (n := n) hd infinity).1
      have := Nat.mul_lt_mul_of_pos_right (units_lt_units hover) hd
      unfold gap at hnear
      omega
    have hgap : ∀ m' < infinity, gap n (units infinity * d) < gap n (units m' * d) := by
      intro m' hm'
      have := Nat.mul_lt_mul_of_pos_right (units_lt_units hm') hd
      unfold gap
      omega
    refine ⟨Nat.le_refl _, fun m' hm' => ?_, fun m' hm' hne heq => ?_⟩
    · rcases Nat.eq_or_lt_of_le hm' with rfl | hlt
      · exact Nat.le_refl _
      · exact Nat.le_of_lt (hgap m' hlt)
    · exact absurd heq (Nat.ne_of_lt (hgap m' (by omega)))
  · rw [Nat.min_eq_right hin]
    exact ⟨hin, fun m' _ => (gap_nearestUnits hd m').1, fun m' _ => (gap_nearestUnits hd m').2⟩

/-- There is only one nearest point: between two even points lies another. -/
theorem IsNearest.eq {m m' : Nat} (h : IsNearest n d m) (h' : IsNearest n d m') : m = m' :=
  Nat.le_antisymm (Nat.not_lt.1 (not_lt hd h' h)) (Nat.not_lt.1 (not_lt hd h h'))
where
  not_lt {n d m m' : Nat} (hd : 0 < d) (h : IsNearest n d m) (h' : IsNearest n d m') :
      ¬m < m' := by
    intro hlt
    have hequal := Nat.le_antisymm (h.closest m' h'.le_infinity) (h'.closest m h.le_infinity)
    have heven := h.even m' h'.le_infinity (Nat.ne_of_gt hlt) hequal
    have heven' := h'.even m h.le_infinity (Nat.ne_of_lt hlt) hequal.symm
    have hbetween := h.closest (m + 1) (Nat.le_trans hlt h'.le_infinity)
    have hlow := Nat.mul_lt_mul_of_pos_right (units_lt_units (Nat.lt_add_one m)) hd
    have hhigh := Nat.mul_lt_mul_of_pos_right
      (units_lt_units (show m + 1 < m' by omega)) hd
    unfold gap at hequal hbetween
    omega

end

/-- A little more than the units of a point is rounded to the point: less than half a
step. -/
theorem nearestUnits_add {m e : Nat} (h : 2 * e < 2 ^ (m / 2 ^ (52 : Nat) - 1)) :
    nearestUnits (units m + e) 1 = m := by
  have hnear := (@gap_nearestUnits (units m + e) 1 Nat.one_pos m).1
  have hsucc := units_succ m
  rw [Nat.mul_one, Nat.mul_one] at hnear
  rcases Nat.lt_trichotomy (nearestUnits (units m + e) 1) m with hlt | heq | hgt
  · have := units_lt_units hlt
    unfold gap at hnear
    omega
  · exact heq
  · have := units_le_units (show m + 1 ≤ _ from hgt)
    unfold gap at hnear
    omega

theorem nearestUnits_units (m : Nat) : nearestUnits (units m) 1 = m :=
  nearestUnits_add (e := 0) (Nat.two_pow_pos _)

/-- `nearest` finds the nearest point. -/
theorem isNearest_nearest (n : Nat) {d : Nat} (hd : 0 < d) :
    IsNearest (n * one) d (nearest n d) :=
  isNearest_nearestUnits hd

end ScriptReduce.Binary64
