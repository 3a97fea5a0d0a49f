/-
ScriptReduce.Proofs.Number.Radix: what the digits behind a radix are rounded to.

Up to 128 bits the number that the digits spell is rounded once, and so to the nearest
double. A longer one is summed up in doubles, digit by digit. The radixes are powers of
two, so the sum is exact as long as there are up to 53 bits. The digit that brings more
is the only one whose addition is rounded: each further digit moves the magnitude by its
own bits and leaves nothing else (`Accumulated.step`).

This is the nearest double but for one case. If the digits up to some place spell a
number half way between two doubles, the lower of which is even, they are rounded down;
a digit behind them that is not zero would have to turn this, and is lost
(`LosesTail`). Then the sum is one magnitude short of the nearest, which is seen unless
both are infinite (`read_radix_rounds_iff`).
-/
import ScriptReduce.Proofs.Number.Conversion
import ScriptReduce.Proofs.Number.Halves
import ScriptReduce.Proofs.Number.Separators

namespace ScriptReduce.Number

/- Powers of natural numbers are core's own, whatever else is in scope. -/
attribute [local instance (high)] instPowNat

open Binary64 (infinity isNegative magnitude ofMagnitude one nearest nearestUnits EvenHalf
  IsNearest)

/-! ## 1. Digits that are lost -/

/-- Some of the digits spell a number half way between two doubles, of which the lower is
even, and not all digits behind them are zeros. -/
def LosesTail (radix : Nat) (values : List Nat) : Prop :=
  ∃ front back, values = front ++ back ∧ EvenHalf (ofDigits radix front) ∧ ∃ v ∈ back, v ≠ 0

theorem ofDigits_concat (radix : Nat) (values : List Nat) (digit : Nat) :
    ofDigits radix (values ++ [digit]) = ofDigits radix values * radix + digit := by
  rw [ofDigits, List.foldl_append]
  rfl

theorem not_losesTail_nil (radix : Nat) : ¬LosesTail radix [] := by
  rintro ⟨front, back, heq, -, v, hv, -⟩
  rw [(List.append_eq_nil_iff.1 heq.symm).2] at hv
  exact absurd hv List.not_mem_nil

/-- Behind the first digit, zeros are no loss. -/
theorem not_losesTail_zeros (radix digit k : Nat) :
    ¬LosesTail radix (digit :: List.replicate k 0) := by
  rintro ⟨front, back, heq, hhalf, v, hv, hne⟩
  cases front with
  | nil => exact absurd hhalf.le (Nat.not_le.2 (Nat.two_pow_pos 53))
  | cons first front =>
    have hzeros : v ∈ List.replicate k 0 :=
      (List.cons.inj heq).2 ▸ List.mem_append_right front hv
    exact hne (List.eq_of_mem_replicate hzeros)

theorem evenHalf_append_zeros {b : Nat} (front back : List Nat) (h : ∀ v ∈ back, v = 0)
    (hhalf : EvenHalf (ofDigits (2 ^ b) front)) : EvenHalf (ofDigits (2 ^ b) (front ++ back)) := by
  induction back generalizing front with
  | nil => simpa using hhalf
  | cons v back ih =>
    obtain ⟨rfl, hback⟩ := List.forall_mem_cons.1 h
    have hnext := ih (front ++ [0]) hback (by
      rw [ofDigits_concat, Nat.add_zero]
      exact hhalf.mul_two_pow b)
    rwa [List.append_assoc, List.singleton_append] at hnext

/-- A digit is lost if one before it was, or if it comes right behind a half. -/
theorem losesTail_concat {b : Nat} {values : List Nat} {digit : Nat} :
    LosesTail (2 ^ b) (values ++ [digit]) ↔
      LosesTail (2 ^ b) values ∨ EvenHalf (ofDigits (2 ^ b) values) ∧ 0 < digit := by
  constructor
  · rintro ⟨front, back, heq, hhalf, v, hv, hne⟩
    rcases List.eq_nil_or_concat back with rfl | ⟨back, last, rfl⟩
    · exact absurd hv List.not_mem_nil
    · rw [List.concat_eq_append, ← List.append_assoc] at heq
      rw [List.concat_eq_append] at hv
      obtain ⟨rfl, hlast⟩ := List.append_inj' heq rfl
      cases hlast
      by_cases hzeros : ∀ v ∈ back, v = 0
      · refine .inr ⟨evenHalf_append_zeros front back hzeros hhalf, ?_⟩
        rcases List.mem_append.1 hv with hv | hv
        · exact absurd (hzeros v hv) hne
        · rw [List.mem_singleton.1 hv] at hne
          exact Nat.pos_of_ne_zero hne
      · obtain ⟨v, hv, hne⟩ : ∃ v ∈ back, v ≠ 0 := by simpa using hzeros
        exact .inl ⟨front, back, rfl, hhalf, v, hv, hne⟩
  · rintro (⟨front, back, rfl, hhalf, v, hv, hne⟩ | ⟨hhalf, hpos⟩)
    · exact ⟨front, back ++ [digit], List.append_assoc .., hhalf, v, List.mem_append_left _ hv, hne⟩
    · exact ⟨values, [digit], rfl, hhalf, digit, List.mem_singleton_self digit, Nat.ne_of_gt hpos⟩

/-! ## 2. Summing up digits -/

/-- The magnitude that digits have been summed up to, on a grid that goes on past
infinity. It is the nearest one unless a digit was lost; then the nearest is the next
one. -/
structure Accumulated (b : Nat) (values : List Nat) (m : Nat) : Prop where
  kept : ¬LosesTail (2 ^ b) values → nearestUnits (ofDigits (2 ^ b) values * one) 1 = m
  lost : LosesTail (2 ^ b) values → nearestUnits (ofDigits (2 ^ b) values * one) 1 = m + 1
  large : LosesTail (2 ^ b) values → 2 ^ (53 : Nat) ≤ ofDigits (2 ^ b) values
  uneven : LosesTail (2 ^ b) values → ¬EvenHalf (ofDigits (2 ^ b) values)
  above : 2 ^ (53 : Nat) ≤ ofDigits (2 ^ b) values →
    2 ^ (52 : Nat) * ((ofDigits (2 ^ b) values).log2 + 1023) ≤ m

section

variable {b m digit : Nat} {values : List Nat}

theorem accumulated_nil (b : Nat) : Accumulated b [] 0 := by
  have hnil := not_losesTail_nil (2 ^ b)
  refine ⟨fun _ => ?_, fun h => absurd h hnil, fun h => absurd h hnil, fun h => absurd h hnil, ?_⟩
  · rw [show ofDigits (2 ^ b) [] = 0 from rfl, Nat.zero_mul]
    exact Binary64.nearestUnits_zero Nat.one_pos
  · intro h
    exact absurd h (Nat.not_le.2 (Nat.two_pow_pos 53))

/-- While there are up to 53 bits, no digit is lost. -/
theorem Accumulated.concat_short (h : Accumulated b values m)
    (hn : ofDigits (2 ^ b) values < 2 ^ (53 : Nat)) :
    Accumulated b (values ++ [digit])
      (nearestUnits (ofDigits (2 ^ b) (values ++ [digit]) * one) 1) := by
  have hkept : ¬LosesTail (2 ^ b) (values ++ [digit]) := by
    rw [losesTail_concat]
    rintro (hlost | ⟨hhalf, -⟩)
    · exact absurd (h.large hlost) (Nat.not_le.2 hn)
    · exact absurd hhalf.le (Nat.not_le.2 hn)
  exact ⟨fun _ => rfl, fun hlost => absurd hlost hkept, fun hlost => absurd hlost hkept,
    fun hlost => absurd hlost hkept, Binary64.le_nearestUnits_whole⟩

/-- A digit behind more bits moves the magnitude by its own bits. -/
theorem Accumulated.concat_large (h : Accumulated b values m) (hd : digit < 2 ^ b)
    (hn : 2 ^ (53 : Nat) ≤ ofDigits (2 ^ b) values) :
    Accumulated b (values ++ [digit]) (m + b * 2 ^ (52 : Nat)) := by
  obtain ⟨hup, hsame⟩ := Binary64.nearestUnits_append hn hd
  have hlog := Binary64.log2_append (show 0 < ofDigits (2 ^ b) values by omega) hd
  have habove := h.above hn
  have huneven : LosesTail (2 ^ b) values →
      ¬(EvenHalf (ofDigits (2 ^ b) values) ∧ 0 < digit) := fun hlost hhalf =>
    h.uneven hlost hhalf.1
  refine ⟨?_, ?_, ?_, ?_, ?_⟩ <;> simp only [ofDigits_concat, losesTail_concat]
  · intro hkept
    obtain ⟨hkept, hhalf⟩ := not_or.1 hkept
    rw [hsame hhalf, h.kept hkept]
  · rintro (hlost | hhalf)
    · rw [hsame (huneven hlost), h.lost hlost]
      omega
    · have hkept : ¬LosesTail (2 ^ b) values := fun hlost => huneven hlost hhalf
      rw [hup hhalf, h.kept hkept]
  · exact fun _ => Binary64.le_append hn b digit
  · rintro hlost hhalf
    obtain ⟨hhalf, hzero⟩ := hhalf.of_append hn hd
    rcases hlost with hlost | ⟨-, hpos⟩
    · exact h.uneven hlost hhalf
    · exact absurd hzero (Nat.ne_of_gt hpos)
  · intro _
    rw [hlog, Nat.add_right_comm, Nat.mul_add, Nat.mul_comm _ b]
    exact Nat.add_le_add_right habove _

/-- One digit is summed up. -/
theorem Accumulated.step (h : Accumulated b values m) (hb : b < 53) (hd : digit < 2 ^ b) :
    ∃ m', ofMagnitude false (min infinity m) * Binary64.ofNat (2 ^ b) + Binary64.ofNat digit
        = ofMagnitude false (min infinity m') ∧
      Accumulated b (values ++ [digit]) m' := by
  rcases Nat.lt_or_ge (ofDigits (2 ^ b) values) (2 ^ (53 : Nat)) with hn | hn
  · refine ⟨_, ?_, h.concat_short hn⟩
    have hkept : ¬LosesTail (2 ^ b) values := fun hlost =>
      absurd (h.large hlost) (Nat.not_le.2 hn)
    rw [← h.kept hkept, ofDigits_concat]
    exact Binary64.mul_add_short hn hb hd
  · have hlog := Binary64.log2_whole hn
    have habove := h.above hn
    refine ⟨m + b * 2 ^ (52 : Nat), ?_, h.concat_large hd hn⟩
    generalize (ofDigits (2 ^ b) values).log2 = log at *
    rw [Binary64.mul_two_pow (by omega) hb, Binary64.add_digit (by omega) hb hd]

/-- All digits are summed up. -/
theorem Accumulated.run (hb : b < 53) (rest : List Nat) (hrest : ∀ v ∈ rest, v < 2 ^ b)
    (h : Accumulated b values m) :
    ∃ m', rest.foldl (fun sum digit => sum * Binary64.ofNat (2 ^ b) + Binary64.ofNat digit)
        (ofMagnitude false (min infinity m)) = ofMagnitude false (min infinity m') ∧
      Accumulated b (values ++ rest) m' := by
  induction rest generalizing values m with
  | nil => exact ⟨m, rfl, by rwa [List.append_nil]⟩
  | cons digit rest ih =>
    obtain ⟨hd, hrest⟩ := List.forall_mem_cons.1 hrest
    obtain ⟨m', hstep, h'⟩ := h.step hb hd
    obtain ⟨m'', hrun, h''⟩ := ih hrest h'
    refine ⟨m'', ?_, ?_⟩
    · rw [List.foldl_cons, hstep, hrun]
    · rwa [List.append_assoc, List.singleton_append] at h''

end

/-! ## 3. The number of digits in a radix -/

/-- The double nearest to a whole number, with ties to even, and infinity past the
largest. -/
structure Rounds (n : Nat) (x : Float) : Prop where
  isNumber : x.isNaN = false
  isPositive : isNegative x = false
  isNearest : IsNearest (n * one) 1 (magnitude x)

theorem rounds_ofMagnitude_iff {n m : Nat} (hm : m ≤ infinity) :
    Rounds n (ofMagnitude false m) ↔ m = nearest n 1 := by
  have hmag := Binary64.magnitude_ofMagnitude false hm
  have hnear := Binary64.isNearest_nearest n Nat.one_pos
  constructor
  · intro h
    have hm' := h.isNearest
    rw [hmag] at hm'
    exact hm'.eq Nat.one_pos hnear
  · rintro rfl
    exact ⟨Binary64.isNaN_ofMagnitude false hm, Binary64.isNegative_ofMagnitude_of_le false hm,
      hmag.symm ▸ hnear⟩

theorem rounds_ofNat (n : Nat) : Rounds n (Binary64.ofNat n) :=
  (rounds_ofMagnitude_iff (Nat.min_le_left _ _)).2 rfl

/-- Past the last double, no loss is seen. -/
theorem Accumulated.infinity_le_iff {b m : Nat} {values : List Nat} (h : Accumulated b values m)
    (hlost : LosesTail (2 ^ b) values) :
    infinity ≤ m ↔ 2 ^ (1024 : Nat) ≤ ofDigits (2 ^ b) values := by
  have hn := h.large hlost
  have hround := h.lost hlost
  have habove := h.above hn
  have hne : ofDigits (2 ^ b) values ≠ 0 := by
    have := Nat.lt_of_lt_of_le (Nat.two_pow_pos 53) hn
    exact Nat.ne_of_gt this
  rw [Binary64.nearestUnits_whole hn] at hround
  have hle := (Binary64.divideToEven_bounds hn).2
  have hrange := @Nat.le_log2 _ 1024 hne
  rw [← hrange]
  generalize (ofDigits (2 ^ b) values).log2 = log at *
  unfold infinity
  constructor
  · intro hm
    refine Nat.not_lt.1 fun hlt => ?_
    have := Nat.mul_le_mul_right (2 ^ (52 : Nat)) (show log + 1022 ≤ 2045 by omega)
    omega
  · intro hlog
    rw [Nat.mul_comm]
    exact Nat.le_trans (Nat.mul_le_mul_left _ (by omega)) habove

/-- A number of more than 128 bits is the sum of its digits. -/
theorem exists_accumulated {b : Nat} (hb : b < 53) {values : List Nat}
    (hvalues : ∀ v ∈ values, v < 2 ^ b) (hlong : ¬ofDigits (2 ^ b) values < 2 ^ (128 : Nat)) :
    ∃ m, ofRadixDigits (2 ^ b) values = ofMagnitude false (min infinity m) ∧
      Accumulated b values m := by
  obtain ⟨m, hrun, h⟩ := (accumulated_nil b).run hb values hvalues
  have hzero : ofMagnitude false (min infinity 0) = Binary64.ofNat 0 := by
    rw [Binary64.ofNat, Binary64.nearest_eq_min, Nat.zero_mul,
      Binary64.nearestUnits_zero Nat.one_pos]
  refine ⟨m, ?_, h⟩
  rw [ofRadixDigits, if_neg hlong, ← hrun, hzero]

/-- What the digits are rounded to: the nearest double, unless the number has more than
128 bits, is in the range of the doubles, and loses its tail. -/
theorem rounds_ofRadixDigits_iff {b : Nat} (hb : b < 53) {values : List Nat}
    (hvalues : ∀ v ∈ values, v < 2 ^ b) :
    Rounds (ofDigits (2 ^ b) values) (ofRadixDigits (2 ^ b) values) ↔
      ofDigits (2 ^ b) values < 2 ^ (128 : Nat) ∨ 2 ^ (1024 : Nat) ≤ ofDigits (2 ^ b) values ∨
        ¬LosesTail (2 ^ b) values := by
  by_cases hshort : ofDigits (2 ^ b) values < 2 ^ (128 : Nat)
  · rw [ofRadixDigits, if_pos hshort]
    exact iff_of_true (rounds_ofNat _) (.inl hshort)
  · obtain ⟨m, hsum, h⟩ := exists_accumulated hb hvalues hshort
    rw [hsum, rounds_ofMagnitude_iff (Nat.min_le_left _ _), Binary64.nearest_eq_min,
      or_iff_right hshort]
    by_cases hlost : LosesTail (2 ^ b) values
    · rw [h.lost hlost, ← h.infinity_le_iff hlost, or_iff_left (not_not_intro hlost)]
      omega
    · rw [h.kept hlost]
      exact iff_of_true rfl (.inr hlost)

/-! ## 4. Literals with a radix -/

theorem RadixMark.exists_two_pow {mark : Char} {radix : Nat} (h : RadixMark mark radix) :
    ∃ b : Nat, b < 53 ∧ radix = 2 ^ b := by
  cases h
  · exact ⟨4, by decide, rfl⟩
  · exact ⟨4, by decide, rfl⟩
  · exact ⟨3, by decide, rfl⟩
  · exact ⟨3, by decide, rfl⟩
  · exact ⟨1, by decide, rfl⟩
  · exact ⟨1, by decide, rfl⟩

theorem digitValues_lt {radix : Nat} {cs : List Char} {values : List Nat}
    (h : digitValues radix cs = some values) : ∀ v ∈ values, v < radix := by
  have hmap : cs.mapM (digitValue radix) = some values := by
    unfold digitValues at h
    split at h
    · cases h
    · exact h
  clear h
  induction cs generalizing values with
  | nil =>
    cases hmap
    exact List.forall_mem_nil _
  | cons c cs ih =>
    simp only [List.mapM_cons, Option.bind_eq_bind, Option.bind_eq_some_iff, Option.pure_def,
      Option.some.injEq] at hmap
    obtain ⟨v, hv, vs, hvs, rfl⟩ := hmap
    exact List.forall_mem_cons.2 ⟨of_decide_eq_true (Option.filter_eq_some_iff.1 hv).2, ih hvs⟩

section

variable {mark : Char} {radix : Nat} {ds : List Char}

theorem RadixMark.not_blank (h : RadixMark mark radix) (hds : Digits false radix ds) :
    ∀ c ∈ '0' :: mark :: ds, Text.isBlank c = false := by
  have hmark : Text.isBlank mark = false := by
    cases h <;> rfl
  refine List.forall_mem_cons.2 ⟨rfl, List.forall_mem_cons.2 ⟨hmark, fun c hc => ?_⟩⟩
  have := ((digits_false_iff.1 hds).2 c hc).toNat h.le_sixteen
  exact Text.isBlank_eq_false (by omega) (by omega)

theorem RadixMark.separator_not_mem (h : RadixMark mark radix) (hds : Digits false radix ds) :
    '_' ∉ '0' :: mark :: ds := by
  have hmark : mark ≠ '_' := by
    cases h <;> decide
  have hdigits : '_' ∉ ds := fun hmem =>
    not_isDigit_separator h.le_sixteen ((digits_false_iff.1 hds).2 _ hmem)
  simp [hmark.symm, hdigits]

/-- Both readers take digits in a radix for the same. -/
theorem read_radix (h : RadixMark mark radix) (hds : Digits false radix ds) {values : List Nat}
    (hvalues : digitValues radix ds = some values) :
    ofLiteral? (String.ofList ('0' :: mark :: ds)) = some (ofRadixDigits radix values) ∧
      ofString (String.ofList ('0' :: mark :: ds)) = ofRadixDigits radix values := by
  constructor
  · rw [ofLiteral?, String.toList_ofList, readLiteral_of_ne (fun _ heq => by cases heq),
      withoutSeparators_of_not_mem (h.separator_not_mem hds), readUnsigned, h.readRadix]
    simp only [hvalues, Option.map_some]
  · rw [ofString, String.toList_ofList, Text.strip_of_not_blank (h.not_blank hds), readString,
      h.readRadix]
    simp [hvalues]

/-- Digits in a radix are read as the nearest double, unless they spell a number that
has more than 128 bits, is in the range of the doubles, and loses its tail. -/
theorem read_radix_rounds_iff (h : RadixMark mark radix) (hds : Digits false radix ds) :
    ∃ values x, digitValues radix ds = some values ∧
      ofLiteral? (String.ofList ('0' :: mark :: ds)) = some x ∧
      ofString (String.ofList ('0' :: mark :: ds)) = x ∧
      (Rounds (ofDigits radix values) x ↔
        ofDigits radix values < 2 ^ (128 : Nat) ∨ 2 ^ (1024 : Nat) ≤ ofDigits radix values ∨
          ¬LosesTail radix values) := by
  obtain ⟨values, hvalues⟩ :=
    Option.isSome_iff_exists.1 ((digitValues_isSome_iff h.le_sixteen).2 hds)
  obtain ⟨hliteral, hstring⟩ := read_radix h hds hvalues
  obtain ⟨b, hb, rfl⟩ := h.exists_two_pow
  have hrounds := rounds_ofRadixDigits_iff hb (digitValues_lt hvalues)
  exact ⟨values, _, hvalues, hliteral, hstring, hrounds⟩

end

/-- The number `2 ^ 128` is read right: it has 129 bits, but no zero is lost. -/
theorem read_radix_rounds_power :
    RadixMark 'x' 16 ∧ Digits false 16 ('1' :: List.replicate 32 '0') ∧
      ∃ x, ofLiteral? "0x100000000000000000000000000000000" = some x ∧
        ofString "0x100000000000000000000000000000000" = x ∧ Rounds (2 ^ (128 : Nat)) x := by
  have hds : Digits false 16 ('1' :: List.replicate 32 '0') :=
    (digitValues_isSome_iff (by decide)).1 (by decide)
  have hvalues : digitValues 16 ('1' :: List.replicate 32 '0')
      = some (1 :: List.replicate 32 0) := by decide
  have hnumber : ofDigits 16 (1 :: List.replicate 32 0) = 2 ^ (128 : Nat) := by decide +kernel
  obtain ⟨values, x, hvalues', hliteral, hstring, hiff⟩ := read_radix_rounds_iff .x hds
  cases hvalues.symm.trans hvalues'
  rw [hnumber] at hiff
  exact ⟨.x, hds, x, hliteral, hstring, hiff.2 (.inr (.inr (not_losesTail_zeros 16 1 32)))⟩

/-- The number `2 ^ 128 + 2 ^ 75 + 1` is not read as the double nearest to it. It lies
above a half, and the digit that tells comes last. -/
theorem read_radix_loses_tail :
    ¬∀ (mark : Char) (radix : Nat) (ds : List Char) (values : List Nat),
      RadixMark mark radix → digitValues radix ds = some values →
      ∃ x, ofLiteral? (String.ofList ('0' :: mark :: ds)) = some x ∧
        ofString (String.ofList ('0' :: mark :: ds)) = x ∧
        Rounds (ofDigits radix values) x := by
  intro hclaim
  have hvalues : digitValues 16 "100000000000008000000000000000001".toList
      = some ([1, 0, 0, 0, 0, 0, 0, 0, 0, 0, 0, 0, 0, 0, 8] ++ (List.replicate 17 0 ++ [1])) := by
    decide
  have hds := (digitValues_isSome_iff (by decide)).1 (Option.isSome_of_eq_some hvalues)
  have hlost : LosesTail (2 ^ 4)
      ([1, 0, 0, 0, 0, 0, 0, 0, 0, 0, 0, 0, 0, 0, 8] ++ (List.replicate 17 0 ++ [1])) :=
    ⟨_, _, rfl, ⟨2 ^ (52 : Nat), 3, by decide +kernel, by decide, by decide, by decide⟩, 1,
      by decide, by decide⟩
  obtain ⟨x, hliteral, -, hrounds⟩ := hclaim 'x' 16 _ _ .x hvalues
  have hread := (read_radix .x hds hvalues).1.symm.trans hliteral
  rw [← Option.some.inj hread] at hrounds
  rcases (rounds_ofRadixDigits_iff (b := 4) (by decide) (digitValues_lt hvalues)).1 hrounds with
    hshort | hlong | hkept
  · exact absurd hshort (by decide +kernel)
  · exact absurd hlong (by decide +kernel)
  · exact hkept hlost

end ScriptReduce.Number
