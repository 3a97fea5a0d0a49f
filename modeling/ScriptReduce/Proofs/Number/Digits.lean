/-
ScriptReduce.Proofs.Number.Digits: reading the digits of a decimal.

The readers of numbers go through the characters one by one; core's
`Nat.ofDigitChars` says what number they spell. `readDecimal_whole` and
`readDecimal_point` describe the reader of decimals on each form a decimal is
written in, and `readExponent_exponentText` reads back an exponent, which the
reader caps only far outside the exponents that are written.
-/
import ScriptReduce.Number.Literal
import ScriptReduce.Number.Text

namespace ScriptReduce.Number

/- Powers of natural numbers are core's own, whatever else is in scope. -/
attribute [local instance (high)] instPowNat

/-! ## 1. Digit characters -/

theorem toNat_of_isDigit {c : Char} (h : c.isDigit) : 48 ≤ c.toNat ∧ c.toNat ≤ 57 := by
  simp only [Char.isDigit, Bool.and_eq_true, decide_eq_true_eq] at h
  exact ⟨UInt32.le_iff_toNat_le.1 h.1, UInt32.le_iff_toNat_le.1 h.2⟩

theorem digitValue_of_isDigit {c : Char} (h : c.isDigit) :
    digitValue 10 c = some (c.toNat - 48) := by
  have hc := toNat_of_isDigit h
  have hr : '0'.toNat ≤ c.toNat ∧ c.toNat ≤ '9'.toNat := hc
  have hlt : c.toNat - '0'.toNat < 10 := by
    show c.toNat - 48 < 10
    omega
  simp only [digitValue, if_pos hr, Option.filter_some, decide_eq_true_eq, if_pos hlt]
  rfl

theorem mapM_digitValue : ∀ {cs : List Char}, (∀ c ∈ cs, c.isDigit) →
    cs.mapM (digitValue 10) = some (cs.map fun c => c.toNat - 48)
  | [], _ => rfl
  | c :: cs, h => by
    have hc := digitValue_of_isDigit (h c List.mem_cons_self)
    have hcs := mapM_digitValue fun d hd => h d (List.mem_cons_of_mem c hd)
    rw [List.mapM_cons, hc, hcs]
    rfl

theorem digitValues_of_isDigit {cs : List Char} (hne : cs ≠ []) (h : ∀ c ∈ cs, c.isDigit) :
    digitValues 10 cs = some (cs.map fun c => c.toNat - 48) := by
  rw [digitValues, if_neg (by simpa using hne), mapM_digitValue h]

theorem ofDigits_map_toNat (cs : List Char) :
    ofDigits 10 (cs.map fun c => c.toNat - 48) = Nat.ofDigitChars 10 cs 0 := by
  rw [ofDigits, List.foldl_map, Nat.ofDigitChars_eq_foldl]
  simp only [Nat.mul_comm 10]
  rfl

theorem readNat_of_isDigit {cs : List Char} (hne : cs ≠ []) (h : ∀ c ∈ cs, c.isDigit) :
    readNat cs = some (Nat.ofDigitChars 10 cs 0) := by
  rw [readNat, digitValues_of_isDigit hne h, Option.map_some, ofDigits_map_toNat]

/-! ## 2. The digits of a number -/

theorem isDigit_of_mem_digitsOf {n : Nat} {c : Char} (h : c ∈ Decimal.digitsOf n) : c.isDigit :=
  Nat.isDigit_of_mem_toDigits (by decide) (by decide) h

theorem digitsOf_ne_nil (n : Nat) : Decimal.digitsOf n ≠ [] := Nat.toDigits_ne_nil

theorem ofDigitChars_digitsOf (n : Nat) : Nat.ofDigitChars 10 (Decimal.digitsOf n) 0 = n :=
  Nat.ofDigitChars_ten_toDigits

/-- No number but zero begins with a zero: without it, one digit less would
spell the same number. -/
theorem head_digitsOf_ne_zero {n : Nat} (hn : 0 < n) {c : Char} {cs : List Char}
    (h : Decimal.digitsOf n = c :: cs) : c ≠ '0' := by
  rintro rfl
  have hval : Nat.ofDigitChars 10 cs 0 = n := by
    have := ofDigitChars_digitsOf n
    rw [h, Nat.ofDigitChars_cons] at this
    exact this
  have hdig : ∀ d ∈ cs, d.isDigit := fun d hd =>
    isDigit_of_mem_digitsOf (h ▸ List.mem_cons_of_mem _ hd)
  have hlt : n < 10 ^ cs.length := hval ▸ ofDigitChars_lt hdig
  have hlen : (Decimal.digitsOf n).length = cs.length + 1 := by rw [h]; rfl
  rcases Nat.eq_zero_or_pos cs.length with h0 | hpos
  · rw [h0] at hlt
    omega
  · have := (Nat.length_toDigits_le_iff (by decide) hpos).2 hlt
    rw [show (Nat.toDigits 10 n).length = cs.length + 1 from hlen] at this
    omega
where
  /-- Digits spell a number with at most that many digits. -/
  ofDigitChars_lt : ∀ {cs : List Char}, (∀ c ∈ cs, c.isDigit) →
      Nat.ofDigitChars 10 cs 0 < 10 ^ cs.length
    | [], _ => by simp
    | c :: cs, h => by
      have hc := toNat_of_isDigit (h c List.mem_cons_self)
      have hcs := ofDigitChars_lt fun d hd => h d (List.mem_cons_of_mem c hd)
      rw [Nat.ofDigitChars_cons, Nat.ofDigitChars_eq_ofDigitChars_zero, List.length_cons,
        Nat.pow_succ]
      have h9 : 10 * 0 + (c.toNat - '0'.toNat) ≤ 9 := by
        show 10 * 0 + (c.toNat - 48) ≤ 9
        omega
      have := Nat.mul_le_mul_left (10 ^ cs.length) h9
      omega

/-! ## 3. Decimals -/

/-- What may follow the digits of a decimal: it is neither a digit nor a
point. -/
def EndsDigits (rest : List Char) : Prop :=
  ∀ c cs, rest = c :: cs → c.isDigit = false ∧ c ≠ '.'

theorem endsDigits_nil : EndsDigits [] := by
  intro c cs h
  cases h

theorem takeWhile_digits {cs rest : List Char} (h : ∀ c ∈ cs, c.isDigit)
    (hrest : ∀ c ds, rest = c :: ds → c.isDigit = false) :
    (cs ++ rest).takeWhile Char.isDigit = cs ∧ (cs ++ rest).dropWhile Char.isDigit = rest := by
  rw [List.takeWhile_append_of_pos h, List.dropWhile_append_of_pos h]
  cases rest with
  | nil => simp
  | cons c ds => simp [hrest c ds rfl]

theorem readDecimal_whole {cs rest : List Char} {e : Int} (hne : cs ≠ [])
    (h : ∀ c ∈ cs, c.isDigit) (hends : EndsDigits rest) (he : readExponent rest = some e) :
    readDecimal (cs ++ rest) = some ⟨Nat.ofDigitChars 10 cs 0, e⟩ := by
  obtain ⟨htake, hdrop⟩ := takeWhile_digits h fun c ds hc => (hends c ds hc).1
  have hfraction : readFraction rest = ([], rest) := by
    unfold readFraction
    split
    · exact absurd rfl (hends _ _ rfl).2
    · rfl
  simp only [readDecimal, htake, hdrop, hfraction, List.append_nil, readNat_of_isDigit hne h, he]
  simp

theorem readDecimal_point {cs ds rest : List Char} {e : Int} (hne : cs ++ ds ≠ [])
    (h : ∀ c ∈ cs, c.isDigit) (h' : ∀ c ∈ ds, c.isDigit) (hends : EndsDigits rest)
    (he : readExponent rest = some e) :
    readDecimal (cs ++ '.' :: (ds ++ rest))
      = some ⟨Nat.ofDigitChars 10 (cs ++ ds) 0, e - ds.length⟩ := by
  obtain ⟨htake, hdrop⟩ := @takeWhile_digits cs ('.' :: (ds ++ rest)) h (by
    intro c _ hc
    cases hc
    rfl)
  obtain ⟨htake', hdrop'⟩ := takeWhile_digits h' fun c ds hc => (hends c ds hc).1
  have hfraction : readFraction ('.' :: (ds ++ rest)) = (ds, rest) := by
    simp only [readFraction, htake', hdrop']
  have hall : ∀ c ∈ cs ++ ds, c.isDigit := fun c hc =>
    (List.mem_append.1 hc).elim (h c) (h' c)
  simp only [readDecimal, htake, hdrop, hfraction, readNat_of_isDigit hne hall, he]
  rfl

/-! ## 4. Exponents -/

theorem le_foldl_digits (values : List Nat) (n : Nat) :
    n ≤ values.foldl (fun n digit => n * 10 + digit) n := by
  induction values generalizing n with
  | nil => exact Nat.le_refl n
  | cons v values ih =>
    have := ih (n * 10 + v)
    rw [List.foldl_cons]
    omega

/-- Up to the cap, the digits of an exponent are read like any others. -/
theorem ofExponentDigits_eq {values : List Nat} (h : ofDigits 10 values < 65536) :
    ofExponentDigits values = ofDigits 10 values := by
  unfold ofExponentDigits ofDigits at *
  generalize 0 = n at h ⊢
  induction values generalizing n with
  | nil => rfl
  | cons v values ih =>
    rw [List.foldl_cons] at h ⊢
    have hle := le_foldl_digits values (n * 10 + v)
    rw [if_pos (by omega), ih (n * 10 + v) h, List.foldl_cons]

theorem readExponentDigits_digitsOf {n : Nat} (h : n < 65536) :
    readExponentDigits (Decimal.digitsOf n) = some n := by
  have hval : ofDigits 10 ((Decimal.digitsOf n).map fun c => c.toNat - 48) = n := by
    rw [ofDigits_map_toNat, ofDigitChars_digitsOf]
  rw [readExponentDigits,
    digitValues_of_isDigit (digitsOf_ne_nil n) fun _ => isDigit_of_mem_digitsOf,
    Option.map_some, ofExponentDigits_eq (by rw [hval]; exact h), hval]

theorem readExponent_exponentText {e : Int} (h : e.natAbs < 65536) :
    readExponent (exponentText e) = some e := by
  have hread := readExponentDigits_digitsOf h
  by_cases hneg : e < 0
  · rw [exponentText, if_pos hneg, readExponent, if_pos (Or.inl rfl)]
    simp only [hread]
    show some (-(e.natAbs : Int)) = some e
    rw [show -(e.natAbs : Int) = e by omega]
  · rw [exponentText, if_neg hneg, readExponent, if_pos (Or.inl rfl)]
    simp only [hread]
    show some (e.natAbs : Int) = some e
    rw [show (e.natAbs : Int) = e by omega]

theorem endsDigits_exponentText (e : Int) : EndsDigits (exponentText e) := by
  intro c cs h
  cases h
  exact ⟨rfl, by decide⟩

end ScriptReduce.Number
