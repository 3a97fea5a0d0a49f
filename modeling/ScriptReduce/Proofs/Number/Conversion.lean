/-
ScriptReduce.Proofs.Number.Conversion: a number survives its conversion to a
string.

The text of a number is read in two ways: as a literal, by `ofLiteral?`, and as a
string that converts to a number, by `ofString`. The second strips blanks, takes a
sign of either kind and knows a word for infinity. A text without a sign says the
same to both (`Plain`). So what is known of the layouts of decimals is all that is
needed here: the texts of numbers have no blank in them, and the sign in front is
read as it was written.

Negative zero and NaN are left out. The one is written as zero, and the other is
not equal to anything.
-/
import ScriptReduce.Proofs.Number.RoundTrip

namespace ScriptReduce

/- Powers of natural numbers are core's own, whatever else is in scope. -/
attribute [local instance (high)] instPowNat

/-! ## 1. Blanks -/

namespace Text

/-- The visible characters of ASCII are not blank. -/
theorem isBlank_eq_false {c : Char} (h : 0x21 ≤ c.toNat) (h' : c.toNat ≤ 0x7e) :
    isBlank c = false := by
  simp only [isBlank, Bool.or_eq_false_iff, Bool.and_eq_false_iff, decide_eq_false_iff_not,
    beq_eq_false_iff_ne]
  omega

/-- Where there are no blanks, none are stripped. -/
theorem strip_of_not_blank {cs : List Char} (h : ∀ c ∈ cs, isBlank c = false) : strip cs = cs := by
  have hdrop : ∀ ds : List Char, (∀ c ∈ ds, isBlank c = false) → ds.dropWhile isBlank = ds := by
    intro ds hds
    cases ds with
    | nil => rfl
    | cons c ds => rw [List.dropWhile_cons, hds c List.mem_cons_self, if_neg Bool.false_ne_true]
  rw [strip, hdrop cs h, hdrop cs.reverse (fun c hc => h c (List.mem_reverse.1 hc)),
    List.reverse_reverse]

end Text

namespace Number

open Binary64 (infinity isNegative magnitude ofMagnitude)

/-! ## 2. Reading without a sign, and with one -/

theorem readSign_of_isDigit {c : Char} (h : c.isDigit) (cs : List Char) :
    readSign (c :: cs) = (false, c :: cs) := by
  unfold readSign
  split
  · rename_i heq
    cases heq
    exact absurd h (by decide)
  · rename_i heq
    cases heq
    exact absurd h (by decide)
  · rfl

namespace Plain

variable {cs : List Char} {m : Nat}

theorem not_blank (h : Plain cs m) : ∀ c ∈ cs, Text.isBlank c = false := by
  have hmarks : ∀ c ∈ ['.', 'e', '+', '-'], Text.isBlank c = false := by
    simp only [List.forall_mem_cons]
    exact ⟨rfl, rfl, rfl, rfl, List.forall_mem_nil _⟩
  intro c hc
  rcases h.chars c hc with hdigit | hmem
  · have := toNat_of_isDigit hdigit
    exact Text.isBlank_eq_false (by omega) (by omega)
  · exact hmarks c hmem

theorem readMagnitude (h : Plain cs m) :
    Number.readMagnitude cs = some (ofMagnitude false m) := by
  have hword : cs ≠ "Infinity".toList := by
    rintro rfl
    obtain ⟨c, ds, heq, hdigit, -⟩ := h.head
    cases heq
    exact absurd hdigit (by decide)
  rw [Number.readMagnitude, if_neg hword, h.value]

theorem readString (h : Plain cs m) : Number.readString cs = some (ofMagnitude false m) := by
  obtain ⟨c, ds, rfl, hdigit, -⟩ := h.head
  rw [Number.readString, h.readRadix, readSign_of_isDigit hdigit]
  simp [h.readMagnitude]

theorem readString_minus (h : Plain cs m) :
    Number.readString ('-' :: cs) = some (-ofMagnitude false m) := by
  have hradix : Number.readRadix ('-' :: cs) = none := rfl
  rw [Number.readString, hradix]
  simp [readSign, h.readMagnitude]

end Plain

/-! ## 3. From numbers to strings and back -/

/-- A finite number comes back from its text. -/
theorem ofString_text_of_isFinite {x : Float} (h : x.isFinite) (hzero : isNegativeZero x = false) :
    ofString (text x) = x := by
  have hm := Binary64.magnitude_lt_infinity h
  have hplain := plain_magnitudeText hm
  have hx := Binary64.ofMagnitude_magnitude h
  unfold ofString
  rw [toList_text (Binary64.isNaN_of_isFinite h)]
  cases hneg : isNegative x with
  | false =>
    rw [hneg] at hx
    simp only [Bool.false_and, Bool.false_eq_true, if_false, List.nil_append]
    rw [Text.strip_of_not_blank hplain.not_blank, hplain.readString, hx]
    rfl
  | true =>
    have hne : magnitude x ≠ 0 := by
      intro h0
      simp [isNegativeZero, hneg, h0] at hzero
    have hblank : ∀ c ∈ '-' :: magnitudeText (magnitude x), Text.isBlank c = false :=
      List.forall_mem_cons.2 ⟨rfl, hplain.not_blank⟩
    rw [hneg] at hx
    simp only [hne, Bool.true_and, bne_iff_ne, ne_eq, not_false_eq_true, if_true,
      List.singleton_append]
    rw [Text.strip_of_not_blank hblank, hplain.readString_minus, Binary64.neg_ofMagnitude hm, hx]
    rfl

/-- An infinity comes back from its text. -/
theorem ofString_text_of_infinite {x : Float} (hnan : x.isNaN = false) (h : ¬x.isFinite) :
    ofString (text x) = x := by
  have hx := Binary64.ofMagnitude_infinity hnan h
  unfold ofString
  rw [toList_text hnan, Binary64.magnitude_eq_infinity hnan h]
  cases hneg : isNegative x <;>
    · rw [hneg] at hx
      rw [← hx]
      decide +kernel

/-- Numbers survive their texts. Every number but NaN and negative zero is the one
that its text converts to, and, if it is finite, also the one that its text spells
as a literal; so no other number has its text. -/
theorem ofString_text {x : Float} (hnan : x.isNaN = false) (hzero : isNegativeZero x = false) :
    ofString (text x) = x ∧ (x.isFinite → ofLiteral? (text x) = some x) ∧
      ∀ y, y.isNaN = false → isNegativeZero y = false → text y = text x → y = x := by
  have hback : ∀ y, y.isNaN = false → isNegativeZero y = false → ofString (text y) = y := by
    intro y hy hy'
    by_cases hfin : y.isFinite
    · exact ofString_text_of_isFinite hfin hy'
    · exact ofString_text_of_infinite hy hfin
  refine ⟨hback x hnan hzero, fun hfin => (ofLiteral?_text_iff hfin).2 hzero, ?_⟩
  intro y hy hy' htext
  calc y = ofString (text y) := (hback y hy hy').symm
    _ = ofString (text x) := by rw [htext]
    _ = x := hback x hnan hzero

/-- A number next to `-1e-7`, which takes seventeen digits, a point, an exponent
and a sign. -/
theorem ofString_text_scientific :
    (-1.0000000000000001e-7 : Float).isNaN = false ∧
      isNegativeZero (-1.0000000000000001e-7) = false ∧
      (-1.0000000000000001e-7 : Float).isFinite ∧
      text (-1.0000000000000001e-7) = "-1.0000000000000001e-7" ∧
      ofString (text (-1.0000000000000001e-7)) = -1.0000000000000001e-7 ∧
      ofLiteral? (text (-1.0000000000000001e-7)) = some (-1.0000000000000001e-7) := by
  have hnan : (-1.0000000000000001e-7 : Float).isNaN = false := by decide +kernel
  have hzero : isNegativeZero (-1.0000000000000001e-7) = false := by decide +kernel
  have hfin : (-1.0000000000000001e-7 : Float).isFinite := by decide +kernel
  obtain ⟨hstring, hliteral, -⟩ := ofString_text hnan hzero
  exact ⟨hnan, hzero, hfin, by decide +kernel, hstring, hliteral hfin⟩

end Number

end ScriptReduce
