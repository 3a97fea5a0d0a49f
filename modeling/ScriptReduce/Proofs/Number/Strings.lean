/-
ScriptReduce.Proofs.Number.Strings: which strings are numbers, and which numbers.

A string that is to become a number is stripped of the blanks at its ends; what is left
is its core (`Text.IsCore`). The numerals that a core may be are written down as an
inductive predicate, `StringNumeral`, next to the grammar of literals: it differs from
it in signs, in zeros in front, in the word for infinity, and in that it knows no
separators. A string converts to NaN if and only if its core is neither empty nor a
numeral (`isNaN_ofString_iff`); for no numeral has the value NaN (`isNaN_readString`).

What is both, a literal and a numeral, has one value: the two readers ask the same
questions in another order, and for a text without sign the first that is answered
settles the others (`readString_of_readUnsigned`).
-/
import ScriptReduce.Proofs.Number.Radix
import ScriptReduce.Value.Compare

namespace ScriptReduce

/- Powers of natural numbers are core's own, whatever else is in scope. -/
attribute [local instance (high)] instPowNat

/-! ## 1. Blanks -/

namespace Text

/-- The code points of white space: tabs, the byte order mark, and Unicode's spaces. -/
def whiteSpace : List Nat :=
  [0x09, 0x0b, 0x0c, 0xfeff, 0x20, 0xa0, 0x1680, 0x2000, 0x2001, 0x2002, 0x2003, 0x2004, 0x2005,
    0x2006, 0x2007, 0x2008, 0x2009, 0x200a, 0x202f, 0x205f, 0x3000]

/-- The code points that end lines. -/
def lineTerminators : List Nat := [0x0a, 0x0d, 0x2028, 0x2029]

theorem isBlank_iff {c : Char} : isBlank c ↔ c.toNat ∈ whiteSpace ++ lineTerminators := by
  simp only [isBlank, whiteSpace, lineTerminators, Bool.or_eq_true, Bool.and_eq_true,
    decide_eq_true_eq, beq_iff_eq, List.cons_append, List.nil_append, List.mem_cons,
    List.not_mem_nil, or_false]
  omega

/-- What is left of a text without the blanks at its two ends. -/
def IsCore (cs core : List Char) : Prop :=
  ∃ before after, cs = before ++ core ++ after ∧
    (∀ c ∈ before ++ after, c.toNat ∈ whiteSpace ++ lineTerminators) ∧
    ∀ c, c ∈ core.head? ∨ c ∈ core.getLast? → c.toNat ∉ whiteSpace ++ lineTerminators

theorem dropWhile_of_head {p : Char → Bool} {cs : List Char} (h : ∀ c ∈ cs.head?, p c = false) :
    cs.dropWhile p = cs := by
  cases cs with
  | nil => rfl
  | cons c cs => rw [List.dropWhile_cons, h c rfl, if_neg Bool.false_ne_true]

theorem head_dropWhile (p : Char → Bool) (cs : List Char) :
    ∀ c ∈ (cs.dropWhile p).head?, p c = false := by
  intro c hc
  have h := List.head?_dropWhile_not p cs
  rw [Option.mem_def.1 hc] at h
  simpa using h

theorem strip_eq_iff {cs core : List Char} : strip cs = core ↔ IsCore cs core := by
  simp only [IsCore, ← isBlank_iff, Bool.not_eq_true]
  constructor
  · rintro rfl
    have hfront := @List.takeWhile_append_dropWhile _ isBlank cs
    have hback := @List.takeWhile_append_dropWhile _ isBlank (cs.dropWhile isBlank).reverse
    have hsplit : cs.dropWhile isBlank
        = strip cs ++ ((cs.dropWhile isBlank).reverse.takeWhile isBlank).reverse := by
      rw [strip, ← List.reverse_append, hback, List.reverse_reverse]
    refine ⟨cs.takeWhile isBlank, ((cs.dropWhile isBlank).reverse.takeWhile isBlank).reverse,
      ?_, ?_, ?_⟩
    · rw [List.append_assoc, ← hsplit, hfront]
    · refine List.forall_mem_append.2 ⟨List.all_eq_true.1 List.all_takeWhile, fun c hc => ?_⟩
      exact List.all_eq_true.1 List.all_takeWhile c (List.mem_reverse.1 hc)
    · rintro c (hc | hc)
      · refine head_dropWhile isBlank cs c ?_
        rw [hsplit, List.head?_append, Option.mem_def.1 hc]
        rfl
      · rw [strip, List.getLast?_reverse] at hc
        exact head_dropWhile isBlank _ c hc
  · rintro ⟨before, after, rfl, hblank, hends⟩
    obtain ⟨hbefore, hafter⟩ := List.forall_mem_append.1 hblank
    have hlast : core.reverse.dropWhile isBlank = core.reverse :=
      dropWhile_of_head fun c hc => hends c (.inr (by rwa [List.head?_reverse] at hc))
    have hdrop : (core ++ after).reverse.dropWhile isBlank = core.reverse := by
      rw [List.reverse_append, List.dropWhile_append_of_pos (fun c hc =>
        hafter c (List.mem_reverse.1 hc)), hlast]
    rw [strip, List.append_assoc, List.dropWhile_append_of_pos hbefore]
    cases core with
    | nil =>
      have hnil := @List.dropWhile_append_of_pos _ isBlank after [] hafter
      rw [List.append_nil] at hnil
      rw [List.nil_append, hnil]
      rfl
    | cons c core =>
      have hfront : (c :: core ++ after).dropWhile isBlank = c :: core ++ after :=
        dropWhile_of_head fun d hd => hends d (.inl hd)
      rw [hfront, hdrop, List.reverse_reverse]

end Text

namespace Number

open Binary64 (infinity ofMagnitude)

/-! ## 2. Numerals -/

/-- What a string may be, between its blanks, to convert to a number: infinity or a
decimal with an optional sign, or digits behind a radix. -/
inductive StringNumeral : List Char → Prop
  | infinity {sign} : sign ∈ [[], ['+'], ['-']] → StringNumeral (sign ++ "Infinity".toList)
  | decimal {sign cs} : sign ∈ [[], ['+'], ['-']] → DecimalForm (Digits false 10) false cs →
      StringNumeral (sign ++ cs)
  | radix {mark radix ds} : RadixMark mark radix → Digits false radix ds →
      StringNumeral ('0' :: mark :: ds)

theorem DecimalForm.head_ne_sign {cs : List Char} (h : DecimalForm (Digits false 10) false cs) :
    ∀ c ∈ cs.head?, c ≠ '+' ∧ c ≠ '-' := by
  obtain ⟨c, ds, rfl, hc⟩ := h.head fun _ hws => hws
  rintro _ ⟨⟩
  constructor <;> rintro rfl <;> exact absurd hc (by decide)

/-- A sign is split off if what follows it does not begin with one. -/
theorem readSign_append {sign cs : List Char} (hsign : sign ∈ [[], ['+'], ['-']])
    (hcs : ∀ c ∈ cs.head?, c ≠ '+' ∧ c ≠ '-') :
    readSign (sign ++ cs) = (decide (sign = ['-']), cs) := by
  have hcases : sign = [] ∨ sign = ['+'] ∨ sign = ['-'] := by simpa using hsign
  rcases hcases with rfl | rfl | rfl
  · rw [List.nil_append]
    unfold readSign
    split
    · exact absurd rfl (hcs _ rfl).2
    · exact absurd rfl (hcs _ rfl).1
    · rfl
  · rfl
  · rfl

theorem exists_readSign (cs : List Char) :
    ∃ sign ∈ [[], ['+'], ['-']], cs = sign ++ (readSign cs).2 := by
  unfold readSign
  split
  · exact ⟨['-'], by simp, rfl⟩
  · exact ⟨['+'], by simp, rfl⟩
  · exact ⟨[], by simp, rfl⟩

theorem head_infinity : ∀ c ∈ "Infinity".toList.head?, c ≠ '+' ∧ c ≠ '-' := by
  rintro _ ⟨⟩
  exact ⟨by decide, by decide⟩

theorem RadixMark.readString {mark : Char} {radix : Nat} (h : RadixMark mark radix)
    (ds : List Char) :
    readString ('0' :: mark :: ds) = (digitValues radix ds).map (ofRadixDigits radix) := by
  simp only [Number.readString, h.readRadix]
  rfl

theorem readString_of_readRadix {cs : List Char} (hne : cs ≠ []) (hradix : readRadix cs = none) :
    readString cs
      = (readMagnitude (readSign cs).2).map fun x => if (readSign cs).1 then -x else x := by
  rw [readString, if_neg (by simpa using hne), hradix]

theorem readMagnitude_isSome_iff {cs : List Char} :
    (readMagnitude cs).isSome ↔
      cs = "Infinity".toList ∨ DecimalForm (Digits false 10) false cs := by
  rw [← readDecimal_isSome_iff]
  unfold readMagnitude
  split
  · rename_i h
    exact iff_of_true rfl (.inl h)
  · rename_i h
    rw [Option.isSome_map, or_iff_right h]

/-- The reader accepts what is a numeral, or nothing. -/
theorem readString_isSome_iff {cs : List Char} (hne : cs ≠ []) :
    (readString cs).isSome ↔ StringNumeral cs := by
  cases hradix : readRadix cs with
  | some announced =>
    obtain ⟨radix, ds⟩ := announced
    obtain ⟨mark, hmark, rfl⟩ := readRadix_eq_some_iff.1 hradix
    rw [hmark.readString, Option.isSome_map, digitValues_isSome_iff hmark.le_sixteen]
    refine ⟨.radix hmark, fun h => ?_⟩
    have hunsigned : (readSign ('0' :: mark :: ds)).2 = '0' :: mark :: ds := rfl
    generalize hcs : '0' :: mark :: ds = cs at h
    rw [hcs] at hunsigned
    obtain hsign | @⟨sign, us, hsign, h⟩ | ⟨hmark', hds⟩ := h
    · rw [readSign_append hsign head_infinity, ← hcs] at hunsigned
      cases hunsigned
    · rw [readSign_append hsign h.head_ne_sign, ← hcs] at hunsigned
      have hus : us = '0' :: mark :: ds := hunsigned
      have hmarked := h.marked (fun _ hws => hws) mark (by simp [hus])
      exact absurd hmarked hmark.not_marked
    · cases hcs
      have hradix' := hmark'.readRadix ds
      rw [hradix] at hradix'
      cases hradix'
      exact hds
  | none =>
    rw [readString_of_readRadix hne hradix, Option.isSome_map, readMagnitude_isSome_iff]
    constructor
    · obtain ⟨sign, hsign, hcs⟩ := exists_readSign cs
      rintro (h | h) <;> rw [hcs]
      · rw [h]
        exact .infinity hsign
      · exact .decimal hsign h
    · rintro (hsign | ⟨hsign, h⟩ | ⟨hmark, -⟩)
      · rw [readSign_append hsign head_infinity]
        exact .inl rfl
      · rw [readSign_append hsign h.head_ne_sign]
        exact .inr h
      · rw [hmark.readRadix] at hradix
        cases hradix

/-! ## 3. Values -/

theorem magnitude_le_infinity (d : Decimal) : d.magnitude ≤ infinity := by
  unfold Decimal.magnitude
  split
  · exact Nat.zero_le _
  · split
    · exact Nat.le_refl _
    · split
      · exact Nat.zero_le _
      · split <;> exact Nat.min_le_left _ _

theorem ofRadixDigits_eq_ofMagnitude {b : Nat} (hb : b < 53) {values : List Nat}
    (hvalues : ∀ v ∈ values, v < 2 ^ b) :
    ∃ m ≤ infinity, ofRadixDigits (2 ^ b) values = ofMagnitude false m := by
  by_cases hshort : ofDigits (2 ^ b) values < 2 ^ (128 : Nat)
  · exact ⟨_, Nat.min_le_left _ _, by rw [ofRadixDigits, if_pos hshort]; rfl⟩
  · obtain ⟨m, hsum, -⟩ := exists_accumulated hb hvalues hshort
    exact ⟨_, Nat.min_le_left _ m, hsum⟩

/-- Digits behind a radix have a value that is not negative. -/
theorem RadixMark.exists_value {mark : Char} {radix : Nat} {ds : List Char} {x : Float}
    (h : RadixMark mark radix) (hx : (digitValues radix ds).map (ofRadixDigits radix) = some x) :
    ∃ m ≤ infinity, x = ofMagnitude false m := by
  obtain ⟨values, hvalues, rfl⟩ := Option.map_eq_some_iff.1 hx
  obtain ⟨b, hb, rfl⟩ := h.exists_two_pow
  exact ofRadixDigits_eq_ofMagnitude hb (digitValues_lt hvalues)

theorem readMagnitude_eq_ofMagnitude {cs : List Char} {x : Float} (h : readMagnitude cs = some x) :
    ∃ m ≤ infinity, x = ofMagnitude false m := by
  unfold readMagnitude at h
  split at h
  · cases h
    exact ⟨_, Nat.le_refl _, rfl⟩
  · obtain ⟨d, -, rfl⟩ := Option.map_eq_some_iff.1 h
    exact ⟨_, magnitude_le_infinity d, rfl⟩

/-- No numeral stands for NaN. -/
theorem isNaN_readString {cs : List Char} {x : Float} (h : readString cs = some x) :
    x.isNaN = false := by
  by_cases hne : cs = []
  · subst hne
    rw [← Option.some.inj h]
    exact Binary64.isNaN_ofMagnitude false (Nat.min_le_left _ _)
  · cases hradix : readRadix cs with
    | some announced =>
      obtain ⟨radix, ds⟩ := announced
      obtain ⟨mark, hmark, rfl⟩ := readRadix_eq_some_iff.1 hradix
      rw [hmark.readString] at h
      obtain ⟨m, hm, rfl⟩ := hmark.exists_value h
      exact Binary64.isNaN_ofMagnitude false hm
    | none =>
      rw [readString_of_readRadix hne hradix] at h
      generalize readSign cs = signed at h
      obtain ⟨y, hy, rfl⟩ := Option.map_eq_some_iff.1 h
      obtain ⟨m, hm, rfl⟩ := readMagnitude_eq_ofMagnitude hy
      split
      · rw [Binary64.neg_ofMagnitude_of_le hm]
        exact Binary64.isNaN_ofMagnitude true hm
      · exact Binary64.isNaN_ofMagnitude false hm

/-- A string converts to NaN if and only if there is something in it between the blanks
at its ends, and that is not a numeral. -/
theorem isNaN_ofString_iff {s : String} :
    (ofString s).isNaN ↔ ∃ core, Text.IsCore s.toList core ∧ core ≠ [] ∧ ¬StringNumeral core := by
  have hvalue : ∀ x, readString (Text.strip s.toList) = some x → (ofString s).isNaN = false := by
    intro x hx
    rw [ofString, hx]
    exact isNaN_readString hx
  constructor
  · intro hnan
    have hnone : ∀ x, readString (Text.strip s.toList) ≠ some x := by
      intro x hx
      rw [hvalue x hx] at hnan
      cases hnan
    have hne : Text.strip s.toList ≠ [] := by
      intro hnil
      rw [hnil] at hnone
      exact hnone _ rfl
    refine ⟨_, Text.strip_eq_iff.1 rfl, hne, fun hnumeral => ?_⟩
    obtain ⟨x, hx⟩ := Option.isSome_iff_exists.1 ((readString_isSome_iff hne).2 hnumeral)
    exact hnone x hx
  · rintro ⟨core, hcore, hne, hnumeral⟩
    have hnone : readString core = none := by
      rw [← Option.not_isSome_iff_eq_none, readString_isSome_iff hne]
      exact hnumeral
    rw [ofString, Text.strip_eq_iff.2 hcore, hnone]
    decide

/-! ## 4. Literals as strings -/

/-- A decimal that is a literal has the same value as a part of a string. -/
theorem readMagnitude_of_readUnsigned {cs : List Char} {x : Float} (hradix : readRadix cs = none)
    (h : readUnsigned cs = some x) :
    readMagnitude cs = some x ∧ ∀ c ∈ cs.head?, c ≠ '+' ∧ c ≠ '-' := by
  rw [readUnsigned, hradix] at h
  cases hoctal : isLegacyOctal cs with
  | true => simp [hoctal] at h
  | false =>
    simp only [hoctal, Bool.false_eq_true, if_false] at h
    have hform : DecimalForm (Digits false 10) false cs := by
      rw [← readDecimal_isSome_iff, ← Option.isSome_map, h]
      rfl
    have hword : cs ≠ "Infinity".toList := by
      rintro rfl
      obtain ⟨c, ds, heq, hc⟩ := hform.head fun _ hws => hws
      cases heq
      exact absurd hc (by decide)
    exact ⟨by rw [readMagnitude, if_neg hword, h], hform.head_ne_sign⟩

/-- What is a literal without a sign is read alike as a string. -/
theorem readString_of_readUnsigned {cs : List Char} {x : Float} (h : readUnsigned cs = some x) :
    readString cs = some x := by
  cases hradix : readRadix cs with
  | some announced =>
    obtain ⟨radix, ds⟩ := announced
    obtain ⟨mark, hmark, rfl⟩ := readRadix_eq_some_iff.1 hradix
    rw [readUnsigned, hradix] at h
    rw [hmark.readString]
    exact h
  | none =>
    obtain ⟨hread, hhead⟩ := readMagnitude_of_readUnsigned hradix h
    have hne : cs ≠ [] := by
      rintro rfl
      cases h
    have hsign : readSign cs = (false, cs) := readSign_append (show [] ∈ _ by simp) hhead
    rw [readString_of_readRadix hne hradix, hsign, hread]
    rfl

/-- Behind a minus sign a decimal is read alike, and a radix is not. -/
theorem readString_minus {cs : List Char} {x : Float} (hradix : readRadix cs = none)
    (h : readUnsigned cs = some x) : readString ('-' :: cs) = some (-x) := by
  obtain ⟨hread, -⟩ := readMagnitude_of_readUnsigned hradix h
  rw [readString_of_readRadix (List.cons_ne_nil '-' cs) rfl]
  simp [readSign, hread]

/-- There is no blank in a literal. -/
theorem LiteralForm.not_blank {cs : List Char} (h : LiteralForm false cs) :
    ∀ c ∈ cs, Text.isBlank c = false := by
  obtain h | ⟨hmark, hds⟩ := h
  · have hmarks : ∀ c ∈ marks, Text.isBlank c = false := by
      simp only [marks, List.forall_mem_cons]
      exact ⟨rfl, rfl, rfl, rfl, rfl, rfl, List.forall_mem_nil _⟩
    intro c hc
    rcases h.marked (fun _ => WholePart.digits_ten) c hc with hdigit | hmark
    · have := toNat_of_isDigit hdigit
      exact Text.isBlank_eq_false (by omega) (by omega)
    · exact hmarks c hmark
  · exact hmark.not_blank hds

theorem looseEqual_of_ofString {s : String} {v : Float} (h : ofString s = v)
    (hnan : v.isNaN = false) :
    (Value.number v).looseEqual (.string s) ∧ (Value.string s).looseEqual (.number v) := by
  have hself := Binary64.beq_self hnan
  refine ⟨?_, ?_⟩
  · show (v == ofString s) = true
    rw [h, hself]
  · show (ofString s == v) = true
    rw [h, hself]

theorem readUnsigned_of_readLiteral {cs : List Char} {x : Float} (h : readLiteral cs = some x)
    (hsep : '_' ∉ cs) (hminus : ∀ ds, cs ≠ '-' :: ds) :
    readUnsigned cs = some x ∧ ∀ c ∈ cs, Text.isBlank c = false := by
  rw [readLiteral_of_ne hminus, withoutSeparators_of_not_mem hsep] at h
  exact ⟨h, (readUnsigned_isSome_iff.1 (Option.isSome_of_eq_some h)).not_blank⟩

/-- Where there are no blanks, a text is read as it stands. -/
theorem ofString_of_readString {s : String} {x : Float}
    (hblank : ∀ c ∈ s.toList, Text.isBlank c = false) (h : readString s.toList = some x) :
    ofString s = x ∧ x.isNaN = false := by
  rw [ofString, Text.strip_of_not_blank hblank, h]
  exact ⟨rfl, isNaN_readString h⟩

/-- A literal without separators is read alike as a string, unless it has two signs or a
sign before a radix. So the number it stands for is loosely equal to the string of its
text, and a minus sign in front turns the sign for both readers. -/
theorem ofString_of_ofLiteral? {s : String} {v : Float} (h : ofLiteral? s = some v)
    (hsep : '_' ∉ s.toList) (hsigns : ¬['-', '-'] <+: s.toList)
    (hradix : ∀ mark radix ds, RadixMark mark radix → s.toList ≠ '-' :: '0' :: mark :: ds) :
    ofString s = v ∧
      ((Value.number v).looseEqual (.string s) ∧ (Value.string s).looseEqual (.number v)) ∧
      ∀ t : String, s.toList = '-' :: t.toList →
        ∃ w, ofLiteral? t = some w ∧ ofString t = w ∧ v = -w := by
  by_cases hminus : ∃ ds, s.toList = '-' :: ds
  · obtain ⟨ds, hs⟩ := hminus
    rw [ofLiteral?, hs, readLiteral_minus] at h
    obtain ⟨w, hw, rfl⟩ := Option.map_eq_some_iff.1 h
    obtain ⟨hread, hblank⟩ := readUnsigned_of_readLiteral hw
      (fun hmem => hsep (hs ▸ List.mem_cons_of_mem '-' hmem))
      (by rintro ds' rfl; exact hsigns ⟨ds', hs.symm⟩)
    have hnone : readRadix ds = none := by
      refine Option.eq_none_iff_forall_ne_some.2 fun announced hannounced => ?_
      obtain ⟨mark, hmark, rfl⟩ := readRadix_eq_some_iff.1 hannounced
      exact hradix mark _ _ hmark hs
    obtain ⟨hstring, hnan⟩ := ofString_of_readString (s := s)
      (by rw [hs]; exact List.forall_mem_cons.2 ⟨rfl, hblank⟩)
      (by rw [hs]; exact readString_minus hnone hread)
    refine ⟨hstring, looseEqual_of_ofString hstring hnan, fun t ht => ⟨w, ?_, ?_, rfl⟩⟩
    · rw [ofLiteral?, ← (List.cons.inj (hs.symm.trans ht)).2, hw]
    · obtain rfl := (List.cons.inj (hs.symm.trans ht)).2
      exact (ofString_of_readString hblank (readString_of_readUnsigned hread)).1
  · obtain ⟨hread, hblank⟩ := readUnsigned_of_readLiteral h hsep fun ds hs => hminus ⟨ds, hs⟩
    obtain ⟨hstring, hnan⟩ := ofString_of_readString hblank (readString_of_readUnsigned hread)
    refine ⟨hstring, looseEqual_of_ofString hstring hnan, fun t ht => absurd ⟨_, ht⟩ hminus⟩

/-- A negative decimal with a point and an exponent. -/
theorem ofString_of_ofLiteral?_decimal :
    ofLiteral? "-1.5e3" = some (-1500) ∧ '_' ∉ "-1.5e3".toList ∧
      ¬['-', '-'] <+: "-1.5e3".toList ∧
      (∀ mark radix ds, RadixMark mark radix → "-1.5e3".toList ≠ '-' :: '0' :: mark :: ds) ∧
      ofString "-1.5e3" = -1500 ∧ (Value.number (-1500)).looseEqual (.string "-1.5e3") ∧
      ∃ w, ofLiteral? "1.5e3" = some w ∧ ofString "1.5e3" = w ∧ (-1500 : Float) = -w := by
  have hliteral : ofLiteral? "-1.5e3" = some (-1500) := by decide +kernel
  have hsep : '_' ∉ "-1.5e3".toList := by decide
  have hsigns : ¬['-', '-'] <+: "-1.5e3".toList := by decide
  have hradix : ∀ mark radix ds, RadixMark mark radix →
      "-1.5e3".toList ≠ '-' :: '0' :: mark :: ds := by
    intro mark radix ds _ heq
    cases heq
  obtain ⟨hstring, ⟨hequal, -⟩, hunsigned⟩ := ofString_of_ofLiteral? hliteral hsep hsigns hradix
  exact ⟨hliteral, hsep, hsigns, hradix, hstring, hequal, hunsigned "1.5e3" rfl⟩

end Number

end ScriptReduce
