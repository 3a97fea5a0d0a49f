/-
ScriptReduce.Proofs.Number.Grammar: which texts are numeric literals.

The grammar of numeric literals is written down as inductive predicates, once with
separators between digits and once without them: `LiteralForm true` and
`LiteralForm false`. The parts of the grammar that strings share with literals, the
digits of a radix and the decimals, are said for both: how the digits before a point
are written is a parameter, as a literal may not begin with zeros and a string may.

Each reader accepts exactly what its part of the grammar says: `readDecimal_isSome_iff`
for decimals, `digitValues_isSome_iff` for digits in a radix, and from them
`readUnsigned_isSome_iff` for literals without separators.
-/
import ScriptReduce.Proofs.Number.Digits

namespace ScriptReduce.Number

/-! ## 1. The grammar -/

/-- A digit of a radix up to sixteen; letters of either case stand for ten and more. -/
def IsDigit (radix : Nat) (c : Char) : Prop :=
  ∃ v < radix, c = v.digitChar ∨ c = v.digitChar.toUpper

/-- Digits in a row. With separators, one may stand between two of them. -/
inductive Digits (separators : Bool) (radix : Nat) : List Char → Prop
  | one {c} : IsDigit radix c → Digits separators radix [c]
  | more {c cs} : IsDigit radix c → Digits separators radix cs → Digits separators radix (c :: cs)
  | separated {c cs} : separators = true → IsDigit radix c → Digits separators radix cs →
      Digits separators radix (c :: '_' :: cs)

/-- Nothing, or an exponent with an optional sign. -/
inductive ExponentPart (separators : Bool) : List Char → Prop
  | none : ExponentPart separators []
  | some {mark sign ds} : mark ∈ ['e', 'E'] → sign ∈ [[], ['+'], ['-']] →
      Digits separators 10 ds → ExponentPart separators (mark :: (sign ++ ds))

/-- What may follow a point. -/
inductive FractionPart (separators : Bool) : List Char → Prop
  | none : FractionPart separators []
  | some {ds} : Digits separators 10 ds → FractionPart separators ds

/-- A decimal: digits with an optional point and an optional exponent. How the digits
before the point are written is left open. -/
inductive DecimalForm (whole : List Char → Prop) (separators : Bool) : List Char → Prop
  | whole {ws es} : whole ws → ExponentPart separators es →
      DecimalForm whole separators (ws ++ es)
  | point {ws fs es} : whole ws → FractionPart separators fs → ExponentPart separators es →
      DecimalForm whole separators (ws ++ '.' :: (fs ++ es))
  | fraction {fs es} : Digits separators 10 fs → ExponentPart separators es →
      DecimalForm whole separators ('.' :: (fs ++ es))

/-- The digits before the point of a literal: zero alone, or any that begin with
another digit. -/
inductive WholePart (separators : Bool) : List Char → Prop
  | zero : WholePart separators ['0']
  | digits {c cs} : c ≠ '0' → Digits separators 10 (c :: cs) → WholePart separators (c :: cs)

/-- The letters that stand for a radix. -/
inductive RadixMark : Char → Nat → Prop
  | x : RadixMark 'x' 16
  | X : RadixMark 'X' 16
  | o : RadixMark 'o' 8
  | O : RadixMark 'O' 8
  | b : RadixMark 'b' 2
  | B : RadixMark 'B' 2

/-- A numeric literal: a decimal, or digits in a radix that is announced. -/
inductive LiteralForm (separators : Bool) : List Char → Prop
  | decimal {cs} : DecimalForm (WholePart separators) separators cs → LiteralForm separators cs
  | radix {mark radix ds} : RadixMark mark radix → Digits separators radix ds →
      LiteralForm separators ('0' :: mark :: ds)

/-- A numeric literal, with one minus sign in front or none. -/
def SignedLiteral (cs : List Char) : Prop :=
  LiteralForm true cs ∨ ∃ ds, cs = '-' :: ds ∧ LiteralForm true ds

/-! ## 2. Digits -/

theorem digitValue_sixteen_eq_some_iff {c : Char} {v : Nat} :
    digitValue 16 c = some v ↔ v < 16 ∧ (c = v.digitChar ∨ c = v.digitChar.toUpper) := by
  constructor
  · have hback := Char.ofNat_toNat c
    have hten : ∀ v < 10, v.digitChar = Char.ofNat (v + 48) := by decide
    have hsix : ∀ v < 6, (v + 10).digitChar = Char.ofNat (v + 97) ∧
        (v + 10).digitChar.toUpper = Char.ofNat (v + 65) := by decide
    intro h
    obtain ⟨hv, hlt⟩ := Option.filter_eq_some_iff.1 h
    refine ⟨of_decide_eq_true hlt, ?_⟩
    split at hv
    · rename_i hc
      have hc' : 48 ≤ c.toNat ∧ c.toNat ≤ 57 := hc
      have hv' : c.toNat - 48 = v := Option.some.inj hv
      exact .inl (by rw [hten v (by omega), ← hv', Nat.sub_add_cancel hc'.1, hback])
    · split at hv
      · rename_i hc
        have hc' : 97 ≤ c.toNat ∧ c.toNat ≤ 102 := hc
        have hv' : c.toNat - 97 + 10 = v := Option.some.inj hv
        exact .inl (by rw [← hv', (hsix _ (by omega)).1, Nat.sub_add_cancel hc'.1, hback])
      · split at hv
        · rename_i hc
          have hc' : 65 ≤ c.toNat ∧ c.toNat ≤ 70 := hc
          have hv' : c.toNat - 65 + 10 = v := Option.some.inj hv
          exact .inr (by rw [← hv', (hsix _ (by omega)).2, Nat.sub_add_cancel hc'.1, hback])
        · cases hv
  · have hread : ∀ v < 16, digitValue 16 v.digitChar = some v ∧
        digitValue 16 v.digitChar.toUpper = some v := by decide
    rintro ⟨hv, rfl | rfl⟩
    · exact (hread v hv).1
    · exact (hread v hv).2

theorem digitValue_eq_filter {radix : Nat} (hr : radix ≤ 16) (c : Char) :
    digitValue radix c = (digitValue 16 c).filter (· < radix) := by
  rw [digitValue, digitValue, Option.filter_filter]
  congr 1
  funext v
  simp
  omega

theorem digitValue_isSome_iff {radix : Nat} (hr : radix ≤ 16) {c : Char} :
    (digitValue radix c).isSome ↔ IsDigit radix c := by
  simp only [Option.isSome_iff_exists, digitValue_eq_filter hr, Option.filter_eq_some_iff,
    digitValue_sixteen_eq_some_iff, decide_eq_true_eq, IsDigit]
  exact exists_congr fun v => ⟨fun h => ⟨h.2, h.1.2⟩, fun h => ⟨⟨by omega, h.2⟩, h.1⟩⟩

theorem isDigit_ten_iff {c : Char} : IsDigit 10 c ↔ c.isDigit := by
  constructor
  · have hdigit : ∀ v < 10, v.digitChar.isDigit ∧ v.digitChar.toUpper.isDigit := by decide
    rintro ⟨v, hv, rfl | rfl⟩
    · exact (hdigit v hv).1
    · exact (hdigit v hv).2
  · intro h
    rw [← digitValue_isSome_iff (by decide), digitValue_of_isDigit h]
    rfl

theorem IsDigit.mono {radix radix' : Nat} {c : Char} (hr : radix ≤ radix')
    (h : IsDigit radix c) : IsDigit radix' c := by
  obtain ⟨v, hv, hc⟩ := h
  exact ⟨v, Nat.lt_of_lt_of_le hv hr, hc⟩

/-- A digit is a figure or a letter up to `f`. -/
theorem IsDigit.toNat {radix : Nat} {c : Char} (hr : radix ≤ 16) (h : IsDigit radix c) :
    48 ≤ c.toNat ∧ c.toNat ≤ 57 ∨ 65 ≤ c.toNat ∧ c.toNat ≤ 70 ∨ 97 ≤ c.toNat ∧ c.toNat ≤ 102 := by
  have hrange : ∀ v < 16,
      (48 ≤ v.digitChar.toNat ∧ v.digitChar.toNat ≤ 57 ∨
        97 ≤ v.digitChar.toNat ∧ v.digitChar.toNat ≤ 102) ∧
      (48 ≤ v.digitChar.toUpper.toNat ∧ v.digitChar.toUpper.toNat ≤ 57 ∨
        65 ≤ v.digitChar.toUpper.toNat ∧ v.digitChar.toUpper.toNat ≤ 70) := by decide
  obtain ⟨v, hv, rfl | rfl⟩ := h <;> have := hrange v (by omega) <;> omega

theorem digits_false_iff {radix : Nat} {cs : List Char} :
    Digits false radix cs ↔ cs ≠ [] ∧ ∀ c ∈ cs, IsDigit radix c := by
  constructor
  · intro h
    induction h with
    | one hc => exact ⟨List.cons_ne_nil _ _, by simpa using hc⟩
    | more hc _ ih => exact ⟨List.cons_ne_nil _ _, List.forall_mem_cons.2 ⟨hc, ih.2⟩⟩
    | separated hsep => cases hsep
  · rintro ⟨hne, h⟩
    induction cs with
    | nil => exact absurd rfl hne
    | cons c cs ih =>
      obtain ⟨hc, hcs⟩ := List.forall_mem_cons.1 h
      cases cs with
      | nil => exact .one hc
      | cons d ds => exact .more hc (ih (List.cons_ne_nil d ds) hcs)

theorem digits_ten_iff {cs : List Char} :
    Digits false 10 cs ↔ cs ≠ [] ∧ ∀ c ∈ cs, c.isDigit := by
  simp only [digits_false_iff, isDigit_ten_iff]

/-! ## 3. The readers of the parts -/

theorem digitValues_isSome_iff {radix : Nat} (hr : radix ≤ 16) {cs : List Char} :
    (digitValues radix cs).isSome ↔ Digits false radix cs := by
  have hall : ∀ cs : List Char,
      (cs.mapM (digitValue radix)).isSome ↔ ∀ c ∈ cs, IsDigit radix c := by
    intro cs
    induction cs with
    | nil => simp
    | cons c cs ih =>
      rw [List.forall_mem_cons, ← ih, ← digitValue_isSome_iff hr, List.mapM_cons]
      cases digitValue radix c <;> cases cs.mapM (digitValue radix) <;> simp
  rw [digits_false_iff, ← hall, digitValues]
  cases cs <;> simp

theorem readExponent_isSome_iff {cs : List Char} :
    (readExponent cs).isSome ↔ ExponentPart false cs := by
  have hdigits : ∀ ds : List Char, (readExponentDigits ds).isSome ↔ Digits false 10 ds := by
    intro ds
    rw [readExponentDigits, Option.isSome_map, digitValues_isSome_iff (by decide)]
  have hcast : ∀ n : Option Nat, (n >>= fun n => pure (n : Int)).isSome = n.isSome := by
    rintro (_ | _) <;> rfl
  constructor
  · intro h
    unfold readExponent at h
    split at h
    · exact .none
    · rename_i mark cs
      split at h
      · rename_i hmark
        have hmark' : mark ∈ ['e', 'E'] := by simpa using hmark
        split at h <;> rw [Option.isSome_map, hcast, hdigits] at h
        · exact .some hmark' (show ['-'] ∈ _ by simp) h
        · exact .some hmark' (show ['+'] ∈ _ by simp) h
        · exact .some hmark' (show [] ∈ _ by simp) h
      · cases h
  · rintro (_ | @⟨mark, sign, ds, hmark, hsign, hds⟩)
    · rfl
    · have hmark' : mark = 'e' ∨ mark = 'E' := by simpa using hmark
      have hsign' : sign = [] ∨ sign = ['+'] ∨ sign = ['-'] := by simpa using hsign
      have hread := (hdigits ds).2 hds
      rcases hsign' with rfl | rfl | rfl
      · -- no digit is a sign
        have hne : ∀ c ds', ds = c :: ds' → c.isDigit := by
          intro c ds' h
          exact (digits_ten_iff.1 hds).2 c (h ▸ List.mem_cons_self)
        rw [List.nil_append, readExponent, if_pos hmark', Option.isSome_map, hcast]
        · exact hread
        · exact fun ds' h => absurd (hne '-' ds' h) (by decide)
        · exact fun ds' h => absurd (hne '+' ds' h) (by decide)
      · simp only [List.singleton_append, readExponent, if_pos hmark', Option.isSome_map, hcast,
          hread]
      · simp only [List.singleton_append, readExponent, if_pos hmark', Option.isSome_map, hcast,
          hread]

theorem ExponentPart.endsDigits {es : List Char} (h : ExponentPart false es) : EndsDigits es := by
  obtain _ | @⟨mark, sign, ds, hmark, -, -⟩ := h
  · exact endsDigits_nil
  · intro c cs h
    obtain ⟨rfl, -⟩ := List.cons.inj h
    have hcases : mark = 'e' ∨ mark = 'E' := by simpa using hmark
    rcases hcases with rfl | rfl <;> exact ⟨rfl, by decide⟩

theorem fractionPart_false_iff {fs : List Char} :
    FractionPart false fs ↔ ∀ c ∈ fs, c.isDigit := by
  constructor
  · rintro (_ | h)
    · exact List.forall_mem_nil _
    · exact (digits_ten_iff.1 h).2
  · intro h
    cases fs with
    | nil => exact .none
    | cons c cs => exact .some (digits_ten_iff.2 ⟨List.cons_ne_nil c cs, h⟩)

theorem forall_mem_takeWhile (cs : List Char) : ∀ c ∈ cs.takeWhile Char.isDigit, c.isDigit :=
  List.all_eq_true.1 List.all_takeWhile

theorem readDecimal_isSome_iff {cs : List Char} :
    (readDecimal cs).isSome ↔ DecimalForm (Digits false 10) false cs := by
  constructor
  · intro h
    have hparts : ∀ fraction rest : List Char,
        readFraction (cs.dropWhile Char.isDigit) = (fraction, rest) →
        cs.takeWhile Char.isDigit ++ fraction ≠ [] ∧ ExponentPart false rest := by
      intro fraction rest hrest
      obtain ⟨d, hd⟩ := Option.isSome_iff_exists.1 h
      simp only [readDecimal, hrest, Option.bind_eq_bind, Option.bind_eq_some_iff] at hd
      obtain ⟨digits, hdigits, exponent, hexponent, -⟩ := hd
      refine ⟨?_, readExponent_isSome_iff.1 (Option.isSome_of_eq_some hexponent)⟩
      intro h0
      rw [h0] at hdigits
      cases hdigits
    have hcs := @List.takeWhile_append_dropWhile _ Char.isDigit cs
    have hws := forall_mem_takeWhile cs
    generalize cs.takeWhile Char.isDigit = ws, cs.dropWhile Char.isDigit = rest at hcs hws hparts
    by_cases hpoint : ∃ ds, rest = '.' :: ds
    · obtain ⟨ds, rfl⟩ := hpoint
      obtain ⟨hne, hes⟩ := hparts _ _ rfl
      have hfs := forall_mem_takeWhile ds
      rw [← hcs, ← @List.takeWhile_append_dropWhile _ Char.isDigit ds]
      by_cases hws0 : ws = []
      · subst hws0
        exact .fraction (digits_ten_iff.2 ⟨hne, hfs⟩) hes
      · exact .point (digits_ten_iff.2 ⟨hws0, hws⟩) (fractionPart_false_iff.2 hfs) hes
    · obtain ⟨hne, hes⟩ := hparts [] rest (by
        unfold readFraction
        split
        · exact absurd ⟨_, rfl⟩ hpoint
        · rfl)
      rw [List.append_nil] at hne
      rw [← hcs]
      exact .whole (digits_ten_iff.2 ⟨hne, hws⟩) hes
  · rintro (@⟨ws, es, hws, hes⟩ | @⟨ws, fs, es, hws, hfs, hes⟩ | @⟨fs, es, hfs, hes⟩) <;>
      obtain ⟨e, he⟩ := Option.isSome_iff_exists.1 (readExponent_isSome_iff.2 hes)
    · obtain ⟨hne, hdigits⟩ := digits_ten_iff.1 hws
      rw [readDecimal_whole hne hdigits hes.endsDigits he]
      rfl
    · obtain ⟨hne, hdigits⟩ := digits_ten_iff.1 hws
      rw [readDecimal_point (List.append_ne_nil_of_left_ne_nil hne fs) hdigits
        (fractionPart_false_iff.1 hfs) hes.endsDigits he]
      rfl
    · obtain ⟨hne, hdigits⟩ := digits_ten_iff.1 hfs
      have hread := @readDecimal_point [] fs es e hne (List.forall_mem_nil _) hdigits
        hes.endsDigits he
      rw [List.nil_append] at hread
      rw [hread]
      rfl

theorem RadixMark.readRadix {mark : Char} {radix : Nat} (h : RadixMark mark radix)
    (ds : List Char) : readRadix ('0' :: mark :: ds) = some (radix, ds) := by
  cases h <;> rfl

theorem readRadix_eq_some_iff {cs ds : List Char} {radix : Nat} :
    readRadix cs = some (radix, ds) ↔ ∃ mark, RadixMark mark radix ∧ cs = '0' :: mark :: ds := by
  constructor
  · intro h
    unfold readRadix at h
    split at h <;> cases h
    · exact ⟨_, .x, rfl⟩
    · exact ⟨_, .X, rfl⟩
    · exact ⟨_, .o, rfl⟩
    · exact ⟨_, .O, rfl⟩
    · exact ⟨_, .b, rfl⟩
    · exact ⟨_, .B, rfl⟩
  · rintro ⟨mark, hmark, rfl⟩
    exact hmark.readRadix ds

/-! ## 4. The characters of decimals -/

theorem Digits.head {separators : Bool} {radix : Nat} {cs : List Char}
    (h : Digits separators radix cs) : ∃ c ds, cs = c :: ds ∧ IsDigit radix c := by
  obtain h | ⟨h, -⟩ | ⟨-, h, -⟩ := h <;> exact ⟨_, _, rfl, h⟩

theorem Digits.chars {separators : Bool} {radix : Nat} {ds : List Char}
    (h : Digits separators radix ds) : ∀ c ∈ ds, IsDigit radix c ∨ c = '_' := by
  induction h with
  | one hc => simpa using .inl hc
  | more hc _ ih => exact List.forall_mem_cons.2 ⟨.inl hc, ih⟩
  | separated _ hc _ ih =>
    exact List.forall_mem_cons.2 ⟨.inl hc, List.forall_mem_cons.2 ⟨.inr rfl, ih⟩⟩

/-- What is in a decimal besides digits. -/
def marks : List Char := ['.', 'e', 'E', '+', '-', '_']

section

variable {separators : Bool}

theorem Digits.marked {ds : List Char} (h : Digits separators 10 ds) :
    ∀ c ∈ ds, c.isDigit ∨ c ∈ marks := by
  intro c hc
  rcases h.chars c hc with hdigit | rfl
  · exact .inl (isDigit_ten_iff.1 hdigit)
  · exact .inr (by decide)

theorem ExponentPart.marked {es : List Char} (h : ExponentPart separators es) :
    ∀ c ∈ es, c.isDigit ∨ c ∈ marks := by
  obtain _ | ⟨hmark, hsign, hds⟩ := h
  · exact List.forall_mem_nil _
  · have hmarks : ∀ c ∈ ['e', 'E'], c ∈ marks := by simp [marks]
    have hsigns : ∀ sign ∈ [[], ['+'], ['-']], ∀ c ∈ sign, c ∈ marks := by simp [marks]
    refine List.forall_mem_cons.2 ⟨.inr (hmarks _ hmark), List.forall_mem_append.2 ⟨?_, hds.marked⟩⟩
    exact fun c hc => .inr (hsigns _ hsign c hc)

theorem FractionPart.marked {fs : List Char} (h : FractionPart separators fs) :
    ∀ c ∈ fs, c.isDigit ∨ c ∈ marks := by
  obtain _ | h := h
  · exact List.forall_mem_nil _
  · exact h.marked

theorem WholePart.digits_ten {ws : List Char} (h : WholePart separators ws) :
    Digits separators 10 ws := by
  obtain _ | ⟨-, h⟩ := h
  · exact .one ⟨0, by decide, .inl rfl⟩
  · exact h

theorem DecimalForm.marked {whole : List Char → Prop}
    (hwhole : ∀ ws, whole ws → Digits separators 10 ws) {cs : List Char}
    (h : DecimalForm whole separators cs) : ∀ c ∈ cs, c.isDigit ∨ c ∈ marks := by
  have hpoint : '.'.isDigit ∨ '.' ∈ marks := .inr (by decide)
  obtain ⟨hws, hes⟩ | ⟨hws, hfs, hes⟩ | ⟨hfs, hes⟩ := h
  · exact List.forall_mem_append.2 ⟨(hwhole _ hws).marked, hes.marked⟩
  · exact List.forall_mem_append.2 ⟨(hwhole _ hws).marked, List.forall_mem_cons.2
      ⟨hpoint, List.forall_mem_append.2 ⟨hfs.marked, hes.marked⟩⟩⟩
  · exact List.forall_mem_cons.2 ⟨hpoint, List.forall_mem_append.2 ⟨hfs.marked, hes.marked⟩⟩

/-- A decimal begins with a digit or a point. -/
theorem DecimalForm.head {whole : List Char → Prop}
    (hwhole : ∀ ws, whole ws → Digits separators 10 ws) {cs : List Char}
    (h : DecimalForm whole separators cs) : ∃ c ds, cs = c :: ds ∧ (c.isDigit ∨ c = '.') := by
  have hdigits : ∀ {ws}, whole ws → ∀ rest : List Char,
      ∃ c ds, ws ++ rest = c :: ds ∧ (c.isDigit ∨ c = '.') := by
    intro ws hws rest
    obtain ⟨c, ds, rfl, hc⟩ := (hwhole ws hws).head
    exact ⟨c, ds ++ rest, rfl, .inl (isDigit_ten_iff.1 hc)⟩
  obtain ⟨hws, -⟩ | ⟨hws, -, -⟩ | - := h
  · exact hdigits hws _
  · exact hdigits hws _
  · exact ⟨_, _, rfl, .inr rfl⟩

theorem RadixMark.not_marked {mark : Char} {radix : Nat} (h : RadixMark mark radix) :
    ¬(mark.isDigit ∨ mark ∈ marks) := by
  cases h <;> decide

end

/-! ## 5. Literals without separators -/

theorem RadixMark.le_sixteen {mark : Char} {radix : Nat} (h : RadixMark mark radix) :
    radix ≤ 16 := by
  cases h <;> decide

theorem isLegacyOctal_iff {cs : List Char} :
    isLegacyOctal cs ↔ ∃ c ds, cs = '0' :: c :: ds ∧ c.isDigit := by
  unfold isLegacyOctal
  split
  · simp
  · rename_i hne
    simp only [Bool.false_eq_true, false_iff]
    rintro ⟨c, ds, rfl, -⟩
    exact hne c ds rfl

/-- The digits before the point may begin with a zero only if there are no others. -/
theorem wholePart_iff {ws rest : List Char} (hrest : ∀ c ds, rest = c :: ds → c.isDigit = false) :
    WholePart false ws ↔ Digits false 10 ws ∧ isLegacyOctal (ws ++ rest) = false := by
  rw [Bool.eq_false_iff, ne_eq, isLegacyOctal_iff]
  constructor
  · intro h
    refine ⟨h.digits_ten, ?_⟩
    rintro ⟨c, ds, hcs, hc⟩
    obtain _ | ⟨hne, -⟩ := h
    · have := hrest c ds (List.cons.inj hcs).2
      rw [hc] at this
      cases this
    · exact hne (List.cons.inj hcs).1
  · rintro ⟨hws, hoctal⟩
    obtain ⟨hne, hdigits⟩ := digits_ten_iff.1 hws
    obtain ⟨c, cs, rfl⟩ := List.exists_cons_of_ne_nil hne
    by_cases hc : c = '0'
    · subst hc
      cases cs with
      | nil => exact .zero
      | cons d ds => exact absurd ⟨d, ds ++ rest, rfl, hdigits d (by simp)⟩ hoctal
    · exact .digits hc hws

theorem decimalForm_wholePart_iff {cs : List Char} :
    DecimalForm (WholePart false) false cs ↔
      DecimalForm (Digits false 10) false cs ∧ isLegacyOctal cs = false := by
  have hpoint : ∀ rest : List Char, ∀ c ds, '.' :: rest = c :: ds → c.isDigit = false := by
    rintro _ _ _ ⟨⟩
    rfl
  constructor
  · rintro (⟨hws, hes⟩ | ⟨hws, hfs, hes⟩ | ⟨hfs, hes⟩)
    · obtain ⟨hws, hoctal⟩ := (wholePart_iff fun c ds h => (hes.endsDigits c ds h).1).1 hws
      exact ⟨.whole hws hes, hoctal⟩
    · obtain ⟨hws, hoctal⟩ := (wholePart_iff (hpoint _)).1 hws
      exact ⟨.point hws hfs hes, hoctal⟩
    · exact ⟨.fraction hfs hes, rfl⟩
  · rintro ⟨⟨hws, hes⟩ | ⟨hws, hfs, hes⟩ | ⟨hfs, hes⟩, hoctal⟩
    · exact .whole ((wholePart_iff fun c ds h => (hes.endsDigits c ds h).1).2 ⟨hws, hoctal⟩) hes
    · exact .point ((wholePart_iff (hpoint _)).2 ⟨hws, hoctal⟩) hfs hes
    · exact .fraction hfs hes

/-- The reader accepts what is a literal without separators. -/
theorem readUnsigned_isSome_iff {cs : List Char} :
    (readUnsigned cs).isSome ↔ LiteralForm false cs := by
  unfold readUnsigned
  split
  · rename_i radix ds hradix
    obtain ⟨mark, hmark, rfl⟩ := readRadix_eq_some_iff.1 hradix
    rw [Option.isSome_map, digitValues_isSome_iff hmark.le_sixteen]
    refine ⟨.radix hmark, fun h => ?_⟩
    generalize hcs : '0' :: mark :: ds = cs at h
    obtain h | ⟨hmark', hds⟩ := h
    · have hmarked := h.marked (fun _ => WholePart.digits_ten) mark (by simp [← hcs])
      exact absurd hmarked hmark.not_marked
    · cases hcs
      have hradix' := hmark'.readRadix ds
      rw [hradix] at hradix'
      cases hradix'
      exact hds
  · rename_i hradix
    have hform : LiteralForm false cs ↔ DecimalForm (WholePart false) false cs := by
      refine ⟨fun h => ?_, .decimal⟩
      obtain h | ⟨hmark, -⟩ := h
      · exact h
      · rw [hmark.readRadix] at hradix
        cases hradix
    rw [hform, decimalForm_wholePart_iff, ← readDecimal_isSome_iff]
    cases isLegacyOctal cs <;> simp

end ScriptReduce.Number
