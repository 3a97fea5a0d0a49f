/-
ScriptReduce.Proofs.Number.Separators: separators in numeric literals.

The reader of literals takes the separators out before it looks at anything else. So
what it accepts is said by the grammar without separators, of the text without them.
The grammar with separators differs from that in one thing only: a text is a literal
with separators if it is one without them and each of its separators stands between
two digits (`literalForm_true_iff`). Characters that are not digits split a text into
parts that are separated each for itself (`wellSeparated_append_cons`), and this is how
the one grammar is carried over to the other, part by part.

From the two follows what the reader does to every text with at most one sign in
front (`ofLiteral?_isSome_iff`): separators that stand anywhere else are passed over.
-/
import ScriptReduce.Proofs.Number.Grammar

namespace ScriptReduce.Number

/-! ## 1. Separators -/

/-- A text with its separators taken out. -/
def withoutSeparators (cs : List Char) : List Char := cs.filter (· != '_')

/-- Every separator stands between two digits. -/
def WellSeparated (radix : Nat) (cs : List Char) : Prop :=
  ∀ before after, cs = before ++ '_' :: after →
    (∃ c ∈ before.getLast?, IsDigit radix c) ∧ ∃ c ∈ after.head?, IsDigit radix c

theorem withoutSeparators_append (cs ds : List Char) :
    withoutSeparators (cs ++ ds) = withoutSeparators cs ++ withoutSeparators ds :=
  List.filter_append cs ds

theorem withoutSeparators_cons {c : Char} (h : c ≠ '_') (cs : List Char) :
    withoutSeparators (c :: cs) = c :: withoutSeparators cs :=
  List.filter_cons_of_pos (by simpa using h)

theorem withoutSeparators_separator (cs : List Char) :
    withoutSeparators ('_' :: cs) = withoutSeparators cs := rfl

theorem withoutSeparators_of_not_mem {cs : List Char} (h : '_' ∉ cs) : withoutSeparators cs = cs :=
  List.filter_eq_self.2 fun c hc => by
    rw [bne_iff_ne]
    rintro rfl
    exact h hc

theorem not_isDigit_separator {radix : Nat} (hr : radix ≤ 16) : ¬IsDigit radix '_' := fun h =>
  absurd (h.toNat hr) (by decide)

section

variable {radix : Nat} {cs : List Char}

theorem wellSeparated_of_not_mem (h : '_' ∉ cs) : WellSeparated radix cs := by
  rintro before after rfl
  exact absurd (List.mem_append_right before List.mem_cons_self) h

theorem wellSeparated_nil : WellSeparated radix [] := wellSeparated_of_not_mem List.not_mem_nil

/-- A text that is well separated has no separator in front. -/
theorem WellSeparated.head (h : WellSeparated radix cs) : ∀ c ∈ cs.head?, c ≠ '_' := by
  rintro _ hc rfl
  cases cs with
  | nil => cases hc
  | cons c cs =>
    cases hc
    obtain ⟨⟨c, hc, -⟩, -⟩ := h [] cs rfl
    cases hc

theorem WellSeparated.head_ne {c : Char} (h : WellSeparated radix (c :: cs)) : c ≠ '_' :=
  h.head c rfl

/-- There is nothing in a well separated text that has only separators. -/
theorem WellSeparated.eq_nil (h : WellSeparated radix cs) (hnil : withoutSeparators cs = []) :
    cs = [] := by
  cases cs with
  | nil => rfl
  | cons c cs =>
    rw [withoutSeparators_cons h.head_ne] at hnil
    cases hnil

/-- Around a character that is not a digit, the two sides are separated apart. -/
theorem wellSeparated_append_cons (xs ys : List Char) {a : Char} (hdigit : ¬IsDigit radix a)
    (hne : a ≠ '_') :
    WellSeparated radix (xs ++ a :: ys) ↔ WellSeparated radix xs ∧ WellSeparated radix ys := by
  have hlast : ∀ (xs : List Char) (b : Char) (bs : List Char),
      (xs ++ a :: b :: bs).getLast? = (b :: bs).getLast? := by
    intro xs b bs
    simp [List.getLast?_append, List.getLast?_cons]
  constructor
  · intro h
    constructor
    · rintro before after rfl
      obtain ⟨hbefore, c, hc, hdigit'⟩ := h before (after ++ a :: ys) (by simp)
      refine ⟨hbefore, c, ?_, hdigit'⟩
      cases after with
      | nil =>
        cases hc
        exact absurd hdigit' hdigit
      | cons => exact hc
    · rintro before after rfl
      obtain ⟨⟨c, hc, hdigit'⟩, hafter⟩ := h (xs ++ a :: before) after (by simp)
      refine ⟨⟨c, ?_, hdigit'⟩, hafter⟩
      cases before with
      | nil =>
        rw [List.getLast?_concat] at hc
        cases hc
        exact absurd hdigit' hdigit
      | cons b bs =>
        rw [hlast] at hc
        exact hc
  · rintro ⟨hxs, hys⟩ before after heq
    rcases List.append_eq_append_iff.1 heq with ⟨zs, rfl, hzs⟩ | ⟨zs, rfl, hzs⟩
    · -- the separator is behind the character
      cases zs with
      | nil => exact absurd (List.cons.inj hzs).1 hne
      | cons b zs =>
        obtain ⟨rfl, rfl⟩ := List.cons.inj hzs
        obtain ⟨⟨c, hc, hdigit'⟩, hafter⟩ := hys zs after rfl
        refine ⟨⟨c, ?_, hdigit'⟩, hafter⟩
        cases zs with
        | nil => cases hc
        | cons b bs =>
          rw [hlast]
          exact hc
    · -- the separator is in front of the character
      cases zs with
      | nil => exact absurd (List.cons.inj hzs).1.symm hne
      | cons b zs =>
        obtain ⟨rfl, rfl⟩ := List.cons.inj hzs
        obtain ⟨hbefore, c, hc, hdigit'⟩ := hxs before zs rfl
        refine ⟨hbefore, c, ?_, hdigit'⟩
        cases zs with
        | nil => cases hc
        | cons => exact hc

theorem wellSeparated_cons_cons {c d : Char} (hc : c ≠ '_') (hd : d ≠ '_') :
    WellSeparated radix (c :: d :: cs) ↔ WellSeparated radix (d :: cs) := by
  constructor
  · intro h before after heq
    have hsplit := h (c :: before) after (by rw [heq]; rfl)
    cases before with
    | nil => exact absurd (List.cons.inj heq).1 hd
    | cons => exact hsplit
  · intro h before after heq
    cases before with
    | nil => exact absurd (List.cons.inj heq).1 hc
    | cons b before =>
      have hsplit := h before after (List.cons.inj heq).2
      cases before with
      | nil =>
        obtain ⟨⟨c, hc, -⟩, -⟩ := hsplit
        cases hc
      | cons => exact hsplit

theorem wellSeparated_cons_separator (hr : radix ≤ 16) {c : Char} :
    WellSeparated radix (c :: '_' :: cs) ↔
      IsDigit radix c ∧ (∃ d ∈ cs.head?, IsDigit radix d) ∧ WellSeparated radix cs := by
  constructor
  · intro h
    obtain ⟨⟨_, hc, hdigit⟩, hafter⟩ := h [c] cs rfl
    cases hc
    refine ⟨hdigit, hafter, ?_⟩
    rintro before after rfl
    have hsplit := h (c :: '_' :: before) after rfl
    cases before with
    | nil =>
      obtain ⟨_, hd, hdigit'⟩ := hafter
      cases hd
      exact absurd hdigit' (not_isDigit_separator hr)
    | cons => exact hsplit
  · rintro ⟨hdigit, hafter, hcs⟩ before after heq
    rcases before with _ | ⟨b, _ | ⟨b', before⟩⟩
    · obtain ⟨rfl, -⟩ := List.cons.inj heq
      exact absurd hdigit (not_isDigit_separator hr)
    · cases heq
      exact ⟨⟨_, rfl, hdigit⟩, hafter⟩
    · have hsplit := hcs before after (List.cons.inj (List.cons.inj heq).2).2
      cases before with
      | nil =>
        obtain ⟨⟨c, hc, -⟩, -⟩ := hsplit
        cases hc
      | cons => exact hsplit

end

/-! ## 2. Literals with separators -/

theorem IsDigit.ne_separator {radix : Nat} (hr : radix ≤ 16) {c : Char} (h : IsDigit radix c) :
    c ≠ '_' := by
  rintro rfl
  exact not_isDigit_separator hr h

/-- Digits that are well separated are digits with separators. -/
theorem digits_of_wellSeparated {radix radix' : Nat} (hr' : radix' ≤ 16) :
    ∀ {cs : List Char}, Digits false radix (withoutSeparators cs) → WellSeparated radix' cs →
      Digits true radix cs
  | [], h, _ => by cases h
  | [c], h, hsep => by
    rw [withoutSeparators_cons hsep.head_ne] at h
    exact .one ((digits_false_iff.1 h).2 c List.mem_cons_self)
  | c :: d :: ds, h, hsep => by
    rw [withoutSeparators_cons hsep.head_ne] at h
    obtain ⟨hc, hds⟩ := List.forall_mem_cons.1 (digits_false_iff.1 h).2
    by_cases hd : d = '_'
    · subst hd
      obtain ⟨-, ⟨d, hhead, -⟩, hsep'⟩ := (wellSeparated_cons_separator hr').1 hsep
      have hne : withoutSeparators ds ≠ [] := fun hnil => by
        rw [hsep'.eq_nil hnil] at hhead
        cases hhead
      exact .separated rfl hc (digits_of_wellSeparated hr' (digits_false_iff.2 ⟨hne, hds⟩) hsep')
    · have hsep' := (wellSeparated_cons_cons hsep.head_ne hd).1 hsep
      have hne : withoutSeparators (d :: ds) ≠ [] := by
        rw [withoutSeparators_cons hd]
        exact List.cons_ne_nil _ _
      exact .more hc (digits_of_wellSeparated hr' (digits_false_iff.2 ⟨hne, hds⟩) hsep')

/-- Digits with separators are digits, well separated. The separators may also stand
between digits of a larger radix: there are none. -/
theorem digits_true_iff {radix radix' : Nat} (hr : radix ≤ radix') (hr' : radix' ≤ 16)
    {cs : List Char} :
    Digits true radix cs ↔
      Digits false radix (withoutSeparators cs) ∧ WellSeparated radix' cs := by
  constructor
  · intro h
    induction h with
    | one hc =>
      have hne := hc.ne_separator (by omega)
      rw [withoutSeparators_cons hne]
      exact ⟨.one hc, wellSeparated_of_not_mem (by simpa using hne.symm)⟩
    | more hc hcs ih =>
      have hne := hc.ne_separator (by omega)
      obtain ⟨d, ds, rfl, hd⟩ := hcs.head
      rw [withoutSeparators_cons hne, wellSeparated_cons_cons hne (hd.ne_separator (by omega))]
      exact ⟨.more hc ih.1, ih.2⟩
    | separated _ hc hcs ih =>
      obtain ⟨d, ds, rfl, hd⟩ := hcs.head
      rw [withoutSeparators_cons (hc.ne_separator (by omega)), withoutSeparators_separator,
        wellSeparated_cons_separator hr']
      exact ⟨.more hc ih.1, hc.mono hr, ⟨d, rfl, hd.mono hr⟩, ih.2⟩
  · rintro ⟨hdigits, hsep⟩
    exact digits_of_wellSeparated hr' hdigits hsep

theorem digits_true_ten_iff {cs : List Char} :
    Digits true 10 cs ↔ Digits false 10 (withoutSeparators cs) ∧ WellSeparated 10 cs :=
  digits_true_iff (Nat.le_refl 10) (by decide)

/-- A character that is left when the separators are taken out was there before, and what
is left around it is left of what was around it. -/
theorem exists_split {radix : Nat} {cs ys : List Char} (xs : List Char) {a : Char}
    (hdigit : ¬IsDigit radix a) (h : withoutSeparators cs = xs ++ a :: ys)
    (hsep : WellSeparated radix cs) :
    ∃ xs' ys', cs = xs' ++ a :: ys' ∧ (withoutSeparators xs' = xs ∧ WellSeparated radix xs') ∧
      withoutSeparators ys' = ys ∧ WellSeparated radix ys' := by
  obtain ⟨us, vs, rfl, hus, hvs⟩ := List.filter_eq_append_iff.1 h
  obtain ⟨ws, ys', rfl, hws, ha, hys⟩ := List.filter_eq_cons_iff.1 hvs
  have hws' : withoutSeparators ws = [] := List.filter_eq_nil_iff.2 hws
  have hsplit : us ++ (ws ++ a :: ys') = (us ++ ws) ++ a :: ys' := (List.append_assoc ..).symm
  rw [hsplit, wellSeparated_append_cons _ _ hdigit (by simpa using ha)] at hsep
  refine ⟨us ++ ws, ys', hsplit, ⟨?_, hsep.1⟩, hys, hsep.2⟩
  rw [withoutSeparators_append, hws', List.append_nil]
  exact hus

theorem not_isDigit_ten {c : Char} (h : c.isDigit = false) : ¬IsDigit 10 c := by
  rw [isDigit_ten_iff, h]
  exact Bool.false_ne_true

theorem exists_split_head {radix : Nat} {cs ys : List Char} {a : Char}
    (hdigit : ¬IsDigit radix a) (h : withoutSeparators cs = a :: ys)
    (hsep : WellSeparated radix cs) :
    ∃ ys', cs = a :: ys' ∧ withoutSeparators ys' = ys ∧ WellSeparated radix ys' := by
  obtain ⟨xs', ys', rfl, ⟨hxs, hxs'⟩, hys⟩ := exists_split [] hdigit h hsep
  exact ⟨ys', by rw [hxs'.eq_nil hxs]; rfl, hys⟩

theorem wellSeparated_cons {radix : Nat} {cs : List Char} {a : Char} (hdigit : ¬IsDigit radix a)
    (hne : a ≠ '_') : WellSeparated radix (a :: cs) ↔ WellSeparated radix cs :=
  (wellSeparated_append_cons [] _ hdigit hne).trans (and_iff_right wellSeparated_nil)

theorem exponentMark_not_digit {mark : Char} (h : mark ∈ ['e', 'E']) :
    ¬IsDigit 10 mark ∧ mark ≠ '_' := by
  have hcases : mark = 'e' ∨ mark = 'E' := by simpa using h
  rcases hcases with rfl | rfl <;> exact ⟨not_isDigit_ten rfl, by decide⟩

theorem exponentSign_not_digit {sign : Char} (h : sign = '+' ∨ sign = '-') :
    ¬IsDigit 10 sign ∧ sign ≠ '_' := by
  rcases h with rfl | rfl <;> exact ⟨not_isDigit_ten rfl, by decide⟩

theorem exponentPart_true_iff {es : List Char} :
    ExponentPart true es ↔ ExponentPart false (withoutSeparators es) ∧ WellSeparated 10 es := by
  have hcases : ∀ sign ∈ [[], ['+'], ['-']],
      sign = [] ∨ ∃ c, (c = '+' ∨ c = '-') ∧ sign = [c] := by simp
  constructor
  · rintro (_ | @⟨mark, sign, ds, hmark, hsign, hds⟩)
    · exact ⟨.none, wellSeparated_nil⟩
    · obtain ⟨hdigit, hne⟩ := exponentMark_not_digit hmark
      obtain ⟨hds, hsep⟩ := digits_true_ten_iff.1 hds
      have hsign' : withoutSeparators (sign ++ ds) = sign ++ withoutSeparators ds ∧
          WellSeparated 10 (sign ++ ds) := by
        rcases hcases sign hsign with rfl | ⟨c, hc, rfl⟩
        · exact ⟨rfl, hsep⟩
        · obtain ⟨hdigit, hne⟩ := exponentSign_not_digit hc
          exact ⟨withoutSeparators_cons hne ds, (wellSeparated_cons hdigit hne).2 hsep⟩
      rw [withoutSeparators_cons hne, wellSeparated_cons hdigit hne, hsign'.1]
      exact ⟨.some hmark hsign hds, hsign'.2⟩
  · rintro ⟨h, hsep⟩
    generalize hes : withoutSeparators es = es' at h
    obtain _ | @⟨mark, sign, ds, hmark, hsign, hds⟩ := h
    · rw [hsep.eq_nil hes]
      exact .none
    · obtain ⟨ys, rfl, hys, hsep⟩ := exists_split_head (exponentMark_not_digit hmark).1 hes hsep
      rcases hcases sign hsign with rfl | ⟨c, hc, rfl⟩
      · exact .some hmark (show [] ∈ _ by simp) (digits_true_ten_iff.2 ⟨hys ▸ hds, hsep⟩)
      · obtain ⟨ds', rfl, rfl, hsep⟩ := exists_split_head (exponentSign_not_digit hc).1 hys hsep
        exact .some hmark hsign (digits_true_ten_iff.2 ⟨hds, hsep⟩)

theorem fractionPart_true_iff {fs : List Char} :
    FractionPart true fs ↔ FractionPart false (withoutSeparators fs) ∧ WellSeparated 10 fs := by
  constructor
  · rintro (_ | h)
    · exact ⟨.none, wellSeparated_nil⟩
    · obtain ⟨h, hsep⟩ := digits_true_ten_iff.1 h
      exact ⟨.some h, hsep⟩
  · rintro ⟨h, hsep⟩
    generalize hfs : withoutSeparators fs = fs' at h
    obtain _ | h := h
    · rw [hsep.eq_nil hfs]
      exact .none
    · subst hfs
      exact .some (digits_true_ten_iff.2 ⟨h, hsep⟩)

theorem wholePart_true_iff {ws : List Char} :
    WholePart true ws ↔ WholePart false (withoutSeparators ws) ∧ WellSeparated 10 ws := by
  have hne : ∀ ds, Digits true 10 ds → withoutSeparators ds ≠ [] := fun ds h =>
    (digits_false_iff.1 (digits_true_ten_iff.1 h).1).1
  constructor
  · intro h
    obtain ⟨hws, hsep⟩ := digits_true_ten_iff.1 h.digits_ten
    refine ⟨?_, hsep⟩
    obtain _ | @⟨c, cs, hc, -⟩ := h
    · exact .zero
    · rw [withoutSeparators_cons hsep.head_ne] at hws ⊢
      exact .digits hc hws
  · rintro ⟨h, hsep⟩
    have hws := digits_true_ten_iff.2 ⟨h.digits_ten, hsep⟩
    obtain ⟨c, cs, rfl, -⟩ := hws.head
    rw [withoutSeparators_cons hsep.head_ne] at h
    generalize hcs : withoutSeparators cs = cs' at h
    obtain _ | ⟨hc, -⟩ := h
    · -- the zero has nothing behind it
      obtain _ | ⟨-, hmore⟩ | ⟨-, -, hmore⟩ := hws
      · exact .zero
      · exact (hne _ hmore hcs).elim
      · exact (hne _ hmore hcs).elim
    · exact .digits hc hws

theorem ExponentPart.wellSeparated_append {ws es : List Char} (h : ExponentPart true es)
    (hws : WellSeparated 10 ws) : WellSeparated 10 (ws ++ es) := by
  have hes := (exponentPart_true_iff.1 h).2
  obtain _ | ⟨hmark, -, -⟩ := h
  · rw [List.append_nil]
    exact hws
  · obtain ⟨hdigit, hne⟩ := exponentMark_not_digit hmark
    rw [wellSeparated_cons hdigit hne] at hes
    exact (wellSeparated_append_cons _ _ hdigit hne).2 ⟨hws, hes⟩

/-- Without its separators a text has an exponent only where it had one before. -/
theorem exists_exponent {cs ws es : List Char} (h : withoutSeparators cs = ws ++ es)
    (hes : ExponentPart false es) (hsep : WellSeparated 10 cs) :
    ∃ ws' es', cs = ws' ++ es' ∧ (withoutSeparators ws' = ws ∧ WellSeparated 10 ws') ∧
      ExponentPart true es' := by
  obtain _ | @⟨mark, sign, ds, hmark, hsign, hds⟩ := hes
  · rw [List.append_nil] at h
    exact ⟨cs, [], (List.append_nil cs).symm, ⟨h, hsep⟩, .none⟩
  · obtain ⟨hdigit, hne⟩ := exponentMark_not_digit hmark
    obtain ⟨ws', es', rfl, hws, hes', hsep'⟩ := exists_split _ hdigit h hsep
    have herase : withoutSeparators (mark :: es') = mark :: (sign ++ ds) := by
      rw [withoutSeparators_cons hne, hes']
    refine ⟨ws', mark :: es', rfl, hws, exponentPart_true_iff.2 ⟨?_, ?_⟩⟩
    · rw [herase]
      exact .some hmark hsign hds
    · exact (wellSeparated_cons hdigit hne).2 hsep'

theorem decimalForm_true_iff {cs : List Char} :
    DecimalForm (WholePart true) true cs ↔
      DecimalForm (WholePart false) false (withoutSeparators cs) ∧ WellSeparated 10 cs := by
  have hpoint : ¬IsDigit 10 '.' := not_isDigit_ten rfl
  have hne : '.' ≠ '_' := by decide
  constructor
  · rintro (⟨hws, hes⟩ | ⟨hws, hfs, hes⟩ | ⟨hfs, hes⟩)
    · obtain ⟨hws, hwsep⟩ := wholePart_true_iff.1 hws
      rw [withoutSeparators_append]
      exact ⟨.whole hws (exponentPart_true_iff.1 hes).1, hes.wellSeparated_append hwsep⟩
    · obtain ⟨hws, hwsep⟩ := wholePart_true_iff.1 hws
      obtain ⟨hfs, hfsep⟩ := fractionPart_true_iff.1 hfs
      rw [withoutSeparators_append, withoutSeparators_cons hne, withoutSeparators_append,
        wellSeparated_append_cons _ _ hpoint hne]
      exact ⟨.point hws hfs (exponentPart_true_iff.1 hes).1, hwsep, hes.wellSeparated_append hfsep⟩
    · obtain ⟨hfs, hfsep⟩ := digits_true_ten_iff.1 hfs
      rw [withoutSeparators_cons hne, withoutSeparators_append, wellSeparated_cons hpoint hne]
      exact ⟨.fraction hfs (exponentPart_true_iff.1 hes).1, hes.wellSeparated_append hfsep⟩
  · rintro ⟨h, hsep⟩
    generalize hcs : withoutSeparators cs = cs' at h
    obtain ⟨hws, hes⟩ | ⟨hws, hfs, hes⟩ | ⟨hfs, hes⟩ := h
    · obtain ⟨ws, es, rfl, ⟨rfl, hwsep⟩, hes⟩ := exists_exponent hcs hes hsep
      exact .whole (wholePart_true_iff.2 ⟨hws, hwsep⟩) hes
    · obtain ⟨ws, rest, rfl, ⟨rfl, hwsep⟩, hrest, hsep⟩ := exists_split _ hpoint hcs hsep
      obtain ⟨fs, es, rfl, ⟨rfl, hfsep⟩, hes⟩ := exists_exponent hrest hes hsep
      exact .point (wholePart_true_iff.2 ⟨hws, hwsep⟩) (fractionPart_true_iff.2 ⟨hfs, hfsep⟩) hes
    · obtain ⟨rest, rfl, hrest, hsep⟩ := exists_split_head hpoint hcs hsep
      obtain ⟨fs, es, rfl, ⟨rfl, hfsep⟩, hes⟩ := exists_exponent hrest hes hsep
      exact .fraction (digits_true_ten_iff.2 ⟨hfs, hfsep⟩) hes

/-- The radix of the digits that separators may stand between: letters are digits only
behind the mark of the greatest radix. -/
def separatorRadix : List Char → Nat
  | '0' :: 'x' :: _ | '0' :: 'X' :: _ => 16
  | _ => 10

theorem separatorRadix_of_marked {cs : List Char}
    (h : ∀ c ∈ withoutSeparators cs, c.isDigit ∨ c ∈ marks) : separatorRadix cs = 10 := by
  have hmem : ∀ {c}, c ≠ '_' → c ∈ cs → c ∈ withoutSeparators cs := fun hne hc =>
    List.mem_filter.2 ⟨hc, by simpa using hne⟩
  unfold separatorRadix
  split
  · exact absurd (h 'x' (hmem (by decide) (by simp))) RadixMark.x.not_marked
  · exact absurd (h 'X' (hmem (by decide) (by simp))) RadixMark.X.not_marked
  · rfl

/-- A mark is no digit of the radix that separators go by, and so ends what it stands
behind. -/
theorem RadixMark.separatorRadix {mark : Char} {radix : Nat} (h : RadixMark mark radix)
    (ds : List Char) :
    (radix ≤ separatorRadix ('0' :: mark :: ds) ∧ separatorRadix ('0' :: mark :: ds) ≤ 16) ∧
      ¬IsDigit (separatorRadix ('0' :: mark :: ds)) mark ∧ mark ≠ '_' := by
  have hsixteen : ∀ c : Char, 102 < c.toNat ∨ 70 < c.toNat ∧ c.toNat < 97 → ¬IsDigit 16 c :=
    fun c hc hdigit => by have := hdigit.toNat (Nat.le_refl 16); omega
  refine ⟨?_, ?_⟩
  · cases h <;> exact ⟨Nat.le_of_ble_eq_true rfl, Nat.le_of_ble_eq_true rfl⟩
  · cases h
    · exact ⟨hsixteen _ (by decide), by decide⟩
    · exact ⟨hsixteen _ (by decide), by decide⟩
    all_goals exact ⟨not_isDigit_ten rfl, by decide⟩

/-- A literal with separators is one without them that is well separated. -/
theorem literalForm_true_iff {cs : List Char} :
    LiteralForm true cs ↔
      LiteralForm false (withoutSeparators cs) ∧ WellSeparated (separatorRadix cs) cs := by
  constructor
  · rintro (h | @⟨mark, radix, ds, hmark, hds⟩)
    · obtain ⟨h, hsep⟩ := decimalForm_true_iff.1 h
      rw [separatorRadix_of_marked (h.marked fun _ => WholePart.digits_ten)]
      exact ⟨.decimal h, hsep⟩
    · obtain ⟨⟨hle, hle'⟩, hdigit, hne⟩ := hmark.separatorRadix ds
      obtain ⟨hds, hsep⟩ := (digits_true_iff hle hle').1 hds
      rw [withoutSeparators_cons (by decide), withoutSeparators_cons hne]
      exact ⟨.radix hmark hds, (wellSeparated_append_cons ['0'] _ hdigit hne).2
        ⟨wellSeparated_of_not_mem (by decide), hsep⟩⟩
  · rintro ⟨h, hsep⟩
    generalize hcs : withoutSeparators cs = cs' at h
    obtain h | @⟨mark, radix, ds, hmark, hds⟩ := h
    · subst hcs
      rw [separatorRadix_of_marked (h.marked fun _ => WholePart.digits_ten)] at hsep
      exact .decimal (decimalForm_true_iff.2 ⟨h, hsep⟩)
    · obtain ⟨rest, rfl, hrest⟩ := exists_cons hcs hsep.head
      cases rest with
      | nil => cases hrest
      | cons c rest =>
        by_cases hc : c = '_'
        · -- the separator would stand before the mark, which is no digit
          subst hc
          have hten : WellSeparated 10 ('0' :: '_' :: rest) := hsep
          obtain ⟨-, ⟨d, hd, hdigit⟩, hsep'⟩ := (wellSeparated_cons_separator (by decide)).1 hten
          rw [withoutSeparators_separator] at hrest
          obtain ⟨rest, rfl, -⟩ := exists_cons hrest hsep'.head
          cases hd
          exact absurd (.inl (isDigit_ten_iff.1 hdigit)) hmark.not_marked
        · obtain ⟨ds', heq, rfl⟩ := exists_cons hrest fun d hd => by
            cases hd
            exact hc
          cases heq
          obtain ⟨⟨hle, hle'⟩, hdigit, hne⟩ := hmark.separatorRadix rest
          have hsep' := ((wellSeparated_append_cons ['0'] _ hdigit hne).1 hsep).2
          exact .radix hmark ((digits_true_iff hle hle').2 ⟨hds, hsep'⟩)
where
  /-- The first character that is left was the first before. -/
  exists_cons {cs ys : List Char} {c : Char} (h : withoutSeparators cs = c :: ys)
      (hne : ∀ d ∈ cs.head?, d ≠ '_') : ∃ ds, cs = c :: ds ∧ withoutSeparators ds = ys := by
    cases cs with
    | nil => cases h
    | cons d ds =>
      rw [withoutSeparators_cons (hne d rfl)] at h
      obtain ⟨rfl, rfl⟩ := List.cons.inj h
      exact ⟨ds, rfl, rfl⟩

/-! ## 3. What is read -/

/-- A text without the minus sign in front of it. -/
def unsigned : List Char → List Char
  | '-' :: cs => cs
  | cs => cs

/-- No literal begins with a sign. -/
theorem not_literalForm_minus {separators : Bool} (ds : List Char) :
    ¬LiteralForm separators ('-' :: ds) := by
  intro h
  generalize hcs : '-' :: ds = cs at h
  obtain h | - := h
  · obtain ⟨c, ds', rfl, hc⟩ := h.head fun _ => WholePart.digits_ten
    cases hcs
    exact absurd hc (by decide)
  · cases hcs

theorem unsigned_of_ne {cs : List Char} (h : ∀ ds, cs ≠ '-' :: ds) : unsigned cs = cs := by
  unfold unsigned
  split
  · exact absurd rfl (h _)
  · rfl

theorem signedLiteral_iff {cs : List Char} : SignedLiteral cs ↔ LiteralForm true (unsigned cs) := by
  unfold SignedLiteral
  by_cases h : ∃ ds, cs = '-' :: ds
  · obtain ⟨ds, rfl⟩ := h
    refine ⟨fun h => ?_, fun h => .inr ⟨ds, rfl, h⟩⟩
    obtain h | ⟨ds', heq, h⟩ := h
    · exact absurd h (not_literalForm_minus ds)
    · cases heq
      exact h
  · rw [unsigned_of_ne fun ds hcs => h ⟨ds, hcs⟩]
    exact ⟨fun h' => h'.resolve_right fun ⟨ds, hcs, _⟩ => h ⟨ds, hcs⟩, .inl⟩

theorem readLiteral_of_ne {cs : List Char} (h : ∀ ds, cs ≠ '-' :: ds) :
    readLiteral cs = readUnsigned (withoutSeparators cs) := by
  unfold readLiteral
  split
  · exact absurd rfl (h _)
  · rfl

theorem readLiteral_minus (cs : List Char) :
    readLiteral ('-' :: cs) = (readLiteral cs).map fun x => -x := rfl

theorem readLiteral_isSome_iff {cs : List Char} (h : ¬['-', '-'] <+: cs) :
    (readLiteral cs).isSome ↔ LiteralForm false (withoutSeparators (unsigned cs)) := by
  rw [← readUnsigned_isSome_iff]
  by_cases hminus : ∃ ds, cs = '-' :: ds
  · obtain ⟨ds, rfl⟩ := hminus
    have hne : ∀ ds', ds ≠ '-' :: ds' := by
      rintro ds' rfl
      exact h ⟨ds', rfl⟩
    rw [readLiteral_minus, Option.isSome_map, readLiteral_of_ne hne]
    rfl
  · have hne : ∀ ds, cs ≠ '-' :: ds := fun ds hcs => hminus ⟨ds, hcs⟩
    rw [readLiteral_of_ne hne, unsigned_of_ne hne]

/-- Unless a text begins with two signs, it is read if and only if it is a literal once
the sign and the separators are taken out; and it is a literal as it stands if and only if
it is read and its separators stand between digits. -/
theorem ofLiteral?_isSome_iff {s : String} (h : ¬['-', '-'] <+: s.toList) :
    ((ofLiteral? s).isSome ↔ LiteralForm false (withoutSeparators (unsigned s.toList))) ∧
      (SignedLiteral s.toList ↔ (ofLiteral? s).isSome ∧
        WellSeparated (separatorRadix (unsigned s.toList)) (unsigned s.toList)) := by
  have hread := readLiteral_isSome_iff h
  refine ⟨hread, ?_⟩
  rw [signedLiteral_iff, literalForm_true_iff, ofLiteral?, hread]

/-- A negative number in radix sixteen, with a separator. -/
theorem ofLiteral?_isSome_separated :
    ¬['-', '-'] <+: "-0x1_F".toList ∧ SignedLiteral "-0x1_F".toList ∧
      (ofLiteral? "-0x1_F").isSome ∧ WellSeparated 16 "0x1_F".toList := by
  have hsigns : ¬['-', '-'] <+: "-0x1_F".toList := by decide
  have hdigits : Digits true 16 ['1', '_', 'F'] :=
    .separated rfl ⟨1, by decide, .inl rfl⟩ (.one ⟨15, by decide, .inr rfl⟩)
  have hliteral : SignedLiteral "-0x1_F".toList := .inr ⟨_, rfl, .radix .x hdigits⟩
  obtain ⟨hread, hsep⟩ := (ofLiteral?_isSome_iff hsigns).2.1 hliteral
  exact ⟨hsigns, hliteral, hread, hsep⟩

/-- More is read than literals: two separators in a row, which no literal has. -/
theorem ofLiteral?_reads_misplaced :
    ¬∀ s : String, (ofLiteral? s).isSome ↔ SignedLiteral s.toList := by
  intro h
  have hread : (ofLiteral? "1__0").isSome := by decide +kernel
  have hliteral := signedLiteral_iff.1 ((h "1__0").1 hread)
  obtain ⟨-, c, hc, hdigit⟩ := (literalForm_true_iff.1 hliteral).2 ['1'] ['_', '0'] rfl
  cases hc
  exact not_isDigit_separator (by decide) hdigit

end ScriptReduce.Number
