/-
ScriptReduce.Proofs.Text.Repeats: signs in texts, and in the literals of values.

Two signs in a row are read as an operator of their own. `Repeats` says that a text has the
same character twice in a row somewhere. A text that is put together of two has it in one of
them or where they meet (`repeats_append`), so nothing happens at a character that is no sign
(`repeats_append_cons`).

Of the literals of values only the negative numbers begin with a sign, which is a minus
(`head?_print_iff`). A number has no sign twice in a row, as the sign of its exponent stands
behind an `e`. So a literal with two signs in a row is that of a string that has them
(`repeats_print_iff`).
-/
import ScriptReduce.Proofs.Number.RoundTrip
import ScriptReduce.Proofs.Number.Signed
import ScriptReduce.Tree.Print
import Mathlib.Data.List.Chain

namespace ScriptReduce

/-! ## 1. Characters in a row -/

namespace Text

variable {c d : Char} {cs xs ys : List Char}

/-- Whether a character is the sign of a number. -/
def IsSign (c : Char) : Prop := c = '-' ∨ c = '+'

instance : DecidablePred IsSign := fun c => inferInstanceAs (Decidable (c = '-' ∨ c = '+'))

/-- Whether a text has a character twice in a row. -/
def Repeats (c : Char) (cs : List Char) : Prop := [c, c] <:+: cs

theorem ne_of_isSign (hc : IsSign c) (hd : ¬IsSign d) : d ≠ c := fun h => hd (h ▸ hc)

theorem not_isSign_of_isDigit (h : d.isDigit) : ¬IsSign d := by
  rintro (rfl | rfl) <;> exact absurd h (by decide)

theorem Repeats.mem (h : Repeats c cs) : c ∈ cs := h.subset List.mem_cons_self

theorem not_repeats_nil (c : Char) : ¬Repeats c [] := fun h => by cases h.mem

theorem not_repeats_singleton (c d : Char) : ¬Repeats c [d] := fun h => by
  have hlength := h.length_le
  simp at hlength

theorem repeats_iff_not_isChain :
    Repeats c cs ↔ ¬cs.IsChain fun a b => ¬(a = c ∧ b = c) := by
  rw [List.isChain_iff_forall_rel_of_append_cons_cons]
  constructor
  · rintro ⟨before, behind, h⟩ hchain
    have heq : cs = before ++ c :: c :: behind := by simpa using h.symm
    exact hchain heq ⟨rfl, rfl⟩
  · intro h
    push Not at h
    obtain ⟨a, b, before, behind, heq, rfl, rfl⟩ := h
    exact ⟨before, behind, by simpa using heq.symm⟩

instance (c : Char) : DecidablePred (Repeats c) := fun _ =>
  decidable_of_iff' _ repeats_iff_not_isChain

theorem repeats_append :
    Repeats c (xs ++ ys) ↔
      Repeats c xs ∨ Repeats c ys ∨ xs.getLast? = some c ∧ ys.head? = some c := by
  simp only [repeats_iff_not_isChain, List.isChain_append, Option.mem_def]
  grind

/-- A character does not repeat another one. -/
theorem repeats_append_cons (h : d ≠ c) :
    Repeats c (xs ++ d :: ys) ↔ Repeats c xs ∨ Repeats c ys := by
  have hcons : Repeats c (d :: ys) ↔ Repeats c ys := by
    rw [← List.singleton_append, repeats_append]
    simp [h, not_repeats_singleton]
  rw [repeats_append, hcons]
  simp [h]

theorem repeats_cons (h : d ≠ c) : Repeats c (d :: ys) ↔ Repeats c ys := by
  rw [← List.nil_append (d :: ys), repeats_append_cons h]
  simp [not_repeats_nil]

/-- A text without signs before another adds none to it. -/
theorem repeats_append_left (h : ∀ d ∈ xs, ¬IsSign d) (hc : IsSign c) (ys : List Char) :
    Repeats c (xs ++ ys) ↔ Repeats c ys := by
  induction xs with
  | nil => rfl
  | cons d xs ih =>
    obtain ⟨hd, hxs⟩ := List.forall_mem_cons.1 h
    rw [List.cons_append, repeats_cons (ne_of_isSign hc hd), ih hxs]

theorem repeats_append_right (h : ∀ d ∈ ys, ¬IsSign d) (hc : IsSign c) :
    Repeats c (xs ++ ys) ↔ Repeats c xs := by
  have hys : ¬Repeats c ys := fun hrepeats => h c hrepeats.mem hc
  have hhead : ¬ys.head? = some c := fun hhead => h c (List.mem_of_mem_head? hhead) hc
  simp [repeats_append, hys, hhead]

/-- Texts with something between them that has no signs do not meet. -/
theorem repeats_between {mid : List Char} (hne : mid ≠ []) (h : ∀ d ∈ mid, ¬IsSign d)
    (hc : IsSign c) : Repeats c (xs ++ (mid ++ ys)) ↔ Repeats c xs ∨ Repeats c ys := by
  obtain ⟨d, ds, rfl⟩ := List.exists_cons_of_ne_nil hne
  obtain ⟨hd, hds⟩ := List.forall_mem_cons.1 h
  rw [List.cons_append, repeats_append_cons (ne_of_isSign hc hd), repeats_append_left hds hc]

theorem head?_append_cons (h : d ≠ c) :
    (xs ++ d :: ys).head? = some c ↔ xs.head? = some c := by
  cases xs <;> simp [h]

end Text

/-! ## 2. Numbers -/

namespace Number

open Text
open Binary64 (magnitude isNegative infinity signedUnits)

variable {c : Char} {cs : List Char}

theorem not_repeats_digits (hc : IsSign c) (hcs : ∀ d ∈ cs, d.isDigit) : ¬Repeats c cs := fun h =>
  not_isSign_of_isDigit (hcs c h.mem) hc

/-- The sign of an exponent stands between an `e` and a digit. -/
theorem not_repeats_exponentText (hc : IsSign c) (e : Int) : ¬Repeats c (exponentText e) := by
  have hdigit : ∀ d ∈ Decimal.digitsOf e.natAbs, d.isDigit := fun d => isDigit_of_mem_digitsOf
  rw [exponentText, repeats_cons (ne_of_isSign hc (by decide)), ← List.singleton_append,
    repeats_append]
  rintro (h | h | ⟨-, h⟩)
  · exact not_repeats_singleton _ _ h
  · exact not_repeats_digits hc hdigit h
  · exact not_isSign_of_isDigit (hdigit c (List.mem_of_mem_head? h)) hc

theorem not_repeats_layout (hc : IsSign c) (hcs : ∀ d ∈ cs, d.isDigit) (point : Int) :
    ¬Repeats c (layout cs point) := by
  have hpoint : '.' ≠ c := ne_of_isSign hc (by decide)
  have hzeros : ∀ k, ∀ d ∈ List.replicate k '0', d.isDigit := fun k d =>
    isDigit_of_mem_replicate
  have hexponent := not_repeats_exponentText hc (point - 1)
  unfold layout
  split
  · refine not_repeats_digits hc fun d hd => ?_
    exact (List.mem_append.1 hd).elim (hcs d) (hzeros _ d)
  · split
    · rw [repeats_append_cons hpoint, not_or]
      exact ⟨not_repeats_digits hc fun d hd => hcs d (List.mem_of_mem_take hd),
        not_repeats_digits hc fun d hd => hcs d (List.mem_of_mem_drop hd)⟩
    · split
      · rw [repeats_cons (ne_of_isSign hc (by decide)), repeats_cons hpoint]
        refine not_repeats_digits hc fun d hd => ?_
        exact (List.mem_append.1 hd).elim (hzeros _ d) (hcs d)
      · split
        · exact not_repeats_nil c
        · rename_i digit
          rwa [repeats_cons (ne_of_isSign hc (not_isSign_of_isDigit (hcs _ (by simp))))]
        · rename_i digit more _
          rw [repeats_cons (ne_of_isSign hc (not_isSign_of_isDigit (hcs _ (by simp)))),
            repeats_cons hpoint, exponentText, repeats_append_cons (ne_of_isSign hc (by decide)),
            not_or]
          refine ⟨not_repeats_digits hc fun d hd => hcs d (List.mem_cons_of_mem _ hd), ?_⟩
          rwa [exponentText, repeats_cons (ne_of_isSign hc (by decide))] at hexponent

theorem not_repeats_magnitudeText (hc : IsSign c) (m : Nat) : ¬Repeats c (magnitudeText m) := by
  unfold magnitudeText
  split
  · exact not_repeats_singleton _ _
  · split
    · have hmem : ∀ d ∈ "Infinity".toList, ¬IsSign d := by simp [IsSign]
      exact fun h => hmem c h.mem hc
    · generalize Decimal.shortest m = d
      exact not_repeats_layout hc (fun _ => isDigit_of_mem_digitsOf) _

theorem exists_magnitudeText {m : Nat} (hm : m < infinity) :
    ∃ d ds, magnitudeText m = d :: ds ∧ d.isDigit := by
  obtain ⟨d, ds, heq, hdigit, -⟩ := (plain_magnitudeText hm).head
  exact ⟨d, ds, heq, hdigit⟩

/-- The numbers below zero are those with a sign that is written. -/
theorem lt_zero_iff {x : Float} (hx : x.isFinite) :
    x < 0 ↔ (isNegative x && magnitude x != 0) = true := by
  have hzero : signedUnits 0 = 0 := by decide +kernel
  have hfinite : (0 : Float).isFinite = true := by decide +kernel
  rw [Binary64.lt_iff hx hfinite, hzero, signedUnits]
  by_cases h0 : magnitude x = 0
  · rw [h0]
    simp
  · have hpos := Binary64.units_pos (Nat.pos_of_ne_zero h0)
    cases isNegative x with
    | true => simpa [h0] using hpos
    | false => simp

theorem head?_text_iff {x : Float} (hx : x.isFinite) (hc : IsSign c) :
    (text x).toList.head? = some c ↔ c = '-' ∧ x < 0 := by
  obtain ⟨d, ds, heq, hdigit⟩ := exists_magnitudeText (Binary64.magnitude_lt_infinity hx)
  rw [toList_text (Binary64.isNaN_of_isFinite hx), heq, lt_zero_iff hx]
  cases isNegative x && magnitude x != 0 with
  | true => simp [eq_comm]
  | false => simpa using ne_of_isSign hc (not_isSign_of_isDigit hdigit)

theorem not_repeats_text {x : Float} (hx : x.isFinite) (hc : IsSign c) :
    ¬Repeats c (text x).toList := by
  obtain ⟨d, ds, heq, hdigit⟩ := exists_magnitudeText (Binary64.magnitude_lt_infinity hx)
  have hne : d ≠ c := ne_of_isSign hc (not_isSign_of_isDigit hdigit)
  have hmagnitude := not_repeats_magnitudeText hc (magnitude x)
  rw [toList_text (Binary64.isNaN_of_isFinite hx)]
  rw [heq] at hmagnitude ⊢
  split
  · rw [repeats_append]
    rintro (h | h | ⟨-, h⟩)
    · exact not_repeats_singleton _ _ h
    · exact hmagnitude h
    · exact hne (Option.some.inj h)
  · exact hmagnitude

end Number

/-! ## 3. Literals -/

namespace Literal

open Text

variable {c d : Char}

/-- Only characters that are no signs are escaped, by two characters that are none. -/
theorem spellChar_eq_or (d : Char) :
    spellChar d = [d] ∨ ∃ e, spellChar d = ['\\', e] ∧ ¬IsSign d ∧ ¬IsSign e := by
  unfold spellChar
  split
  · exact .inr ⟨_, rfl, by decide, by decide⟩
  · exact .inr ⟨_, rfl, by decide, by decide⟩
  · exact .inr ⟨_, rfl, by decide, by decide⟩
  · exact .inl rfl

theorem head?_flatMap_spellChar (hc : IsSign c) (cs : List Char) :
    (cs.flatMap spellChar).head? = some c ↔ cs.head? = some c := by
  cases cs with
  | nil => rfl
  | cons d ds =>
    rcases spellChar_eq_or d with h | ⟨e, h, hd, -⟩
    · simp [h]
    · simp [h, ne_of_isSign hc hd, ne_of_isSign hc (show ¬IsSign '\\' by decide)]

theorem repeats_flatMap_spellChar (hc : IsSign c) (cs : List Char) :
    Repeats c (cs.flatMap spellChar) ↔ Repeats c cs := by
  induction cs with
  | nil => rfl
  | cons d ds ih =>
    rcases spellChar_eq_or d with h | ⟨e, h, hd, he⟩
    · rw [List.flatMap_cons, h, repeats_append, ih, head?_flatMap_spellChar hc,
        ← List.singleton_append (l := ds), repeats_append]
    · rw [List.flatMap_cons, h, List.cons_append, List.cons_append, List.nil_append,
        repeats_cons (ne_of_isSign hc (by decide)), repeats_cons (ne_of_isSign hc he), ih,
        repeats_cons (ne_of_isSign hc hd)]

end Literal

namespace Value

open Text

variable {v : Value} {l : Literal} {c : Char}

/-- Of the literals of values those of the negative numbers begin with a sign. -/
theorem head?_print_iff (h : v.toLiteral? = some l) (hc : IsSign c) :
    l.print.head? = some c ↔ c = '-' ∧ ∃ x, v = .number x ∧ x < 0 := by
  cases v with
  | boolean b =>
    cases h
    have hhead : ¬(Literal.boolean b).print.head? = some c := by
      rcases hc with rfl | rfl <;> cases b <;> decide
    simp [hhead]
  | number x =>
    by_cases hx : x.isFinite
    · rw [toLiteral?, if_pos hx] at h
      cases h
      simpa [Literal.print] using Number.head?_text_iff hx hc
    · rw [toLiteral?, if_neg hx] at h
      cases h
  | string s =>
    cases h
    simp [Literal.print, ne_of_isSign hc (show ¬IsSign '"' by decide)]

/-- Of the literals of values those of strings may have two signs in a row. -/
theorem repeats_print_iff (h : v.toLiteral? = some l) (hc : IsSign c) :
    Repeats c l.print ↔ ∃ s, v = .string s ∧ Repeats c s.toList := by
  cases v with
  | boolean b =>
    cases h
    have hnot : ¬Repeats c (Literal.boolean b).print := by
      rcases hc with rfl | rfl <;> cases b <;> decide
    simp [hnot]
  | number x =>
    by_cases hx : x.isFinite
    · rw [toLiteral?, if_pos hx] at h
      cases h
      simpa [Literal.print] using Number.not_repeats_text hx hc
    · rw [toLiteral?, if_neg hx] at h
      cases h
  | string s =>
    cases h
    have hquote : '"' ≠ c := ne_of_isSign hc (by decide)
    rw [Literal.print, repeats_cons hquote, repeats_append_cons hquote,
      Literal.repeats_flatMap_spellChar hc]
    simp [not_repeats_nil]

end Value

end ScriptReduce
