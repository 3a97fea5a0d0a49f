/-
ScriptReduce.Proofs.Text.Pieces: the text of an expression, taken apart.

The text of an expression is made of words, quoted strings, operators, commas and groups
in parentheses, with pieces of the same kinds inside them. The first character of a piece
tells its kind, and from there on it can be read off where the piece ends: a quoted string
at the first quote that is not escaped, an operator at the next space, a word before the
first character that no word has, and a group at the parenthesis that closes it. So two
lists of pieces with the same text are the same (`spellAll_injective`), if they are
`Legible`: words are made of the characters of words and never stand side by side.
-/
import ScriptReduce.Tree.Print

namespace ScriptReduce

/-! ## 1. Spelling -/

/-- What the texts of expressions are made of. -/
inductive Piece where
  | word (text : List Char)
  | quoted (text : String)
  | sign (operator : UnaryOperator)
  | operator (operator : BinaryOperator)
  | comma
  | group (pieces : List Piece)

namespace Piece

mutual

/-- The text of a piece. -/
def spell : Piece → List Char
  | .word w => w
  | .quoted s => (Literal.string s).print
  | .sign op => op.text.toList
  | .operator op => ' ' :: (op.text.toList ++ [' '])
  | .comma => [',', ' ']
  | .group ps => '(' :: (spellAll ps ++ [')'])

def spellAll : List Piece → List Char
  | [] => []
  | p :: ps => spell p ++ spellAll ps

end

@[simp] theorem spellAll_nil : spellAll [] = [] := rfl

@[simp] theorem spellAll_cons (p : Piece) (ps : List Piece) :
    spellAll (p :: ps) = p.spell ++ spellAll ps := rfl

@[simp] theorem spellAll_append (ps qs : List Piece) :
    spellAll (ps ++ qs) = spellAll ps ++ spellAll qs := by
  induction ps with
  | nil => rfl
  | cons p ps ih => simp [ih]

/-- The characters that words are made of. -/
def isWordChar (c : Char) : Bool :=
  c.isAlphanum || 128 ≤ c.toNat || c == '_' || c == '$' || c == '.' || c == '+' || c == '-'

/-- Whether a piece can stand behind a word. -/
def endsWord : Piece → Bool
  | .operator _ | .comma | .group _ => true
  | _ => false

def isOperator : Piece → Bool
  | .operator _ => true
  | _ => false

def isComma : Piece → Bool
  | .comma => true
  | _ => false

/-- The lists of pieces whose text can be taken apart again. -/
inductive Legible : List Piece → Prop
  | nil : Legible []
  | word {c : Char} {cs : List Char} {ps : List Piece} (chars : ∀ d ∈ c :: cs, isWordChar d)
    (plus : c ≠ '+') (minus : c ≠ '-') (behind : ∀ p ∈ ps.head?, p.endsWord)
    (rest : Legible ps) : Legible (.word (c :: cs) :: ps)
  | quoted (s : String) {ps : List Piece} (rest : Legible ps) : Legible (.quoted s :: ps)
  | sign (op : UnaryOperator) {ps : List Piece} (rest : Legible ps) : Legible (.sign op :: ps)
  | operator (op : BinaryOperator) {ps : List Piece} (rest : Legible ps) :
    Legible (.operator op :: ps)
  | comma {ps : List Piece} (rest : Legible ps) : Legible (.comma :: ps)
  | group {inner ps : List Piece} (inside : Legible inner) (rest : Legible ps) :
    Legible (.group inner :: ps)

/-! ## 2. First characters -/

/-- The kinds of pieces, and the end of a group. -/
inductive Kind where
  | word
  | quoted
  | sign
  | operator
  | comma
  | group
  | close
deriving DecidableEq

/-- The kind of what begins with a character. -/
def Kind.ofChar (c : Char) : Kind :=
  if c = '"' then .quoted
  else if c = '!' ∨ c = '-' ∨ c = '+' ∨ c = '~' then .sign
  else if c = ' ' then .operator
  else if c = ',' then .comma
  else if c = '(' then .group
  else if c = ')' then .close
  else .word

def kind : Piece → Kind
  | .word _ => .word
  | .quoted _ => .quoted
  | .sign _ => .sign
  | .operator _ => .operator
  | .comma => .comma
  | .group _ => .group

theorem kind_ofChar_eq_word {c : Char} (h : isWordChar c) (plus : c ≠ '+') (minus : c ≠ '-') :
    Kind.ofChar c = .word := by
  have hne : ∀ d ∈ ['"', '!', '~', ' ', ',', '(', ')'], c ≠ d := by
    intro d hd heq
    subst heq
    revert hd h
    simp only [List.mem_cons, List.not_mem_nil, or_false]
    rintro h (rfl | rfl | rfl | rfl | rfl | rfl | rfl) <;> revert h <;> decide
  simp only [List.forall_mem_cons] at hne
  simp [Kind.ofChar, hne, plus, minus]

theorem Legible.kind_eq {p : Piece} {ps : List Piece} (h : Legible (p :: ps)) :
    ∃ c cs, p.spell = c :: cs ∧ Kind.ofChar c = p.kind := by
  cases h with
  | @word c cs _ chars plus minus =>
    exact ⟨c, cs, rfl, kind_ofChar_eq_word (chars c List.mem_cons_self) plus minus⟩
  | quoted s => exact ⟨_, _, rfl, rfl⟩
  | sign op => cases op <;> exact ⟨_, _, rfl, rfl⟩
  | operator op => exact ⟨_, _, rfl, rfl⟩
  | comma => exact ⟨_, _, rfl, rfl⟩
  | group => exact ⟨_, _, rfl, rfl⟩

/-- Nothing is left, or a group ends. -/
def Stops (r : List Char) : Prop := r = [] ∨ ∃ cs, r = ')' :: cs

theorem Legible.not_stops {p : Piece} {ps : List Piece} (h : Legible (p :: ps)) (r : List Char) :
    ¬Stops (spellAll (p :: ps) ++ r) := by
  obtain ⟨c, cs, hspell, hkind⟩ := h.kind_eq
  rintro (hnil | ⟨ds, hcons⟩)
  · simp [hspell] at hnil
  · have hc : c = ')' := by
      simp only [spellAll_cons, hspell, List.cons_append, List.cons.injEq] at hcons
      exact hcons.1
    rw [hc] at hkind
    cases p <;> cases hkind

/-- The same text begins with a piece of the same kind. -/
theorem Legible.exists_cons {p : Piece} {ps qs : List Piece} {r r' : List Char}
    (h : Legible (p :: ps)) (h' : Legible qs) (hstop : Stops r')
    (heq : spellAll (p :: ps) ++ r = spellAll qs ++ r') :
    ∃ q qs', qs = q :: qs' ∧ q.kind = p.kind := by
  cases qs with
  | nil => exact absurd (heq ▸ hstop) (h.not_stops r)
  | cons q qs =>
    obtain ⟨c, cs, hspell, hkind⟩ := h.kind_eq
    obtain ⟨d, ds, hspell', hkind'⟩ := h'.kind_eq
    simp only [spellAll_cons, hspell, hspell', List.cons_append, List.cons.injEq] at heq
    exact ⟨q, qs, rfl, by rw [← hkind', ← hkind, heq.1]⟩

/-! ## 3. Where a piece ends -/

theorem sign_cancel {op op' : UnaryOperator} {r r' : List Char}
    (h : op.text.toList ++ r = op'.text.toList ++ r') : op = op' ∧ r = r' := by
  cases op <;> cases op' <;> simp [UnaryOperator.text] at h <;> exact ⟨rfl, h⟩

theorem ofText?_text (op : BinaryOperator) : BinaryOperator.ofText? op.text = some op := by
  cases op <;> decide

theorem binary_text_injective {op op' : BinaryOperator} (h : op.text = op'.text) : op = op' := by
  have heq : some op = some op' := by rw [← ofText?_text, ← ofText?_text, h]
  exact Option.some.inj heq

/-- What all elements have in common ends at the first one that does not have it. -/
theorem prefix_cancel {α : Type} {P : α → Bool} {w w' r r' : List α} (hw : ∀ c ∈ w, P c)
    (hw' : ∀ c ∈ w', P c) (hr : ∀ c ∈ r.head?, P c = false) (hr' : ∀ c ∈ r'.head?, P c = false)
    (h : w ++ r = w' ++ r') : w = w' ∧ r = r' := by
  have htake : ∀ {w r : List α}, (∀ c ∈ w, P c) → (∀ c ∈ r.head?, P c = false) →
      (w ++ r).takeWhile P = w := by
    intro w r hw hr
    rw [List.takeWhile_append_of_pos hw]
    cases r with
    | nil => simp
    | cons c cs => simp [hr c rfl]
  have heq : w = w' := by rw [← htake hw hr, ← htake hw' hr', h]
  subst heq
  exact ⟨rfl, List.append_cancel_left h⟩

theorem operator_cancel {op op' : BinaryOperator} {r r' : List Char}
    (h : op.text.toList ++ ' ' :: r = op'.text.toList ++ ' ' :: r') : op = op' ∧ r = r' := by
  have hspace : ∀ op : BinaryOperator, op.text.toList.all (· != ' ') = true := by
    intro op
    cases op <;> rfl
  obtain ⟨htext, hrest⟩ := prefix_cancel (List.all_eq_true.1 (hspace op))
    (List.all_eq_true.1 (hspace op')) (by simp) (by simp) h
  exact ⟨binary_text_injective (String.toList_inj.1 htext), (List.cons.inj hrest).2⟩

/-- No escaped character begins like another, or with a quote. -/
theorem spellChar_cases (c : Char) :
    Literal.spellChar c = ['\\', '"'] ∧ c = '"' ∨ Literal.spellChar c = ['\\', '\\'] ∧ c = '\\' ∨
      Literal.spellChar c = ['\\', 'n'] ∧ c = '\n' ∨
      Literal.spellChar c = [c] ∧ c ≠ '"' ∧ c ≠ '\\' := by
  unfold Literal.spellChar
  split <;> simp_all

theorem spellChar_cancel {c d : Char} {r r' : List Char}
    (h : Literal.spellChar c ++ r = Literal.spellChar d ++ r') : c = d ∧ r = r' := by
  rcases spellChar_cases c with ⟨hc, rfl⟩ | ⟨hc, rfl⟩ | ⟨hc, rfl⟩ | ⟨hc, hquote, hslash⟩ <;>
    rcases spellChar_cases d with ⟨hd, rfl⟩ | ⟨hd, rfl⟩ | ⟨hd, rfl⟩ | ⟨hd, hquote', hslash'⟩ <;>
    simp only [hc, hd, List.cons_append, List.nil_append] at h <;> grind

theorem quoted_cancel {s s' : List Char} {r r' : List Char}
    (h : s.flatMap Literal.spellChar ++ '"' :: r = s'.flatMap Literal.spellChar ++ '"' :: r') :
    s = s' ∧ r = r' := by
  induction s generalizing s' with
  | nil =>
    cases s' with
    | nil => exact ⟨rfl, (List.cons.inj h).2⟩
    | cons c s' =>
      rcases spellChar_cases c with ⟨hc, -⟩ | ⟨hc, -⟩ | ⟨hc, -⟩ | ⟨hc, hne, -⟩ <;>
        simp [hc] at h
      exact absurd h.1.symm hne
  | cons c s ih =>
    cases s' with
    | nil =>
      rcases spellChar_cases c with ⟨hc, -⟩ | ⟨hc, -⟩ | ⟨hc, -⟩ | ⟨hc, hne, -⟩ <;>
        simp [hc] at h
      exact absurd h.1 hne
    | cons d s' =>
      simp only [List.flatMap_cons, List.append_assoc] at h
      obtain ⟨rfl, htail⟩ := spellChar_cancel h
      obtain ⟨rfl, hrest⟩ := ih htail
      exact ⟨rfl, hrest⟩

/-- What follows a word does not go on with it. -/
theorem Legible.ends {ps : List Piece} {r : List Char} (h : Legible ps)
    (behind : ∀ p ∈ ps.head?, p.endsWord) (hstop : Stops r) :
    ∀ c ∈ (spellAll ps ++ r).head?, isWordChar c = false := by
  intro c hc
  cases h with
  | nil =>
    rcases hstop with rfl | ⟨cs, rfl⟩
    · cases hc
    · cases hc
      decide
  | operator op | comma | group =>
    cases hc
    decide
  | word | quoted | sign => exact absurd (behind _ rfl) (by simp [endsWord])

/-! ## 4. Reading -/

/-- Pieces with the same text are the same, and so is what is behind them, if nothing is or
a group ends there. -/
theorem spellAll_cancel {ps qs : List Piece} {r r' : List Char} (hps : Legible ps)
    (hqs : Legible qs) (hr : Stops r) (hr' : Stops r')
    (h : spellAll ps ++ r = spellAll qs ++ r') : ps = qs ∧ r = r' := by
  induction hps generalizing qs r r' with
  | nil =>
    cases qs with
    | nil => exact ⟨rfl, h⟩
    | cons q qs => exact absurd (h ▸ hr) (hqs.not_stops r')
  | @word c cs ps chars plus minus behind rest ih =>
    obtain ⟨q, qs, rfl, hkind⟩ :=
      (Legible.word chars plus minus behind rest).exists_cons hqs hr' h
    cases hqs with
    | word chars' _ _ behind' rest' =>
      simp only [spellAll_cons, spell, List.append_assoc] at h
      obtain ⟨hword, htail⟩ := prefix_cancel chars chars' (rest.ends behind hr)
        (rest'.ends behind' hr') h
      obtain ⟨rfl, hrest⟩ := ih rest' hr hr' htail
      exact ⟨by rw [hword], hrest⟩
    | _ => cases hkind
  | quoted s rest ih =>
    obtain ⟨q, qs, rfl, hkind⟩ := (Legible.quoted s rest).exists_cons hqs hr' h
    cases hqs with
    | quoted s' rest' =>
      simp only [spellAll_cons, spell, Literal.print, List.append_assoc, List.cons_append,
        List.nil_append, List.cons.injEq, true_and] at h
      obtain ⟨htext, htail⟩ := quoted_cancel h
      obtain ⟨rfl, hrest⟩ := ih rest' hr hr' htail
      exact ⟨by rw [String.toList_inj.1 htext], hrest⟩
    | _ => cases hkind
  | sign op rest ih =>
    obtain ⟨q, qs, rfl, hkind⟩ := (Legible.sign op rest).exists_cons hqs hr' h
    cases hqs with
    | sign op' rest' =>
      simp only [spellAll_cons, spell, List.append_assoc] at h
      obtain ⟨rfl, htail⟩ := sign_cancel h
      obtain ⟨rfl, hrest⟩ := ih rest' hr hr' htail
      exact ⟨rfl, hrest⟩
    | _ => cases hkind
  | operator op rest ih =>
    obtain ⟨q, qs, rfl, hkind⟩ := (Legible.operator op rest).exists_cons hqs hr' h
    cases hqs with
    | operator op' rest' =>
      simp only [spellAll_cons, spell, List.append_assoc, List.cons_append, List.nil_append,
        List.cons.injEq, true_and] at h
      obtain ⟨rfl, htail⟩ := operator_cancel h
      obtain ⟨rfl, hrest⟩ := ih rest' hr hr' htail
      exact ⟨rfl, hrest⟩
    | _ => cases hkind
  | comma rest ih =>
    obtain ⟨q, qs, rfl, hkind⟩ := (Legible.comma rest).exists_cons hqs hr' h
    cases hqs with
    | comma rest' =>
      simp only [spellAll_cons, spell, List.cons_append, List.nil_append, List.cons.injEq,
        true_and] at h
      obtain ⟨rfl, hrest⟩ := ih rest' hr hr' h
      exact ⟨rfl, hrest⟩
    | _ => cases hkind
  | group inside rest ihInside ihRest =>
    obtain ⟨q, qs, rfl, hkind⟩ := (Legible.group inside rest).exists_cons hqs hr' h
    cases hqs with
    | group inside' rest' =>
      simp only [spellAll_cons, spell, List.append_assoc, List.cons_append, List.nil_append,
        List.cons.injEq, true_and] at h
      obtain ⟨rfl, htail⟩ := ihInside inside' (.inr ⟨_, rfl⟩) (.inr ⟨_, rfl⟩) h
      obtain ⟨rfl, hrest⟩ := ihRest rest' hr hr' (List.cons.inj htail).2
      exact ⟨rfl, hrest⟩
    | _ => cases hkind

theorem spellAll_injective {ps qs : List Piece} (hps : Legible ps) (hqs : Legible qs)
    (h : spellAll ps = spellAll qs) : ps = qs := by
  have happend : spellAll ps ++ [] = spellAll qs ++ [] := by rw [h]
  exact (spellAll_cancel hps hqs (.inl rfl) (.inl rfl) happend).1

end Piece

end ScriptReduce
