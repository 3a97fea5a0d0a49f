/-
ScriptReduce.Proofs.Tree.Readable: printed expressions are uniquely readable.

The text of an expression is that of a list of pieces (`print_eq_spellAll`), with operands
that are binary expressions and argument lists in groups of their own, so the pieces can be
read back from the text. An expression whose callees are identifiers and calls can be read
back from its pieces. It is a binary expression if there is an operator among them, outside
all groups, and it has no more than one there; if not, the first piece and the number of
pieces tell what it is (`formOf_pieces`). A call ends with its argument list, and what is
before that is its callee; arguments end at commas. So two such expressions with the same
text are the same, whatever the labels of their nodes are (`printNode_injective`).
-/
import ScriptReduce.Proofs.Text.Pieces
import ScriptReduce.Proofs.Tree.Term

namespace ScriptReduce

/-! ## 1. Expressions -/

/-- Letters are the ASCII ones and all characters that are not ASCII. -/
def isLetter (c : Char) : Bool := c.isAlpha || 128 ≤ c.toNat

/-- The texts of identifiers: letters, digits, `_` and `$`, with no digit in front. -/
def isName (name : String) : Bool :=
  name.toList.head?.any (fun c => !c.isDigit) && name != "true" && name != "false" &&
    name.toList.all fun c => isLetter c || c.isDigit || c == '_' || c == '$'

/-- The texts of numeric literals: letters, digits, `_`, `.`, `+` and `-`, with a digit or a
point in front. -/
def isNumber (text : String) : Bool :=
  text.toList.head?.any (fun c => c.isDigit || c == '.') &&
    text.toList.all fun c =>
      isLetter c || c.isDigit || c == '_' || c == '.' || c == '+' || c == '-'

namespace Term

variable {ι : Type}

/-- The expressions whose callees all satisfy a condition. -/
inductive Expression (callable : Term ι → Prop) : Term ι → Prop
  | boolean (n : ι) (b : Bool) : Expression callable (.mk n (.literal (.boolean b)))
  | numeric (n : ι) {text : String} (ordinary : isNumber text) :
    Expression callable (.mk n (.literal (.numeric text)))
  | string (n : ι) (text : String) : Expression callable (.mk n (.literal (.string text)))
  | identifier (n : ι) {name : String} (ordinary : isName name) :
    Expression callable (.mk n (.identifier name))
  | unary (n : ι) (op : UnaryOperator) {a : Term ι} (operand : Expression callable a) :
    Expression callable (.mk n (.unary op a))
  | binary (n : ι) (op : BinaryOperator) {a b : Term ι} (left : Expression callable a)
    (right : Expression callable b) : Expression callable (.mk n (.binary a op b))
  | call (n : ι) {f : Term ι} {as : List (Term ι)} (can : callable f)
    (callee : Expression callable f) (arguments : ∀ a ∈ as, Expression callable a) :
    Expression callable (.mk n (.call f as))

/-! ## 2. Pieces -/

/-- The pieces of an operand, which are a group if it is a binary expression. -/
def enclose (a : Term ι) (ps : List Piece) : List Piece := if a.isBinary then [.group ps] else ps

mutual

/-- The pieces of an expression. -/
def pieces : Term ι → List Piece
  | .mk _ (.literal (.string s)) => [.quoted s]
  | .mk _ (.literal (.boolean b)) => [.word (Literal.boolean b).print]
  | .mk _ (.literal (.numeric text)) => [.word text.toList]
  | .mk _ (.identifier name) => [.word name.toList]
  | .mk _ (.unary op a) => .sign op :: enclose a (pieces a)
  | .mk _ (.binary a op b) => enclose a (pieces a) ++ .operator op :: enclose b (pieces b)
  | .mk _ (.call f as) => pieces f ++ [.group (argumentPieces as)]
  | _ => []

/-- The pieces of arguments, with commas between them. -/
def argumentPieces : List (Term ι) → List Piece
  | [] => []
  | [a] => pieces a
  | a :: b :: as => pieces a ++ .comma :: argumentPieces (b :: as)

end

section

variable {κ : Type} {callable : Term ι → Prop} {callable' : Term κ → Prop} {x : Term ι}
  {y : Term κ}

theorem operand_eq_spellAll {a : Term ι} {text : List Char → List Char}
    (h : ∀ rest, text rest = Piece.spellAll a.pieces ++ rest) (rest : List Char) :
    operand a text rest = Piece.spellAll (a.enclose a.pieces) ++ rest := by
  unfold operand enclose
  split
  · rw [h]
    simp [Piece.spell]
  · exact h rest

theorem printSeparated_eq_spellAll (level : Nat) {as : List (Term ι)}
    (h : ∀ a ∈ as, ∀ rest, a.print level rest = Piece.spellAll a.pieces ++ rest)
    (rest : List Char) :
    printSeparated level as rest = Piece.spellAll (argumentPieces as) ++ rest := by
  induction as with
  | nil => rfl
  | cons a as ih =>
    cases as with
    | nil => exact h a List.mem_cons_self rest
    | cons b as =>
      have hmore := ih fun c hc => h c (List.mem_cons_of_mem a hc)
      rw [printSeparated, h a List.mem_cons_self, hmore]
      simp [argumentPieces, Piece.spell]

/-- The text of an expression is the text of its pieces. -/
theorem Expression.print_eq_spellAll (hx : Expression callable x) (level : Nat)
    (rest : List Char) : x.print level rest = Piece.spellAll x.pieces ++ rest := by
  induction hx generalizing rest with
  | boolean n b => simp [print, pieces, Piece.spell]
  | numeric n ordinary => simp [print, pieces, Piece.spell, Literal.print]
  | string n text => simp [print, pieces, Piece.spell]
  | identifier n ordinary => simp [print, pieces, Piece.spell]
  | unary n op _ ih =>
    rw [print, operand_eq_spellAll ih]
    simp [pieces, Piece.spell]
  | binary n op _ _ iha ihb =>
    rw [print, operand_eq_spellAll iha, operand_eq_spellAll ihb]
    simp [pieces, Piece.spell]
  | call n can _ _ ihf ihas =>
    rw [print, ihf, printSeparated_eq_spellAll level ihas]
    simp [pieces, Piece.spell]

/-! ## 3. Legible pieces -/

theorem isWordChar_of_isLetter {c : Char} (h : isLetter c) : Piece.isWordChar c := by
  simp only [isLetter, Piece.isWordChar, Char.isAlphanum, Bool.or_eq_true] at h ⊢
  grind

theorem isWordChar_of_isDigit {c : Char} (h : c.isDigit) : Piece.isWordChar c := by
  simp [Piece.isWordChar, Char.isAlphanum, h]

theorem legible_name {name : String} (h : isName name) {ps : List Piece}
    (behind : ∀ p ∈ ps.head?, p.endsWord) (rest : Piece.Legible ps) :
    Piece.Legible (.word name.toList :: ps) := by
  simp only [isName, Bool.and_eq_true, List.all_eq_true] at h
  obtain ⟨⟨⟨hhead, -⟩, -⟩, hall⟩ := h
  cases hname : name.toList with
  | nil => simp [hname] at hhead
  | cons c cs =>
    rw [hname] at hall
    refine .word (fun d hd => ?_) ?_ ?_ behind rest
    · have := hall d hd
      simp only [Bool.or_eq_true, beq_iff_eq] at this
      rcases this with ((hletter | hdigit) | rfl) | rfl
      · exact isWordChar_of_isLetter hletter
      · exact isWordChar_of_isDigit hdigit
      · decide
      · decide
    · rintro rfl
      exact absurd (hall _ List.mem_cons_self) (by decide)
    · rintro rfl
      exact absurd (hall _ List.mem_cons_self) (by decide)

theorem legible_number {text : String} (h : isNumber text) {ps : List Piece}
    (behind : ∀ p ∈ ps.head?, p.endsWord) (rest : Piece.Legible ps) :
    Piece.Legible (.word text.toList :: ps) := by
  simp only [isNumber, Bool.and_eq_true, List.all_eq_true] at h
  obtain ⟨hhead, hall⟩ := h
  cases htext : text.toList with
  | nil => simp [htext] at hhead
  | cons c cs =>
    rw [htext] at hall hhead
    have hhead : (c.isDigit || c == '.') = true := hhead
    refine .word (fun d hd => ?_) ?_ ?_ behind rest
    · have := hall d hd
      simp only [Bool.or_eq_true, beq_iff_eq] at this
      rcases this with ((((hletter | hdigit) | rfl) | rfl) | rfl) | rfl
      · exact isWordChar_of_isLetter hletter
      · exact isWordChar_of_isDigit hdigit
      · decide
      · decide
      · decide
      · decide
    · rintro rfl
      exact absurd hhead (by decide)
    · rintro rfl
      exact absurd hhead (by decide)

theorem legible_enclose {a : Term ι} {ps : List Piece}
    (h : ∀ {ps}, (∀ p ∈ ps.head?, p.endsWord) → Piece.Legible ps → Piece.Legible (a.pieces ++ ps))
    (behind : ∀ p ∈ ps.head?, p.endsWord) (rest : Piece.Legible ps) :
    Piece.Legible (a.enclose a.pieces ++ ps) := by
  unfold enclose
  split
  · have hinside : Piece.Legible (a.pieces ++ []) := h (by simp) .nil
    rw [List.append_nil] at hinside
    exact .group hinside rest
  · exact h behind rest

theorem legible_argumentPieces {as : List (Term ι)}
    (h : ∀ a ∈ as, ∀ {ps}, (∀ p ∈ ps.head?, p.endsWord) → Piece.Legible ps →
      Piece.Legible (a.pieces ++ ps)) :
    Piece.Legible (argumentPieces as) := by
  induction as with
  | nil => exact .nil
  | cons a as ih =>
    cases as with
    | nil =>
      have ha : Piece.Legible (a.pieces ++ []) := h a List.mem_cons_self (by simp) .nil
      rwa [List.append_nil] at ha
    | cons b as =>
      exact h a List.mem_cons_self (by simp [Piece.endsWord])
        (.comma (ih fun c hc => h c (List.mem_cons_of_mem a hc)))

/-- The pieces of an expression are legible, also in front of others that end a word. -/
theorem Expression.legible_append (hx : Expression callable x) {ps : List Piece}
    (behind : ∀ p ∈ ps.head?, p.endsWord) (rest : Piece.Legible ps) :
    Piece.Legible (x.pieces ++ ps) := by
  induction hx generalizing ps with
  | boolean n b =>
    cases b <;>
      exact .word (List.all_eq_true.1 rfl) (by decide) (by decide) behind rest
  | numeric n ordinary => exact legible_number ordinary behind rest
  | string n text => exact .quoted text rest
  | identifier n ordinary => exact legible_name ordinary behind rest
  | unary n op _ ih => exact .sign op (legible_enclose ih behind rest)
  | binary n op _ _ iha ihb =>
    simp only [pieces, List.append_assoc, List.cons_append]
    exact legible_enclose iha (by simp [Piece.endsWord])
      (.operator op (legible_enclose ihb behind rest))
  | call n can _ _ ihf ihas =>
    simp only [pieces, List.append_assoc, List.cons_append, List.nil_append]
    exact ihf (by simp [Piece.endsWord]) (.group (legible_argumentPieces ihas) rest)

theorem Expression.legible (hx : Expression callable x) : Piece.Legible x.pieces := by
  have h : Piece.Legible (x.pieces ++ []) := hx.legible_append (by simp) .nil
  rwa [List.append_nil] at h

/-- The text of an expression is as good as its pieces. -/
theorem Expression.text_eq_iff
    (hx : Expression callable x) (hy : Expression callable' y) :
    x.text = y.text ↔ x.pieces = y.pieces := by
  have htext : x.text = y.text ↔ Piece.spellAll x.pieces = Piece.spellAll y.pieces := by
    rw [text, text, hx.print_eq_spellAll, hy.print_eq_spellAll, List.append_nil, List.append_nil]
  rw [htext]
  exact ⟨Piece.spellAll_injective hx.legible hy.legible, fun h => by rw [h]⟩

/-! ## 4. Reading an expression back -/

/-- Callees are named if they are identifiers and calls. -/
def Named : Term ι → Prop
  | .mk _ (.identifier _) | .mk _ (.call _ _) => True
  | _ => False

/-- What kind of expression a list of pieces is. -/
inductive Form where
  | word
  | quoted
  | unary
  | binary
  | call

def form : Term ι → Form
  | .mk _ (.literal (.string _)) => .quoted
  | .mk _ (.unary _ _) => .unary
  | .mk _ (.binary _ _ _) => .binary
  | .mk _ (.call _ _) => .call
  | _ => .word

def formOf (ps : List Piece) : Form :=
  if ps.any Piece.isOperator then .binary
  else
    match ps with
    | .sign _ :: _ => .unary
    | .quoted _ :: _ => .quoted
    | [_] => .word
    | _ => .call

/-- Operators stand outside groups in binary expressions only. -/
theorem Expression.any_isOperator (hx : Expression Named x) (hb : x.isBinary = false) :
    x.pieces.any Piece.isOperator = false := by
  induction hx with
  | boolean | numeric | string | identifier => rfl
  | @unary n op a _ ih =>
    simp only [pieces, enclose, List.any_cons, Piece.isOperator, Bool.false_or]
    split
    · rfl
    · rename_i ha
      exact ih (by simpa using ha)
  | binary => cases hb
  | @call n f as can _ _ ihf _ =>
    have hf : f.isBinary = false := by
      unfold Named at can
      split at can <;> first | rfl | exact can.elim
    simp [pieces, Piece.isOperator, ihf hf]

theorem Expression.any_isOperator_enclose (hx : Expression Named x) :
    (x.enclose x.pieces).any Piece.isOperator = false := by
  unfold enclose
  split
  · rfl
  · rename_i hb
    exact hx.any_isOperator (by simpa using hb)

/-- An identifier is in front of each call. -/
theorem Expression.exists_word (hx : Expression Named x) (hn : Named x) :
    ∃ w ps, x.pieces = .word w :: ps := by
  induction hx with
  | boolean | numeric | string | unary | binary => exact hn.elim
  | identifier => exact ⟨_, _, rfl⟩
  | call n can _ _ ihf _ =>
    obtain ⟨w, ps, h⟩ := ihf can
    exact ⟨w, _, by rw [pieces, h, List.cons_append]⟩

/-- An expression and its pieces have the same form. -/
theorem formOf_pieces (hx : Expression Named x) : formOf x.pieces = x.form := by
  cases hx with
  | boolean | numeric | string | identifier => rfl
  | unary n op operand =>
    have h := (Expression.unary n op operand).any_isOperator rfl
    simp only [pieces] at h
    simp [formOf, pieces, h, form]
  | binary n op => simp [formOf, pieces, Piece.isOperator, form]
  | call n can callee arguments =>
    have h := (Expression.call n can callee arguments).any_isOperator rfl
    obtain ⟨w, ps, hword⟩ := callee.exists_word can
    simp only [pieces, hword, List.cons_append] at h ⊢
    simp only [formOf, h]
    cases ps <;> rfl

theorem Expression.pieces_ne_nil (hx : Expression callable x) : x.pieces ≠ [] := by
  cases hx <;> simp [pieces]

/-- Commas stand inside groups. -/
theorem Expression.any_isComma (hx : Expression callable x) :
    x.pieces.any Piece.isComma = false := by
  have henclose : ∀ a : Term ι, a.pieces.any Piece.isComma = false →
      (a.enclose a.pieces).any Piece.isComma = false := by
    intro a ha
    unfold enclose
    split
    · rfl
    · exact ha
  induction hx with
  | boolean | numeric | string | identifier => rfl
  | @unary n op a _ ih => simp only [pieces, List.any_cons, henclose a ih]; rfl
  | @binary n op a b _ _ iha ihb =>
    simp only [pieces, List.any_append, List.any_cons, henclose a iha, henclose b ihb]
    rfl
  | call n can _ _ ihf _ => simp [pieces, Piece.isComma, ihf]

/-- A number is not spelled like a name. -/
theorem isName_eq_false {s : String} (h : isNumber s) : isName s = false := by
  refine Bool.eq_false_iff.2 fun hname => ?_
  simp only [isNumber, isName, Bool.and_eq_true] at h hname
  cases hs : s.toList with
  | nil => simp [hs] at h
  | cons c cs =>
    simp only [hs, List.head?_cons, Option.any_some, List.all_cons, Bool.or_eq_true,
      Bool.and_eq_true, Bool.not_eq_true', beq_iff_eq] at h hname
    rcases h.1 with hdigit | rfl
    · exact absurd hdigit (by simp [hname.1.1.1])
    · exact absurd hname.2.1 (by decide)

/-- A term without its labels. -/
def bare (x : Term ι) : Term Unit := x.relabel fun _ => ()

@[simp] theorem bare_mk (n : ι) (s : Shape (Term ι)) : (mk n s).bare = .mk () (s.map bare) :=
  relabel_mk _ n s

/-- What a word is. -/
def ofWord (w : String) : Term Unit :=
  if isName w then .mk () (.identifier w)
  else if isNumber w then .mk () (.literal (.numeric w))
  else .mk () (.literal (.boolean (w == "true")))

theorem Expression.exists_ofWord (hx : Expression callable x) (hform : x.form = .word) :
    ∃ w, x.pieces = [.word w] ∧ x.bare = ofWord (String.ofList w) := by
  cases hx with
  | boolean n b =>
    refine ⟨_, rfl, ?_⟩
    cases b <;> rfl
  | @numeric n text ordinary =>
    refine ⟨_, rfl, ?_⟩
    simp [ofWord, isName_eq_false ordinary, ordinary, Shape.map]
  | @identifier n name ordinary =>
    refine ⟨_, rfl, ?_⟩
    simp [ofWord, ordinary, Shape.map]
  | string | unary | binary | call => cases hform

/-- Operands are read back if expressions are: a group is a binary expression. -/
theorem Expression.bare_eq_of_enclose (hx : Expression Named x)
    (hy : Expression Named y) (ih : x.pieces = y.pieces → x.bare = y.bare)
    (h : x.enclose x.pieces = y.enclose y.pieces) : x.bare = y.bare := by
  -- no other expression begins with a group
  have hgroup : ∀ {ι : Type} {x : Term ι}, Expression Named x → x.isBinary = false →
      ∀ ps, x.pieces ≠ [.group ps] := by
    intro ι x hx hb ps hps
    cases hx with
    | boolean | numeric | string | identifier | unary => cases hps
    | binary => cases hb
    | call n can callee _ =>
      obtain ⟨w, qs, hword⟩ := callee.exists_word can
      simp [pieces, hword] at hps
  unfold enclose at h
  split at h <;> split at h
  · exact ih (by simpa using h)
  · rename_i hb
    exact absurd h.symm (hgroup hy (by simpa using hb) _)
  · rename_i hb _
    exact absurd h (hgroup hx (by simpa using hb) _)
  · exact ih h

/-- The pieces behind the first argument. -/
def laterPieces : List (Term ι) → List Piece
  | [] => []
  | a :: as => .comma :: argumentPieces (a :: as)

theorem argumentPieces_cons (a : Term ι) (as : List (Term ι)) :
    argumentPieces (a :: as) = a.pieces ++ laterPieces as := by
  cases as <;> simp [argumentPieces, laterPieces]

/-- An argument ends at the first comma. -/
theorem Expression.argument_cancel (hx : Expression callable x)
    (hy : Expression callable' y) {as : List (Term ι)} {bs : List (Term κ)}
    (h : argumentPieces (x :: as) = argumentPieces (y :: bs)) :
    x.pieces = y.pieces ∧ laterPieces as = laterPieces bs := by
  have hlater : ∀ {ι : Type} (as : List (Term ι)),
      ∀ p ∈ (laterPieces as).head?, (!p.isComma) = false := by
    intro ι as
    cases as <;> simp [laterPieces, Piece.isComma]
  rw [argumentPieces_cons, argumentPieces_cons] at h
  have hcommas := hx.any_isComma
  have hcommas' := hy.any_isComma
  rw [List.any_eq_false] at hcommas hcommas'
  exact Piece.prefix_cancel (P := fun p => !p.isComma) (by simpa using hcommas)
    (by simpa using hcommas') (hlater as) (hlater bs) h

/-- Arguments are read back if each of them is. -/
theorem bare_eq_of_argumentPieces {as : List (Term ι)} {bs : List (Term κ)}
    (has : ∀ a ∈ as, Expression Named a) (hbs : ∀ b ∈ bs, Expression Named b)
    (ih : ∀ a ∈ as, ∀ b : Term κ, Expression Named b → a.pieces = b.pieces → a.bare = b.bare)
    (h : argumentPieces as = argumentPieces bs) : as.map bare = bs.map bare := by
  induction as generalizing bs with
  | nil =>
    cases bs with
    | nil => rfl
    | cons b bs =>
      have hb := (hbs b List.mem_cons_self).pieces_ne_nil
      simp [argumentPieces_cons, argumentPieces, hb] at h
  | cons a as ihas =>
    cases bs with
    | nil =>
      have ha := (has a List.mem_cons_self).pieces_ne_nil
      simp [argumentPieces_cons, argumentPieces, ha] at h
    | cons b bs =>
      obtain ⟨hfirst, hlater⟩ :=
        (has a List.mem_cons_self).argument_cancel (hbs b List.mem_cons_self) h
      have hrest : argumentPieces as = argumentPieces bs := by
        cases as <;> cases bs <;> simp [laterPieces, argumentPieces] at hlater ⊢
        exact hlater
      simp only [List.map_cons]
      rw [ih a List.mem_cons_self b (hbs b List.mem_cons_self) hfirst,
        ihas (fun c hc => has c (List.mem_cons_of_mem a hc))
          (fun c hc => hbs c (List.mem_cons_of_mem b hc))
          (fun c hc => ih c (List.mem_cons_of_mem a hc)) hrest]

theorem Expression.form_eq (hx : Expression Named x) (hy : Expression Named y)
    (h : x.pieces = y.pieces) : x.form = y.form := by
  rw [← formOf_pieces hx, ← formOf_pieces hy, h]

theorem Expression.bare_eq_of_word (hx : Expression Named x) (hy : Expression Named y)
    (h : x.pieces = y.pieces) (hword : x.form = .word) : x.bare = y.bare := by
  obtain ⟨w, hw, hbare⟩ := hx.exists_ofWord hword
  obtain ⟨w', hw', hbare'⟩ := hy.exists_ofWord (hx.form_eq hy h ▸ hword)
  have heq : w = w' := by simpa [hw, hw'] using h
  rw [hbare, hbare', heq]

/-- An expression is read back from its pieces. -/
theorem Expression.bare_eq (hx : Expression Named x) (hy : Expression Named y)
    (h : x.pieces = y.pieces) : x.bare = y.bare := by
  induction hx generalizing y with
  | boolean n b => exact (Expression.boolean n b).bare_eq_of_word hy h rfl
  | numeric n ordinary => exact (Expression.numeric n ordinary).bare_eq_of_word hy h rfl
  | identifier n ordinary => exact (Expression.identifier n ordinary).bare_eq_of_word hy h rfl
  | string n s =>
    have hform := (Expression.string n s).form_eq hy h
    cases hy with
    | string n' s' =>
      have heq : s = s' := by simpa [pieces] using h
      simp [heq, Shape.map]
    | _ => simp [form] at hform
  | @unary n op a operand ih =>
    have hform := (Expression.unary n op operand).form_eq hy h
    cases hy with
    | @unary n' op' a' operand' =>
      simp only [pieces, List.cons.injEq, Piece.sign.injEq] at h
      have hoperand : a.bare = a'.bare := operand.bare_eq_of_enclose operand' (ih operand') h.2
      simp only [bare_mk, Shape.map, h.1, hoperand]
    | _ => simp [form] at hform
  | @binary n op a b left right ihl ihr =>
    have hform := (Expression.binary n op left right).form_eq hy h
    cases hy with
    | @binary n' op' a' b' left' right' =>
      -- the operator is the first one outside groups
      have hnone := left.any_isOperator_enclose
      have hnone' := left'.any_isOperator_enclose
      rw [List.any_eq_false] at hnone hnone'
      obtain ⟨hleft, hrest⟩ := Piece.prefix_cancel (P := fun p => !p.isOperator)
        (by simpa using hnone) (by simpa using hnone') (by simp [Piece.isOperator])
        (by simp [Piece.isOperator]) h
      simp only [List.cons.injEq, Piece.operator.injEq] at hrest
      have hl : a.bare = a'.bare := left.bare_eq_of_enclose left' (ihl left') hleft
      have hr : b.bare = b'.bare := right.bare_eq_of_enclose right' (ihr right') hrest.2
      simp only [bare_mk, Shape.map, hl, hr, hrest.1]
    | _ => simp [form] at hform
  | @call n f as can callee arguments ihf ihas =>
    have hform := (Expression.call n can callee arguments).form_eq hy h
    cases hy with
    | @call n' f' as' can' callee' arguments' =>
      -- the argument list is the last piece
      obtain ⟨hcallee, hlast⟩ := List.append_inj' h rfl
      simp only [List.cons.injEq, Piece.group.injEq, and_true] at hlast
      have hf : f.bare = f'.bare := ihf callee' hcallee
      have has : as.map bare = as'.map bare :=
        bare_eq_of_argumentPieces arguments arguments' (fun a ha _ hb => ihas a ha hb) hlast
      simp only [bare_mk, Shape.map, hf, has]
    | _ => simp [form] at hform

end

end Term

/-! ## 5. Trees -/

/-- The text of a node is that of the term below it. -/
theorem Tree.printNode_eq {t : Tree} {a : NodeId} {x : Term NodeId} (h : t.term a = .ok x) :
    t.printNode a = .ok (String.ofList x.text) := by
  unfold Tree.printNode
  rw [h]
  rfl

theorem Tree.printNode_eq_iff {t u : Tree} {a b : NodeId} {x y : Term NodeId}
    (hx : t.term a = .ok x) (hy : u.term b = .ok y) :
    t.printNode a = u.printNode b ↔ x.text = y.text := by
  rw [Tree.printNode_eq hx, Tree.printNode_eq hy, Except.ok.injEq, String.ofList_inj]

/-- Printed expressions are uniquely readable. Expressions made of booleans, any strings,
numbers and names, of unary and binary operators, and of calls whose callees are identifiers
or calls, are the same up to the identifiers of their nodes if they have the same text. -/
theorem Tree.printNode_injective {t u : Tree} {a b : NodeId} {x y : Term NodeId}
    (hx : t.term a = .ok x) (hy : u.term b = .ok y) (ex : x.Expression Term.Named)
    (ey : y.Expression Term.Named) (h : t.printNode a = u.printNode b) : x.bare = y.bare :=
  ex.bare_eq ey ((ex.text_eq_iff ey).1 ((Tree.printNode_eq_iff hx hy).1 h))

namespace Sample

/-- The expression `f(a, !(b + 1))("x")`, each node behind those below it. -/
def curried : Tree where
  nodes := #[
    ⟨.identifier "f", some ⟨6⟩, none⟩,
    ⟨.identifier "a", some ⟨6⟩, none⟩,
    ⟨.identifier "b", some ⟨4⟩, none⟩,
    ⟨.literal (.numeric "1"), some ⟨4⟩, none⟩,
    ⟨.binary ⟨2⟩ .plus ⟨3⟩, some ⟨5⟩, none⟩,
    ⟨.unary .not ⟨4⟩, some ⟨6⟩, none⟩,
    ⟨.call ⟨0⟩ [⟨1⟩, ⟨5⟩], some ⟨8⟩, none⟩,
    ⟨.literal (.string "x"), some ⟨8⟩, none⟩,
    ⟨.call ⟨6⟩ [⟨7⟩], none, none⟩]
  root := some ⟨8⟩

/-- The same expression, each node before those below it. -/
def curriedBefore : Tree where
  nodes := #[
    ⟨.call ⟨1⟩ [⟨8⟩], none, none⟩,
    ⟨.call ⟨2⟩ [⟨3⟩, ⟨4⟩], some ⟨0⟩, none⟩,
    ⟨.identifier "f", some ⟨1⟩, none⟩,
    ⟨.identifier "a", some ⟨1⟩, none⟩,
    ⟨.unary .not ⟨5⟩, some ⟨1⟩, none⟩,
    ⟨.binary ⟨6⟩ .plus ⟨7⟩, some ⟨4⟩, none⟩,
    ⟨.identifier "b", some ⟨5⟩, none⟩,
    ⟨.literal (.numeric "1"), some ⟨5⟩, none⟩,
    ⟨.literal (.string "x"), some ⟨0⟩, none⟩]
  root := some ⟨0⟩

/-- The expression with nine labels. -/
def curriedTerm {ι : Type} (f a b one sum negation inner text outer : ι) : Term ι :=
  .mk outer (.call (.mk inner (.call (.mk f (.identifier "f"))
    [.mk a (.identifier "a"), .mk negation (.unary .not (.mk sum (.binary
      (.mk b (.identifier "b")) .plus (.mk one (.literal (.numeric "1"))))))]))
    [.mk text (.literal (.string "x"))])

theorem curriedTerm_expression {ι : Type} (f a b one sum negation inner text outer : ι) :
    (curriedTerm f a b one sum negation inner text outer).Expression Term.Named := by
  refine .call _ trivial (.call _ trivial (.identifier _ (by decide)) ?_) ?_
  · simp only [List.forall_mem_cons, List.not_mem_nil, false_imp_iff, implies_true, and_true]
    exact ⟨.identifier _ (by decide), .unary _ _ (.binary _ _ (.identifier _ (by decide))
      (.numeric _ (by decide)))⟩
  · simp only [List.forall_mem_cons, List.not_mem_nil, false_imp_iff, implies_true, and_true]
    exact .string _ _

/-- The two texts are the same, and so are the two expressions. -/
theorem printNode_injective_curried :
    ∃ x y, curried.term ⟨8⟩ = .ok x ∧ curriedBefore.term ⟨0⟩ = .ok y ∧
      x.Expression Term.Named ∧ y.Expression Term.Named ∧
      curried.printNode ⟨8⟩ = curriedBefore.printNode ⟨0⟩ ∧ x.bare = y.bare := by
  have hx : curried.term ⟨8⟩ = .ok (curriedTerm ⟨0⟩ ⟨1⟩ ⟨2⟩ ⟨3⟩ ⟨4⟩ ⟨5⟩ ⟨6⟩ ⟨7⟩ ⟨8⟩) := rfl
  have hy : curriedBefore.term ⟨0⟩ = .ok (curriedTerm ⟨2⟩ ⟨3⟩ ⟨6⟩ ⟨7⟩ ⟨5⟩ ⟨4⟩ ⟨1⟩ ⟨8⟩ ⟨0⟩) := rfl
  have htext : curried.printNode ⟨8⟩ = curriedBefore.printNode ⟨0⟩ := by decide +kernel
  have ex := curriedTerm_expression (ι := NodeId) ⟨0⟩ ⟨1⟩ ⟨2⟩ ⟨3⟩ ⟨4⟩ ⟨5⟩ ⟨6⟩ ⟨7⟩ ⟨8⟩
  have ey := curriedTerm_expression (ι := NodeId) ⟨2⟩ ⟨3⟩ ⟨6⟩ ⟨7⟩ ⟨5⟩ ⟨4⟩ ⟨1⟩ ⟨8⟩ ⟨0⟩
  exact ⟨_, _, hx, hy, ex, ey, htext, Tree.printNode_injective hx hy ex ey htext⟩

end Sample

end ScriptReduce
