/-
ScriptReduce.Proofs.Tree.Callee: which calls read as operators applied to calls.

Operands are put in parentheses if they are binary expressions, but callees never are. So
the argument list of a call goes to the last operand of its callee: the call of `a + b` with
`c` has the text `a + b(c)`, which is that of a sum (`printNode_call_misread`).

Which calls are affected is decided by what is called (`isLoose`). Seen from the argument
lists, an operator in front of them can be the outermost one if what is between it and them
reads as an operand, and that is the case unless it is in parentheses: no operand has one
group directly behind another at its beginning (`not_doubled`). So a call reads as an operator
expression if and only if one of its operators, outside groups, is not followed by two
groups (`sealed_followed`, `exists_operation`).
-/
import ScriptReduce.Proofs.Tree.Readable

namespace ScriptReduce

namespace Term

variable {ι : Type}

/-! ## 1. Calls that can be misread -/

/-- Everything may be called. -/
def Any (_ : Term ι) : Prop := True

/-- An operator with its operands. -/
def IsOperation (x : Term ι) : Prop := x.form = .unary ∨ x.form = .binary

/-- Whether an expression that is called, or is an operand if it is not, reads as an operator
expression together with its argument lists. -/
def isLoose (called : Bool) : Term ι → Bool
  | .mk _ (.unary _ a) => !called || !a.isBinary
  | .mk _ (.binary a _ b) => called && (!b.isBinary || isLoose false a)
  | .mk _ (.call f _) => isLoose true f
  | _ => false

/-- The pieces of argument lists. -/
def lists (calls : List (List (Term ι))) : List Piece :=
  calls.map fun as => .group (argumentPieces as)

/-- The pieces of an expression called with some argument lists, or of an operand if there
are none. -/
def followed (x : Term ι) : List (List (Term ι)) → List Piece
  | [] => x.enclose x.pieces
  | as :: calls => x.pieces ++ lists (as :: calls)

theorem enclose_of_not_binary {x : Term ι} (h : x.isBinary = false) (ps : List Piece) :
    x.enclose ps = ps := by
  simp [enclose, h]

theorem followed_of_not_binary {x : Term ι} (h : x.isBinary = false)
    (calls : List (List (Term ι))) : x.followed calls = x.pieces ++ lists calls := by
  cases calls with
  | nil => simp [followed, enclose_of_not_binary h, lists]
  | cons as calls => rfl

theorem followed_call (n : ι) (f : Term ι) (as : List (Term ι)) (calls : List (List (Term ι))) :
    followed (.mk n (.call f as)) calls = f.followed (as :: calls) := by
  rw [followed_of_not_binary rfl]
  simp [followed, pieces, lists]

/-- An expression called with one argument list after another. -/
def applied (n : ι) (f : Term ι) : List (List (Term ι)) → Term ι
  | [] => f
  | as :: calls => applied n (.mk n (.call f as)) calls

theorem enclose_applied (n : ι) (f : Term ι) (calls : List (List (Term ι))) :
    (applied n f calls).enclose (applied n f calls).pieces = f.followed calls := by
  induction calls generalizing f with
  | nil => rfl
  | cons as calls ih => rw [applied, ih, followed_call]

theorem Expression.applied (n : ι) {f : Term ι} {calls : List (List (Term ι))}
    (hf : Expression Any f) (hcalls : ∀ as ∈ calls, ∀ a ∈ as, Expression Any a) :
    Expression Any (applied n f calls) := by
  induction calls generalizing f with
  | nil => exact hf
  | cons as calls ih =>
    exact ih (.call n trivial hf (hcalls as List.mem_cons_self))
      fun bs hbs => hcalls bs (List.mem_cons_of_mem as hbs)

section

variable {x : Term ι} {calls : List (List (Term ι))}

/-! ## 2. Loose calls -/

/-- A loose expression reads as an operator expression. -/
theorem Expression.exists_operation (hx : Expression Any x)
    (hcalls : ∀ as ∈ calls, ∀ a ∈ as, Expression Any a) (h : x.isLoose (!calls.isEmpty)) :
    ∃ e : Term ι, e.Expression Any ∧ e.IsOperation ∧ e.pieces = x.followed calls := by
  induction hx generalizing calls with
  | boolean | numeric | string | identifier => simp [isLoose] at h
  | @unary n op a operand ih =>
    cases calls with
    | nil => exact ⟨_, .unary n op operand, .inl rfl, rfl⟩
    | cons as calls =>
      -- the argument lists go to the operand
      have ha : a.isBinary = false := by simpa [isLoose] using h
      refine ⟨_, .unary n op (operand.applied n hcalls), .inl rfl, ?_⟩
      rw [pieces, enclose_applied, followed_of_not_binary ha, followed_of_not_binary rfl, pieces,
        enclose_of_not_binary ha, List.cons_append]
  | @binary n op a b left right ihl ihr =>
    cases calls with
    | nil => simp [isLoose] at h
    | cons as calls =>
      have h : b.isBinary = false ∨ a.isLoose false := by simpa [isLoose] using h
      rcases h with hb | ha
      · -- they go to the right operand
        refine ⟨_, .binary n op left (right.applied n hcalls), .inr rfl, ?_⟩
        rw [pieces, enclose_applied, followed_of_not_binary hb]
        simp [followed, pieces, enclose_of_not_binary hb]
      · -- they go to an operation whose left operand is the end of the left operand
        have hnone : ∀ as ∈ ([] : List (List (Term ι))), ∀ a ∈ as, Expression Any a := by simp
        obtain ⟨e, he, hop, hpieces⟩ := ihl hnone ha
        have hpieces : e.pieces = a.enclose a.pieces := hpieces
        cases he with
        | boolean | numeric | string | identifier | call => rcases hop with h | h <;> cases h
        | @unary m s z operand =>
          refine ⟨_, .unary m s ((Expression.binary n op operand right).applied n hcalls),
            .inl rfl, ?_⟩
          rw [pieces] at hpieces
          rw [pieces, enclose_applied, followed, followed, pieces, pieces, ← hpieces]
          simp
        | @binary m o y z operand operand' =>
          refine ⟨_, .binary m o operand ((Expression.binary n op operand' right).applied n hcalls),
            .inr rfl, ?_⟩
          rw [pieces] at hpieces
          rw [pieces, enclose_applied, followed, followed, pieces, pieces, ← hpieces]
          simp
  | @call n f as can callee arguments ihf ihas =>
    rw [followed_call]
    refine ihf ?_ h
    intro bs hbs
    rcases List.mem_cons.1 hbs with rfl | hbs
    · exact arguments
    · exact hcalls bs hbs

/-! ## 3. Other calls -/

/-- One group directly behind another stands in front. -/
def Doubled (ps : List Piece) : Prop := ∃ g h rest, ps = .group g :: .group h :: rest

theorem Doubled.append {ps : List Piece} (h : Doubled ps) (qs : List Piece) :
    Doubled (ps ++ qs) := by
  obtain ⟨g, g', rest, rfl⟩ := h
  exact ⟨g, g', rest ++ qs, rfl⟩

/-- A group in front of an expression is the left operand of an operator. -/
theorem Expression.operator_of_group {callable : Term ι → Prop} (hx : Expression callable x)
    {g rest : List Piece} (h : x.pieces = .group g :: rest) :
    ∃ o rest', rest = .operator o :: rest' := by
  induction hx generalizing g rest with
  | boolean | numeric | string | identifier | unary => simp [pieces] at h
  | @binary n op a b left right ihl ihr =>
    simp only [pieces, enclose] at h
    split at h
    · simp only [List.cons_append, List.nil_append, List.cons.injEq] at h
      exact ⟨_, _, h.2.symm⟩
    · cases ha : a.pieces with
      | nil => exact absurd ha left.pieces_ne_nil
      | cons p ps =>
        simp only [ha, List.cons_append, List.cons.injEq] at h
        obtain ⟨o, rest', rfl⟩ := ihl (ha.trans (by rw [h.1]))
        exact ⟨o, _, h.2.symm⟩
  | @call n f as can callee arguments ihf ihas =>
    cases hf : f.pieces with
    | nil => exact absurd hf callee.pieces_ne_nil
    | cons p ps =>
      simp only [pieces, hf, List.cons_append, List.cons.injEq] at h
      obtain ⟨o, rest', rfl⟩ := ihf (hf.trans (by rw [h.1]))
      exact ⟨o, _, h.2.symm⟩

/-- No operand begins with two groups. -/
theorem Expression.not_doubled {callable : Term ι → Prop} (hx : Expression callable x) :
    ¬Doubled (x.enclose x.pieces) := by
  rintro ⟨g, g', rest, h⟩
  unfold enclose at h
  split at h
  · simp at h
  · obtain ⟨o, rest', hrest⟩ := hx.operator_of_group h
    simp at hrest

/-- A sign in front and all operators are followed by two groups. -/
structure Sealed (ps : List Piece) : Prop where
  sign : ∀ s rest, ps = .sign s :: rest → Doubled rest
  operator : ∀ before o rest, ps = before ++ .operator o :: rest → Doubled rest

theorem not_operator_of_any {ps before rest : List Piece} {o : BinaryOperator}
    (hnone : ps.any Piece.isOperator = false) : ps ≠ before ++ .operator o :: rest := by
  rintro rfl
  simp [Piece.isOperator] at hnone

/-- Where there is neither a sign in front nor an operator, there is nothing to follow. -/
theorem sealed_of_none {ps : List Piece} (hsign : ∀ s rest, ps ≠ .sign s :: rest)
    (hnone : ps.any Piece.isOperator = false) : Sealed ps where
  sign s rest h := absurd h (hsign s rest)
  operator _ _ _ h := absurd h (not_operator_of_any hnone)

/-- Two groups behind one more operator. -/
theorem Sealed.append {ps qs : List Piece} (hps : Sealed ps) (hne : ps ≠ []) (op : BinaryOperator)
    (hqs : Doubled qs) (hnone : qs.any Piece.isOperator = false) :
    Sealed (ps ++ .operator op :: qs) where
  sign s rest h := by
    cases ps with
    | nil => exact absurd rfl hne
    | cons p ps =>
      simp only [List.cons_append, List.cons.injEq] at h
      obtain ⟨rfl, rfl⟩ := h
      exact (hps.sign s ps rfl).append _
  operator before o rest h := by
    rcases List.append_eq_append_iff.1 h with ⟨mid, -, hmid⟩ | ⟨mid, hmid, hrest⟩
    · cases mid with
      | nil =>
        simp only [List.nil_append, List.cons.injEq] at hmid
        exact hmid.2 ▸ hqs
      | cons p mid =>
        simp only [List.cons_append, List.cons.injEq] at hmid
        exact absurd hmid.2 (not_operator_of_any hnone)
    · cases mid with
      | nil =>
        simp only [List.nil_append, List.cons.injEq] at hrest
        exact hrest.2 ▸ hqs
      | cons p mid =>
        simp only [List.cons_append, List.cons.injEq] at hrest
        obtain ⟨rfl, rfl⟩ := hrest
        exact (hps.operator before o mid hmid).append _

theorem any_isOperator_lists (calls : List (List (Term ι))) :
    (lists calls).any Piece.isOperator = false := by
  induction calls with
  | nil => rfl
  | cons as calls ih => simp [lists, Piece.isOperator] at ih ⊢

/-- The signs and operators of an expression that is not loose are sealed. -/
theorem Expression.sealed_followed (hx : Expression Any x)
    (h : x.isLoose (!calls.isEmpty) = false) : Sealed (x.followed calls) := by
  induction hx generalizing calls with
  | boolean | numeric | string | identifier =>
    rw [followed_of_not_binary rfl]
    refine sealed_of_none (by simp [pieces]) ?_
    simp only [pieces, List.any_append, any_isOperator_lists]
    rfl
  | @unary n op a operand ih =>
    cases calls with
    | nil => simp [isLoose] at h
    | cons as calls =>
      have ha : a.isBinary = true := by simpa [isLoose] using h
      have hlists := any_isOperator_lists (as :: calls)
      simp only [followed, pieces, enclose, ha, if_true]
      refine ⟨fun s rest hs => ?_, fun before o rest hs => absurd hs (not_operator_of_any ?_)⟩
      · simp only [List.cons_append, List.cons.injEq] at hs
        exact ⟨_, _, _, hs.2.symm⟩
      · simp only [List.any_append, List.any_cons, hlists]
        rfl
  | @binary n op a b left right ihl ihr =>
    cases calls with
    | nil => exact sealed_of_none (by simp [followed, enclose, isBinary]) rfl
    | cons as calls =>
      obtain ⟨hb, ha⟩ : b.isBinary = true ∧ a.isLoose false = false := by simpa [isLoose] using h
      have hlists := any_isOperator_lists (as :: calls)
      have hne : a.followed [] ≠ [] := by
        simp only [followed, enclose]
        split
        · exact List.cons_ne_nil _ _
        · exact left.pieces_ne_nil
      have hnone : (.group b.pieces :: lists (as :: calls)).any Piece.isOperator = false := by
        simp only [List.any_cons, hlists]
        rfl
      have hdoubled : Doubled (.group b.pieces :: lists (as :: calls)) := ⟨_, _, _, rfl⟩
      have hleft : Sealed (a.followed []) := ihl ha
      have hsealed := hleft.append hne op hdoubled hnone
      simpa [followed, pieces, enclose, hb] using hsealed
  | @call n f as can callee arguments ihf ihas =>
    rw [followed_call]
    exact ihf h

/-- A call reads as an operator expression if and only if it is loose. -/
theorem Expression.isLoose_iff (hx : Expression Any x) (hcall : x.form = .call) :
    x.isLoose false = true ↔ ∃ e : Term ι, e.Expression Any ∧ e.IsOperation ∧ e.text = x.text := by
  have hfollowed : x.followed [] = x.pieces := by
    cases hx with
    | call => rfl
    | boolean | numeric | string | identifier | unary | binary => cases hcall
  constructor
  · intro h
    have hnone : ∀ as ∈ ([] : List (List (Term ι))), ∀ a ∈ as, Expression Any a := by simp
    obtain ⟨e, he, hop, hpieces⟩ := hx.exists_operation hnone h
    exact ⟨e, he, hop, (he.text_eq_iff hx).2 (hpieces.trans hfollowed)⟩
  · rintro ⟨e, he, hop, htext⟩
    have hpieces := (he.text_eq_iff hx).1 htext
    refine Decidable.byContradiction fun h => ?_
    have hsealed : Sealed (x.followed []) := hx.sealed_followed (by simpa using h)
    rw [hfollowed, ← hpieces] at hsealed
    cases he with
    | boolean | numeric | string | identifier | call => rcases hop with h | h <;> cases h
    | unary n s operand => exact operand.not_doubled (hsealed.sign s _ rfl)
    | binary n o left right => exact right.not_doubled (hsealed.operator _ o _ rfl)

end

end Term

/-! ## 4. Trees -/

/-- A call that is not loose never has the text of an operator expression, and a loose call
has the text of one. -/
theorem Tree.printNode_call {t : Tree} {a : NodeId} {x : Term NodeId} (hx : t.term a = .ok x)
    (ex : x.Expression Term.Any) (hcall : x.form = .call) :
    (x.isLoose false = false →
      ∀ (u : Tree) (b : NodeId) (y : Term NodeId), u.term b = .ok y → y.Expression Term.Any →
        y.IsOperation → t.printNode a ≠ u.printNode b) ∧
    (x.isLoose false = true →
      ∃ y : Term NodeId, y.Expression Term.Any ∧ y.IsOperation ∧
        t.printNode a = .ok (String.ofList y.text)) := by
  constructor
  · intro htight u b y hy ey hop hprint
    have hloose : x.isLoose false = true :=
      (ex.isLoose_iff hcall).2 ⟨y, ey, hop, ((Tree.printNode_eq_iff hx hy).1 hprint).symm⟩
    rw [htight] at hloose
    cases hloose
  · intro hloose
    obtain ⟨y, ey, hop, htext⟩ := (ex.isLoose_iff hcall).1 hloose
    exact ⟨y, ey, hop, by rw [Tree.printNode_eq hx, htext]⟩

namespace Sample

/-- The program `(a + b)(c); a + b(c); (!(a + b))(c);`, without the parentheses around
callees when it is printed. -/
def misread : Tree where
  nodes := #[
    ⟨.identifier "a", some ⟨2⟩, none⟩,
    ⟨.identifier "b", some ⟨2⟩, none⟩,
    ⟨.binary ⟨0⟩ .plus ⟨1⟩, some ⟨4⟩, none⟩,
    ⟨.identifier "c", some ⟨4⟩, none⟩,
    ⟨.call ⟨2⟩ [⟨3⟩], some ⟨5⟩, none⟩,
    ⟨.expressionStatement ⟨4⟩, some ⟨19⟩, none⟩,
    ⟨.identifier "a", some ⟨10⟩, none⟩,
    ⟨.identifier "b", some ⟨9⟩, none⟩,
    ⟨.identifier "c", some ⟨9⟩, none⟩,
    ⟨.call ⟨7⟩ [⟨8⟩], some ⟨10⟩, none⟩,
    ⟨.binary ⟨6⟩ .plus ⟨9⟩, some ⟨11⟩, none⟩,
    ⟨.expressionStatement ⟨10⟩, some ⟨19⟩, none⟩,
    ⟨.identifier "a", some ⟨14⟩, none⟩,
    ⟨.identifier "b", some ⟨14⟩, none⟩,
    ⟨.binary ⟨12⟩ .plus ⟨13⟩, some ⟨15⟩, none⟩,
    ⟨.unary .not ⟨14⟩, some ⟨17⟩, none⟩,
    ⟨.identifier "c", some ⟨17⟩, none⟩,
    ⟨.call ⟨15⟩ [⟨16⟩], some ⟨18⟩, none⟩,
    ⟨.expressionStatement ⟨17⟩, some ⟨19⟩, none⟩,
    ⟨.sourceFile [⟨5⟩, ⟨11⟩, ⟨18⟩], none, none⟩]
  root := some ⟨19⟩

/-- The sum of `a` and `b`, called with `c`. -/
def calledSum : Term NodeId :=
  .mk ⟨4⟩ (.call (.mk ⟨2⟩ (.binary (.mk ⟨0⟩ (.identifier "a")) .plus (.mk ⟨1⟩ (.identifier "b"))))
    [.mk ⟨3⟩ (.identifier "c")])

/-- The sum of `a` and a call of `b`. -/
def sumOfCall : Term NodeId :=
  .mk ⟨10⟩ (.binary (.mk ⟨6⟩ (.identifier "a")) .plus
    (.mk ⟨9⟩ (.call (.mk ⟨7⟩ (.identifier "b")) [.mk ⟨8⟩ (.identifier "c")])))

/-- The negation of a sum, called with `c`. -/
def calledNegation : Term NodeId :=
  .mk ⟨17⟩ (.call (.mk ⟨15⟩ (.unary .not (.mk ⟨14⟩
    (.binary (.mk ⟨12⟩ (.identifier "a")) .plus (.mk ⟨13⟩ (.identifier "b"))))))
    [.mk ⟨16⟩ (.identifier "c")])

theorem calledSum_expression : calledSum.Expression Term.Any :=
  .call _ trivial (.binary _ _ (.identifier _ (by decide)) (.identifier _ (by decide)))
    (by simpa using .identifier _ (by decide))

theorem sumOfCall_expression : sumOfCall.Expression Term.Any :=
  .binary _ _ (.identifier _ (by decide)) (.call _ trivial (.identifier _ (by decide))
    (by simpa using .identifier _ (by decide)))

theorem calledNegation_expression : calledNegation.Expression Term.Any :=
  .call _ trivial (.unary _ _ (.binary _ _ (.identifier _ (by decide))
    (.identifier _ (by decide)))) (by simpa using .identifier _ (by decide))

/-- The call of a negated sum is told from a sum of a call, and the call of a sum is not told
from some operator expression. -/
theorem printNode_call_sample :
    misread.printNode ⟨17⟩ ≠ misread.printNode ⟨10⟩ ∧
      ∃ y : Term NodeId, y.Expression Term.Any ∧ y.IsOperation ∧
        misread.printNode ⟨4⟩ = .ok (String.ofList y.text) := by
  have hsum : misread.term ⟨4⟩ = .ok calledSum := rfl
  have hother : misread.term ⟨10⟩ = .ok sumOfCall := rfl
  have hnegation : misread.term ⟨17⟩ = .ok calledNegation := rfl
  exact ⟨(Tree.printNode_call hnegation calledNegation_expression rfl).1 rfl misread ⟨10⟩ _ hother
      sumOfCall_expression (.inr rfl),
    (Tree.printNode_call hsum calledSum_expression rfl).2 rfl⟩

/-- The call of a sum is printed like a sum with a call, and so is that sum. -/
theorem printNode_call_misread :
    ∃ x y, misread.term ⟨4⟩ = .ok x ∧ misread.term ⟨10⟩ = .ok y ∧ x.Expression Term.Any ∧
      y.Expression Term.Any ∧ x.form = .call ∧ y.form = .binary ∧
      misread.printNode ⟨4⟩ = .ok "a + b(c)" ∧ misread.printNode ⟨10⟩ = .ok "a + b(c)" :=
  ⟨calledSum, sumOfCall, rfl, rfl, calledSum_expression, sumOfCall_expression, rfl, rfl,
    by decide +kernel, by decide +kernel⟩

end Sample

end ScriptReduce
