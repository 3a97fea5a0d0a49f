/-
ScriptReduce.Proofs.Evaluate.BigStep: evaluation as a big-step semantics.

`Means` gives expressions their values by one rule for each construct, over
the nodes of the tree and the answers of the resolver. It knows no depth and
marks nothing. An expression that could only get a value by way of itself has
no finite derivation, hence no value.

`evalMarking` is the evaluator as it works on a store of marks: it marks a
declaration before it goes on with the initializer, and takes the mark away
afterwards. `evalWithin` is handed its marks instead. The two do the same, and
the marks are back to what they were wherever an evaluation ends
(`run_evalMarking`).

The guard refuses no expression that has a value, and lets none pass that has
not (`evaluate_iff_means`). That it refuses none rests on `Derives.found`: a
least derivation does not pass the same declaration twice.
-/
import ScriptReduce.Proofs.Evaluate.Mirror
import ScriptReduce.Proofs.Evaluate.Termination

namespace ScriptReduce

open ScriptReduce.Tree

/-! ## 1. Rules -/

namespace Tree

/-- Whether a node has a parent, and is not the name that its parent declares. -/
def IsReference (t : Tree) (id : NodeId) : Prop :=
  ∃ p s, t.parent id = .ok (some p) ∧ t.shape p = .ok s ∧ ∀ i, s ≠ .declaration id i

/-- Whether a node declares a name in a list of constants, with a given
initializer. -/
def DeclaresConstant (t : Tree) (d i : NodeId) : Prop :=
  ∃ name list ds, t.shape d = .ok (.declaration name (some i)) ∧
    t.parent d = .ok (some list) ∧ t.shape list = .ok (.declarationList .constant ds)

end Tree

namespace Evaluator

/-- An expression evaluates to a value. -/
inductive Means (ev : Evaluator) : NodeId → Value → Prop where
  | literal {id l v} (shape : ev.tree.shape id = .ok (.literal l))
    (value : Value.ofLiteral? l = some v) : Means ev id v
  | not {id a v} (shape : ev.tree.shape id = .ok (.unary .not a)) (operand : Means ev a v) :
    Means ev id (.boolean !v.isTruthy)
  /-- The left operand of `&&` is false. -/
  | andLeft {id a b v} (shape : ev.tree.shape id = .ok (.binary a .and b))
    (left : Means ev a v) (falsy : v.isTruthy = false) : Means ev id v
  | andRight {id a b v w} (shape : ev.tree.shape id = .ok (.binary a .and b))
    (left : Means ev a v) (truthy : v.isTruthy = true) (right : Means ev b w) : Means ev id w
  /-- The left operand of `||` is true. -/
  | orLeft {id a b v} (shape : ev.tree.shape id = .ok (.binary a .or b))
    (left : Means ev a v) (truthy : v.isTruthy = true) : Means ev id v
  | orRight {id a b v w} (shape : ev.tree.shape id = .ok (.binary a .or b))
    (left : Means ev a v) (falsy : v.isTruthy = false) (right : Means ev b w) : Means ev id w
  /-- Any other operator combines the values of both operands, if it is folded. -/
  | operator {id a op b v w u} (shape : ev.tree.shape id = .ok (.binary a op b))
    (not_and : op ≠ .and) (not_or : op ≠ .or) (left : Means ev a v) (right : Means ev b w)
    (value : op.apply v w = some u) : Means ev id u
  /-- An identifier stands for a constant, where constants are looked through. -/
  | identifier {id name symbol d i v} (shape : ev.tree.shape id = .ok (.identifier name))
    (propagate : ev.propagate = true) (reference : ev.tree.IsReference id)
    (symbol_eq : ev.symbolAt id = some symbol) (kind : symbol.kind = .constant)
    (declaration : symbol.declaration = some d) (declares : ev.tree.DeclaresConstant d i)
    (initializer : Means ev i v) : Means ev id v

/-! ## 2. The rules and what evaluation sees -/

variable {ev : Evaluator} {id d i a b : NodeId} {v w : Value}

theorem isUse_iff_isReference :
    ev.isUse id = .ok true ↔ ev.propagate = true ∧ ev.tree.IsReference id := by
  rw [isUse_eq_true]
  refine and_congr_right fun _ => ?_
  constructor
  · intro h
    obtain ⟨n, p, k, hn, hp, hk, hname⟩ := h
    exact ⟨p, k.shape, parent_eq_ok.2 ⟨n, hn, hp⟩, shape_of_get? hk, hname⟩
  · intro h
    obtain ⟨p, s, hp, hs, hname⟩ := h
    obtain ⟨n, hn, hp⟩ := parent_eq_ok.1 hp
    obtain ⟨k, hk, rfl⟩ := shape_eq_ok.1 hs
    exact ⟨n, p, k, hn, hp, hk, hname⟩

theorem initializer?_iff_declaresConstant :
    ev.initializer? d = .ok (some i) ↔ ev.tree.DeclaresConstant d i := by
  rw [initializer?_eq_some]
  constructor
  · intro h
    obtain ⟨n, name, p, k, hn, hs, hp, hk, ds, hlist⟩ := h
    exact ⟨name, p, ds, shape_eq_ok.2 ⟨n, hn, hs⟩, parent_eq_ok.2 ⟨n, hn, hp⟩,
      shape_eq_ok.2 ⟨k, hk, hlist⟩⟩
  · intro h
    obtain ⟨name, p, ds, hs, hp, hlist⟩ := h
    obtain ⟨n, hn, hs⟩ := shape_eq_ok.1 hs
    obtain ⟨n', hn', hp⟩ := parent_eq_ok.1 hp
    obtain ⟨k, hk, hlist⟩ := shape_eq_ok.1 hlist
    rw [hn] at hn'
    cases hn'
    exact ⟨n, name, p, k, hn, hs, hp, hk, ds, hlist⟩

/-- What an identifier may be looked through to, in terms of the tree and the
resolver. -/
theorem constantOf_iff : ev.constantOf id = some (d, i) ↔
    ev.propagate = true ∧ ev.tree.IsReference id ∧ ∃ symbol, ev.symbolAt id = some symbol ∧
      symbol.kind = .constant ∧ symbol.declaration = some d ∧ ev.tree.DeclaresConstant d i := by
  rw [constantOf_eq_some, isUse_iff_isReference, constant?_eq_some, and_assoc]
  simp only [initializer?_iff_declaresConstant, BindingKind.isImmutable, beq_iff_eq]

/-- The rule for a binary operator whose left operand settles the value. -/
theorem Means.settled {op : BinaryOperator} (shape : ev.tree.shape id = .ok (.binary a op b))
    (left : ev.Means a v) (settles : op.isSettledBy v = true) : ev.Means id v := by
  cases op with
  | and => exact .andLeft shape left (by simpa [BinaryOperator.isSettledBy] using settles)
  | or => exact .orLeft shape left settles
  | _ => cases settles

/-- The rule for a binary operator that needs both operands. -/
theorem Means.combined {op : BinaryOperator} {u : Value}
    (shape : ev.tree.shape id = .ok (.binary a op b)) (left : ev.Means a v)
    (settles : op.isSettledBy v = false) (right : ev.Means b w) (value : op.apply v w = some u) :
    ev.Means id u := by
  cases op with
  | and =>
    cases value
    exact .andRight shape left (by simpa [BinaryOperator.isSettledBy] using settles) right
  | or =>
    cases value
    exact .orRight shape left settles right
  | _ => exact .operator shape (by decide) (by decide) left right value

/-- The value of an expression by the rules for constructs is its value by the
rules for views. -/
theorem means_iff_yields : ev.Means id v ↔ ev.Yields id v := by
  constructor
  · intro h
    induction h with
    | literal shape value => exact .literal (look_of_literal shape) value
    | not shape _ ih => exact .not (look_of_not shape) ih
    | andLeft shape _ falsy ih =>
      exact .settled (look_of_binary shape) ih (by simp [BinaryOperator.isSettledBy, falsy])
    | andRight shape _ truthy _ ihl ihr =>
      exact .combined (look_of_binary shape) ihl
        (by simp [BinaryOperator.isSettledBy, truthy]) ihr rfl
    | orLeft shape _ truthy ih =>
      exact .settled (look_of_binary shape) ih (by simp [BinaryOperator.isSettledBy, truthy])
    | orRight shape _ falsy _ ihl ihr =>
      exact .combined (look_of_binary shape) ihl
        (by simp [BinaryOperator.isSettledBy, falsy]) ihr rfl
    | @operator _ _ op _ _ _ _ shape not_and not_or _ _ value ihl ihr =>
      refine .combined (look_of_binary shape) ihl ?_ ihr value
      cases op <;> first | rfl | contradiction
    | identifier shape propagate reference symbol_eq kind declaration declares _ ih =>
      have hc := constantOf_iff.2
        ⟨propagate, reference, _, symbol_eq, kind, declaration, declares⟩
      exact .constant (look_of_identifier shape hc) ih
  · intro h
    obtain ⟨k, h⟩ := h
    induction h with
    | literal see value => exact .literal (shape_of_look_literal see) value
    | not see _ ih => exact .not (shape_of_look_not see) ih
    | settled see _ settles ih => exact .settled (shape_of_look_binary see) ih settles
    | combined see _ settles _ value ihl ihr =>
      exact .combined (shape_of_look_binary see) ihl settles ihr value
    | constant see _ ih =>
      obtain ⟨name, shape, hc⟩ := shape_of_look_constant see
      obtain ⟨propagate, reference, symbol, symbol_eq, kind, declaration, declares⟩ :=
        constantOf_iff.1 hc
      exact .identifier shape propagate reference symbol_eq kind declaration declares ih

/-- An expression evaluates to one value at most. -/
theorem Means.unique (h : ev.Means id v) (h' : ev.Means id w) : v = w :=
  (means_iff_yields.1 h).unique (means_iff_yields.1 h')

/-! ## 3. Marks -/

/-- Evaluation on a store of marks: the declarations that are being resolved. -/
abbrev Marking (α : Type) := StateT (List NodeId) (Except Fault) α

/-- Does something while a declaration is marked. -/
def whileMarked {α : Type} (declaration : NodeId) (x : Marking α) : Marking α := do
  modify (declaration :: ·)
  let o ← x
  modify (·.erase declaration)
  return o

/-- The value of an identifier. The declaration of its constant is marked
while the initializer is evaluated. -/
def resolveMarking (ev : Evaluator) (eval : NodeId → Marking Outcome) (identifier : NodeId) :
    Marking Outcome := do
  if ← ev.isUse identifier then
    match ← ev.constant? identifier with
    | none => return ⟨none, [identifier]⟩
    | some (declaration, initializer) =>
      if (← get).contains declaration then return ⟨none, [identifier]⟩
      else return (← whileMarked declaration (eval initializer)).after [identifier]
  else return .nothing

/-- The value of an expression, descending at most a given number of steps. -/
def evalMarking (ev : Evaluator) : Nat → NodeId → Marking Outcome
  | 0, _ => throw .endless
  | depth + 1, id => do
    match ← ev.tree.shape id with
    | .literal literal => return ⟨Value.ofLiteral? literal, []⟩
    | .unary .not operand =>
      let o ← ev.evalMarking depth operand
      return { o with value := o.value.map fun value => .boolean !value.isTruthy }
    | .binary left op right =>
      let l ← ev.evalMarking depth left
      match l.value with
      | none => return l
      | some value =>
        if op.isSettledBy value then return l
        else
          let r ← ev.evalMarking depth right
          return ⟨r.value.bind (op.apply value), l.asked ++ r.asked⟩
    | .identifier _ => ev.resolveMarking (ev.evalMarking depth) id
    | _ => return .nothing

/-- The value of an expression. Marks that are left from before are taken away
first. -/
def evaluateMarking (ev : Evaluator) (id : NodeId) : Marking Outcome := do
  set ([] : List NodeId)
  ev.evalMarking ev.depthLimit id

/-- Whether a computation on a store of marks gives a certain result and leaves
the store as it was. -/
def Restores {α : Type} (marked : List NodeId) (x : Marking α) (r : Except Fault α) : Prop :=
  x.run marked = r.map fun o => (o, marked)

namespace Restores

variable {α β : Type} {marked : List NodeId} {x : Marking α} {r : Except Fault α}

theorem ok (o : α) : Restores marked (pure o) (.ok o) := rfl

theorem lift (r : Except Fault α) : Restores marked (liftM r) r := by
  cases r <;> rfl

theorem bind {f : α → Marking β} {g : α → Except Fault β} (hx : Restores marked x r)
    (hf : ∀ o, r = .ok o → Restores marked (f o) (g o)) :
    Restores marked (x >>= f) (r >>= g) := by
  unfold Restores at hx ⊢
  rw [StateT.run_bind, hx]
  cases r with
  | error e => rfl
  | ok o => exact hf o rfl

/-- What reads the store reads the marks. -/
theorem get {f : List NodeId → Marking α} (hf : Restores marked (f marked) r) :
    Restores marked (MonadState.get >>= f) r := hf

theorem whileMarked {d : NodeId} (hx : Restores (d :: marked) x r) :
    Restores marked (whileMarked d x) r := by
  unfold Restores at hx ⊢
  rw [Evaluator.whileMarked]
  simp only [StateT.run_bind, StateT.run_modify, pure_bind, hx]
  cases r with
  | error e => rfl
  | ok o => exact congrArg (fun rest => Except.ok (o, rest)) (List.erase_cons_head d marked)

end Restores

theorem restores_resolveMarking {eval : NodeId → Marking Outcome}
    {evalWith : List NodeId → NodeId → Except Fault Outcome} {marked : List NodeId}
    (h : ∀ marked i, Restores marked (eval i) (evalWith marked i)) (id : NodeId) :
    Restores marked (ev.resolveMarking eval id) (ev.resolveWith evalWith marked id) := by
  unfold resolveMarking resolveWith
  refine .bind (.lift _) fun use _ => ?_
  cases use with
  | false => exact .ok _
  | true =>
    refine .bind (.lift _) fun c _ => ?_
    cases c with
    | none => exact .ok _
    | some c =>
      obtain ⟨d, i⟩ := c
      -- the test on the store and the test on the marks handed down are the same from here on
      refine .get ?_
      simp only
      split
      · exact .ok _
      · exact .bind (.whileMarked (h (d :: marked) i)) fun o _ => .ok _

/-- Handing the marks down does the same as keeping them in a store, as the
store is restored on every way out. -/
theorem restores_evalMarking (ev : Evaluator) (depth : Nat) (marked : List NodeId) (id : NodeId) :
    Restores marked (ev.evalMarking depth id) (ev.evalWithin depth marked id) := by
  induction depth generalizing marked id with
  | zero => rfl
  | succ depth ih =>
    rw [evalMarking, evalWithin]
    refine .bind (.lift _) fun s _ => ?_
    cases s with
    | unary op a =>
      cases op with
      | not => exact .bind (ih marked a) fun o _ => .ok _
      | _ => exact .ok _
    | binary a op b =>
      refine .bind (ih marked a) fun l _ => ?_
      cases l.value with
      | none => exact .ok _
      | some w =>
        simp only
        split
        · exact .ok _
        · exact .bind (ih marked b) fun o _ => .ok _
    | identifier name => exact restores_resolveMarking ih id
    | _ => exact .ok _

/-- Whatever was marked before, nothing is marked afterwards. -/
theorem run_evaluateMarking (ev : Evaluator) (marked : List NodeId) (id : NodeId) :
    (ev.evaluateMarking id).run marked = (ev.evaluate id).map fun o => (o, []) :=
  ev.restores_evalMarking ev.depthLimit [] id

/-! ## 4. The guard is exact -/

/-- Evaluation ends with the value that the rules give the expression, and
without one if they give none. Nothing is left marked. -/
theorem evaluate_iff_means (ha : ev.tree.Acyclic) (hc : ev.tree.Closed Everywhere)
    (hw : ev.symbolAt.Within ev.tree) (hid : id.index < ev.tree.size) :
    ∃ o, ev.evaluate id = .ok o ∧ (∀ v, o.value = some v ↔ ev.Means id v) ∧
      (o.value = none ↔ ∀ v, ¬ev.Means id v) ∧
      (∀ v w, ev.Means id v → ev.Means id w → v = w) ∧
      ∀ marked, (ev.evaluateMarking id).run marked = .ok (o, []) := by
  have hfails := failsOnly_evaluate (ha.graded hc) ev.symbolAt.keeps_everywhere ⟨trivial, hid⟩
  obtain ⟨o, ho⟩ := hfails.exists_ok fun e he => he.2 hw
  have hvalue : ∀ v, o.value = some v ↔ ev.Means id v := fun v => by
    rw [evaluate_value_iff ho, means_iff_yields]
  refine ⟨o, ho, hvalue, ?_, fun v w => Means.unique, fun marked => ?_⟩
  · rw [Option.eq_none_iff_forall_ne_some]
    exact forall_congr' fun v => not_congr (hvalue v)
  · rw [run_evaluateMarking, ho]
    rfl

end Evaluator

namespace Sample

/-- The program `const a = true || b, b = a && a, c = c; !b;`. The constants
`a` and `b` refer to each other, but the value of `a` does not need that of
`b`. -/
def intertwined : Tree where
  nodes := #[
    ⟨.identifier "a", some ⟨4⟩, none⟩,
    ⟨.literal (.boolean true), some ⟨3⟩, none⟩,
    ⟨.identifier "b", some ⟨3⟩, none⟩,
    ⟨.binary ⟨1⟩ .or ⟨2⟩, some ⟨4⟩, none⟩,
    ⟨.declaration ⟨0⟩ (some ⟨3⟩), some ⟨13⟩, none⟩,
    ⟨.identifier "b", some ⟨9⟩, none⟩,
    ⟨.identifier "a", some ⟨8⟩, none⟩,
    ⟨.identifier "a", some ⟨8⟩, none⟩,
    ⟨.binary ⟨6⟩ .and ⟨7⟩, some ⟨9⟩, none⟩,
    ⟨.declaration ⟨5⟩ (some ⟨8⟩), some ⟨13⟩, none⟩,
    ⟨.identifier "c", some ⟨12⟩, none⟩,
    ⟨.identifier "c", some ⟨12⟩, none⟩,
    ⟨.declaration ⟨10⟩ (some ⟨11⟩), some ⟨13⟩, none⟩,
    ⟨.declarationList .constant [⟨4⟩, ⟨9⟩, ⟨12⟩], some ⟨14⟩, none⟩,
    ⟨.variableStatement ⟨13⟩, some ⟨18⟩, none⟩,
    ⟨.identifier "b", some ⟨16⟩, none⟩,
    ⟨.unary .not ⟨15⟩, some ⟨17⟩, none⟩,
    ⟨.expressionStatement ⟨16⟩, some ⟨18⟩, none⟩,
    ⟨.sourceFile [⟨14⟩, ⟨17⟩], none, none⟩]
  root := some ⟨18⟩

def intertwinedSymbols : SymbolTable where
  symbols := #[⟨⟨0⟩, "a", .constant, some ⟨4⟩⟩, ⟨⟨1⟩, "b", .constant, some ⟨9⟩⟩,
    ⟨⟨2⟩, "c", .constant, some ⟨12⟩⟩]
  resolutions := [(⟨2⟩, ⟨1⟩), (⟨6⟩, ⟨0⟩), (⟨7⟩, ⟨0⟩), (⟨11⟩, ⟨2⟩), (⟨15⟩, ⟨1⟩)]

theorem intertwined_layered : intertwined.Layered := ⟨by decide +kernel, by decide +kernel⟩

/-- The evaluator of the program. -/
def intertwinedEvaluator : Evaluator := ⟨intertwined, intertwinedSymbols.resolve, true⟩

theorem intertwined_within : intertwinedEvaluator.symbolAt.Within intertwined := by
  intro x symbol d h hd
  have hmem := SymbolTable.mem_of_resolve h
  simp only [intertwinedSymbols, List.mem_toArray, List.mem_cons, List.not_mem_nil, or_false] at hmem
  rcases hmem with rfl | rfl | rfl <;> cases hd <;> decide

end Sample

theorem evaluate_iff_means_intertwined :
    Sample.intertwinedEvaluator.Means ⟨16⟩ (.boolean false) ∧
      ∀ v, ¬Sample.intertwinedEvaluator.Means ⟨11⟩ v := by
  have h := fun id => @Evaluator.evaluate_iff_means Sample.intertwinedEvaluator id
    Sample.intertwined_layered.acyclic Sample.intertwined_layered.closed Sample.intertwined_within
  constructor
  · obtain ⟨o, ho, hvalue, -⟩ := h ⟨16⟩ (by decide)
    have : Sample.intertwinedEvaluator.evaluate ⟨16⟩ =
      .ok ⟨some (.boolean false), [⟨15⟩, ⟨6⟩, ⟨7⟩]⟩ := by decide +kernel
    rw [this] at ho
    cases ho
    exact (hvalue _).1 rfl
  · obtain ⟨o, ho, -, hnone, -⟩ := h ⟨11⟩ (by decide)
    have : Sample.intertwinedEvaluator.evaluate ⟨11⟩ = .ok ⟨none, [⟨11⟩, ⟨11⟩]⟩ := by decide +kernel
    rw [this] at ho
    cases ho
    exact hnone.1 rfl

end ScriptReduce
