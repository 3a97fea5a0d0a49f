/-
ScriptReduce.Proofs.Reduce.References: what becomes of declarations that are
referred to.

A dead branch takes its declarations with it. Nothing is done to keep a `var`
that code outside of the branch refers to, though it is visible in the whole
file, and a `let` is lost likewise that is a dead branch itself, or stands in an
operand that is skipped. That is the only way in which a reference outlives its
declaration: something between the declaration and its scope gives way while the
declaration stands in what would not have been executed of it
(`optimize_keeps_declarations`). A declaration in the branch that is taken is
kept, and so is one that stands in the statements of its block.

The scope itself is still there. In the new tree a node holds what it held
before, or what was behind `if` statements that it held (`Tree.HoldsThrough`). So
of the nodes above a reference only `if` statements can have gone, and a scope is
none.
-/
import ScriptReduce.Proofs.Reduce.Effects
import ScriptReduce.Proofs.Reduce.Steps
import ScriptReduce.Proofs.Symbol.Scopes

namespace ScriptReduce

open ScriptReduce.Tree Relation

variable {st : Setting} {D : NodeId → Prop} {rank : NodeId → Nat} {t t' : Tree} {c : Context}
  {w : Walk} {change : Change} {changes : List Change} {r g x y a s d : NodeId}

/-! ## 1. Behind `if` statements -/

/-- One node holds another, or an `if` statement that is held does. -/
inductive Tree.HoldsThrough (t : Tree) (g : NodeId) : NodeId → Prop where
  | direct {x : NodeId} (holds : t.Holds g x) : HoldsThrough t g x
  | behind {y x : NodeId} (through : HoldsThrough t g y) (branch : t.IsBranch y)
    (holds : t.Holds y x) : HoldsThrough t g x

namespace Tree.HoldsThrough

theorem trans (h : t.HoldsThrough g y) (hy : t.IsBranch y) (hx : t.HoldsThrough y x) :
    t.HoldsThrough g x := by
  induction hx with
  | direct holds => exact .behind h hy holds
  | behind _ branch holds ih => exact .behind ih branch holds

theorem lt_size (h : t.HoldsThrough g x) : g.index < t.size := by
  induction h with
  | direct holds => exact lt_size_of_holds holds
  | behind _ _ _ ih => exact ih

/-- What else is above the node is above whoever holds it through `if`
statements, or is one of these. -/
theorem reaches_of_reaches (h : t.HoldsThrough g x)
    (honly : ∀ p q x, t.Holds p x → t.Holds q x → p = q) (ha : ¬t.IsBranch a)
    (hax : t.Reaches a x) (hne : a ≠ x) : t.Reaches a g := by
  induction h with
  | @direct x holds =>
    rcases ReflTransGen.cases_tail hax with heq | ⟨p, hp, hpx⟩
    · exact absurd heq.symm hne
    · exact honly p g x hpx holds ▸ hp
  | @behind y x _ branch holds ih =>
    rcases ReflTransGen.cases_tail hax with heq | ⟨p, hp, hpx⟩
    · exact absurd heq.symm hne
    · obtain rfl := honly p y x hpx holds
      refine ih hp ?_
      rintro rfl
      exact ha branch

end Tree.HoldsThrough

/-! ## 2. Steps -/

/-- After a step a node holds what it held before, or what has taken the place
of such a node. -/
theorem Step.holds_cases (h : Step st t change t') (hx : t'.Holds g x) :
    t.Holds g x ∨ t.Holds g change.node ∧ change.replacement = some x := by
  obtain ⟨_, _, hm⟩ := h.moves
  exact hm.holds_cases hx

/-- What takes a place is new, or it is a branch of the `if` statement that
gives way. -/
theorem Step.replacement_cases (h : Step st t change t') (hx : change.replacement = some x) :
    x = t.next ∨ t.IsBranch change.node ∧ t.Holds change.node x := by
  cases h with
  | folded | filled =>
    cases hx
    exact Or.inl rfl
  | selected _ shape _ chosen _ =>
    cases hx
    exact Or.inr ⟨⟨_, _, _, shape⟩, holds_of_branch shape (chosen_mem chosen)⟩
  | dropped => cases hx

/-- No node that was there gets below another. -/
theorem Step.reaches_of_reaches (h : Step st t change t') (hlt : x.index < t.size)
    (hx : t'.Reaches s x) : t.Reaches s x := by
  induction hx with
  | refl => exact .refl
  | @tail y x _ hyx ih =>
    rcases h.holds_cases hyx with hyx | ⟨hnode, hreplacement⟩
    · exact (ih (lt_size_of_holds hyx)).tail hyx
    · rcases h.replacement_cases hreplacement with rfl | ⟨-, hx⟩
      · exact absurd hlt (Nat.lt_irrefl _)
      · exact ((ih (lt_size_of_holds hnode)).tail hnode).tail hx

namespace Steps

/-- An `if` statement was one at the start. -/
theorem isBranch (h : Steps st D t changes t') (hg : t.Graded Everywhere rank t.size)
    (hx : t'.IsBranch x) : t.IsBranch x := by
  obtain ⟨n, hn⟩ := exists_get? (hx.lt_limit (h.graded hg))
  obtain ⟨c, a, b, hs⟩ := hx
  obtain ⟨n', hn', hshape⟩ := shape_eq_ok.1 hs
  obtain ⟨k, hk, hb, _⟩ := h.grows.kept x n hn
  rw [hn'] at hk
  cases hk
  rw [hshape] at hb
  obtain ⟨c', a', b', hbranch⟩ := Shape.bare_eq_branch.1 hb.symm
  exact ⟨c', a', b', by rw [shape_of_get? hn, hbranch]⟩

/-- In the end a node holds what it held at the start, at most through `if`
statements. -/
theorem holdsThrough (h : Steps st D t changes t') (hg : t.Graded Everywhere rank t.size)
    (hlt : x.index < t.size) (hx : t'.Holds g x) : t.HoldsThrough g x := by
  induction h generalizing g x with
  | start => exact .direct hx
  | vain _ _ ih => exact ih hlt ((holds_push rfl).1 hx)
  | @next changes change u t' steps _ step ih =>
    rcases step.holds_cases hx with hx | ⟨hnode, hreplacement⟩
    · exact ih hlt hx
    · rcases step.replacement_cases hreplacement with rfl | ⟨hbranch, hx⟩
      · exact absurd steps.grows.size (Nat.not_le.2 hlt)
      · have hnode' := ih (hbranch.lt_limit (steps.graded hg)) hnode
        exact hnode'.trans (steps.isBranch hg hbranch) (ih hlt hx)

/-- What is above a node that is still there is still there, and above the node,
unless it is an `if` statement. -/
theorem reaches_above (h : Steps st D t changes t') (hg : t.Graded Everywhere rank t.size)
    (honly : ∀ p q x, t.Holds p x → t.Holds q x → p = q) (ha : ¬t.IsBranch a)
    (hra : t.Reaches r a) (hx : t'.Reaches r x) (hlt : x.index < t.size) (hax : t.Reaches a x) :
    t'.Reaches r a ∧ t'.Reaches a x := by
  induction hx with
  | refl =>
    -- nothing else is above the root
    rcases ReflTransGen.cases_head hax with heq | ⟨y, hay, hyr⟩
    · rw [heq]
      exact ⟨.refl, .refl⟩
    · exact absurd (TransGen.head' hay (hyr.trans hra)) (hg.acyclic a)
  | @tail y x hy hyx ih =>
    by_cases heq : a = x
    · rw [heq]
      exact ⟨hy.tail hyx, .refl⟩
    · have hthrough := h.holdsThrough hg hlt hyx
      obtain ⟨hkept, hay⟩ :=
        ih hthrough.lt_size (hthrough.reaches_of_reaches honly ha hax heq)
      exact ⟨hkept, hay.tail hyx⟩

/-- No node gets below another. -/
theorem reaches_of_reaches (h : Steps st D t changes t') (hlt : x.index < t.size)
    (hx : t'.Reaches s x) : t.Reaches s x := by
  induction h with
  | start => exact hx
  | vain _ _ ih => exact ih (ReflTransGen.mono (fun _ _ => (holds_push rfl).1) _ _ hx)
  | next steps _ step ih =>
    exact ih (step.reaches_of_reaches (Nat.lt_of_lt_of_le hlt steps.grows.size) hx)

end Steps

/-! ## 3. References -/

theorem Shape.opensScope_bare {α : Type} (s : Shape α) : s.bare.OpensScope ↔ s.OpensScope := by
  cases s <;> exact Iff.rfl

/-- A scope is a source file or a block. -/
theorem Tree.Introduces.opensScope {symbol : Symbol} {statements : List NodeId}
    (hr : t.shape r = .ok (.sourceFile statements)) (h : t.Introduces r s symbol) :
    t.OpensScope s := by
  obtain ⟨d, _, _, _, _, _, hscope⟩ := h
  unfold ScopeOf at hscope
  split at hscope
  · exact hscope.1
  · rw [hscope.1]
    exact ⟨_, hr, trivial⟩

namespace Tree.OpensScope

theorem not_isBranch (h : t.OpensScope s) : ¬t.IsBranch s := by
  rintro ⟨c, a, b, hs⟩
  exact not_opensScope hs id h

theorem not_givesWay (h : t.OpensScope s) (options : Options) : ¬t.GivesWay options s := by
  rintro ⟨shape, hs, hdisplaces⟩
  obtain ⟨_, hs', hopens⟩ := h
  cases hs.symm.trans hs'
  cases shape <;> first | exact hdisplaces | exact hopens

/-- A scope stays one. -/
theorem grows (h : t.OpensScope s) (hgrows : t.Grows t') : t'.OpensScope s := by
  obtain ⟨_, hs, hopens⟩ := h
  obtain ⟨n, hn, rfl⟩ := shape_eq_ok.1 hs
  obtain ⟨n', hn', hbare, -⟩ := hgrows.kept s n hn
  refine ⟨n'.shape, shape_of_get? hn', ?_⟩
  rwa [← Shape.opensScope_bare, hbare, Shape.opensScope_bare]

end Tree.OpensScope

/-- A declaration stays one. -/
theorem Tree.Grows.declaration {name : NodeId} {initializer : Option NodeId} (h : t.Grows t')
    (hs : t.shape d = .ok (.declaration name initializer)) :
    ∃ name' initializer', t'.shape d = .ok (.declaration name' initializer') := by
  obtain ⟨n, hn, hs⟩ := shape_eq_ok.1 hs
  obtain ⟨n', hn', hbare, -⟩ := h.kept d n hn
  rw [hs] at hbare
  rw [shape_of_get? hn']
  cases hs' : n'.shape <;> rw [hs'] at hbare <;> cases hbare
  exact ⟨_, _, rfl⟩

theorem not_yields_of_declaration {ev : Evaluator} {name : NodeId} {initializer : Option NodeId}
    (hs : ev.tree.shape d = .ok (.declaration name initializer)) (v : Value) : ¬ev.Yields d v :=
  Evaluator.Yields.not_nothing (by rw [Evaluator.look, hs])

/-- A lost declaration would not have been executed. -/
theorem Forgone.of_declaration {id name : NodeId} {initializer : Option NodeId}
    (h : Forgone w id d) (hs : w.tree.shape d = .ok (.declaration name initializer)) :
    Unexecuted w id d := by
  cases h with
  | unexecuted h => exact h
  | decided shape itself =>
    subst itself
    cases hs.symm.trans shape
  | evaluated value => exact absurd value (not_yields_of_declaration hs _)

/-- On the way from a tree to another, a node goes with something below a third: at
some moment that gives way, and the node would not have been executed of it. -/
def Tree.Forfeits (t : Tree) (c : Context) (t' : Tree) (s d : NodeId) : Prop :=
  ∃ c' w id reduction w₁, Along t c t' c' w id ∧ w.reduce id = .ok (reduction, w₁) ∧
    reduction ≠ .unchanged ∧ w.tree.Reaches s id ∧ Unexecuted w id d

/-- A declaration can be reached from its scope in the end if and only if it did
not go with something between the two. -/
theorem Tree.Consistent.forfeits_iff (h : t.Consistent) {c' : Context} {name : NodeId}
    {initializer : Option NodeId} (hruns : Runs t c t' c') (hs : t.OpensScope s)
    (hsd : t.Reaches s d) (hd : t.shape d = .ok (.declaration name initializer)) :
    t.Forfeits c t' s d ↔ ¬t'.Reaches s d := by
  have hg := h.graded
  have hon : Walk.Ongoing c.setting Everywhere t.rank t t c := ⟨hg, rfl, rfl⟩
  have hroot : ∀ r, t.root = some r → t.Inside Everywhere r := fun _ => inside_of_root h.root
  constructor
  · -- what is cut off at a moment never comes back
    rintro ⟨c₁, w, id, reduction, w₁, halong, hreduced, hne, hsid, hunexecuted⟩
    obtain ⟨hon₁, _, hsteps⟩ := halong.before hon hroot
    obtain ⟨_, hsteps'⟩ := halong.after hon hroot hreduced
    have hs₁ := hs.grows hsteps.grows
    have hcut := Walk.loses_unexecuted hon₁.graded (hsteps.joined hg h.joined) hreduced hne hsid
      (hs₁.not_givesWay _) hs₁.not_isBranch hunexecuted
    have hgrows := (hon₁.reduce (Walk.inside_of_reduce hreduced) hreduced).1.2
    have hlt : d.index < w₁.tree.size :=
      Nat.lt_of_lt_of_le (lt_size_of_shape hd) (Nat.le_trans hsteps.grows.size hgrows.size)
    exact fun hx => hcut (hsteps'.reaches_of_reaches hlt hx)
  · intro hlost
    obtain ⟨w, id, reduction, w₁, halong, hreduced, hsd, hlost⟩ :=
      hruns.loses (A := fun u _ => u.Reaches s d) hsd hlost
    obtain ⟨hon₁, _, hsteps⟩ := halong.before hon hroot
    obtain ⟨hne, hsid, hforgone⟩ := Walk.forgone_of_loses hon₁.graded hreduced hsd hlost
    obtain ⟨name', initializer', hd'⟩ := hsteps.grows.declaration hd
    exact ⟨c', w, id, reduction, w₁, halong, hreduced, hne, hsid, hforgone.of_declaration hd'⟩

/-- An identifier that is still there refers to a declaration whose scope is still
there: the source file for `var`, and the innermost block for `let` and `const`.
The declaration is still there itself, unless an `if` statement or an operator
between the two gave way while the declaration stood in a part of it that would
not have been executed: in the branch that was not selected, or in an operand that
was not needed. There is a table of symbols for the tree, and a result. -/
theorem optimize_keeps_declarations (h : t.Consistent) (options : Options) :
    ∃ r table t' c', t.root = some r ∧ SymbolTable.ofTree t = .ok table ∧
      optimize t table.resolve options = .ok (t', c') ∧
      ∀ x symbol d, t'.Reaches r x → table.resolve x = some symbol →
        symbol.declaration = some d →
        ∃ s, t.ScopeOf r symbol.kind s d ∧ t'.Reaches r s ∧
          (t'.Reaches r d ↔ ¬t.Forfeits (.start table.resolve options) t' s d) := by
  have hg := h.graded
  obtain ⟨r, n, statements, hr, hn, hs⟩ := h.root
  have hfile : t.shape r = .ok (.sourceFile statements) := by rw [shape_of_get? hn, hs]
  have hroot : ∀ r', t.root = some r' → t.Inside Everywhere r' := fun _ => inside_of_root h.root
  obtain ⟨table, htable, hrefers⟩ := SymbolTable.exists_ofTree hg hr hfile
  obtain ⟨t', c', hrun⟩ := hg.exists_optimize (fun r' hr' => (hroot r' hr').2)
    (SymbolTable.within_of_refers hrefers) options
  refine ⟨r, table, t', c', hr, htable, hrun, fun x symbol d hx hsymbol hd => ?_⟩
  have hsteps := optimize_steps hg t.encloses_everywhere hroot hrun
  obtain ⟨_, _, _, _, hruns, hlast, -⟩ := optimize_lastRun hrun
  obtain ⟨hident, s, hintroduces, hrs, hsx⟩ := hrefers x symbol hsymbol
  have hopens := hintroduces.opensScope hfile
  have honly : ∀ p q x, t.Holds p x → t.Holds q x → p = q := fun _ _ _ => h.holder_eq
  have habove : ∀ y, y.index < t.size → t.Reaches s y → t'.Reaches r y →
      t'.Reaches r s ∧ t'.Reaches s y := fun y hlt hsy hy =>
    hsteps.reaches_above hg honly hopens.not_isBranch hrs hy hlt hsy
  obtain ⟨hscope, -⟩ := habove x (lt_size_of_shape hident) hsx hx
  obtain ⟨d', _, _, hd', hdeclaration, -, hof⟩ := hintroduces
  rw [hd] at hd'
  cases hd'
  refine ⟨s, hof, hscope, ?_⟩
  rw [h.forfeits_iff (hruns.again hlast) hopens hof.reaches hdeclaration, not_not]
  exact ⟨fun hkept => (habove d (lt_size_of_shape hdeclaration) hof.reaches hkept).2,
    fun hbelow => hscope.trans hbelow⟩

/-! ## 4. Declarations that are lost -/

/-- An identifier that is still there refers to a declaration that was there
and is not any more. -/
def Outlives (t : Tree) (table : SymbolTable) (t' : Tree) (r x d : NodeId) : Prop :=
  t'.Reaches r x ∧ (∃ symbol, table.resolve x = some symbol ∧ symbol.declaration = some d) ∧
    t.Reaches r d ∧ ¬t'.Reaches r d

namespace Sample

/-- The program `if (false) { var a; } if (false) let b; true || (let c); f(a, b, c);`,
as far as there is one. -/
def scattered : Tree where
  nodes := #[
    ⟨.literal (.boolean false), some ⟨6⟩, none⟩,
    ⟨.identifier "a", some ⟨2⟩, none⟩,
    ⟨.declaration ⟨1⟩ none, some ⟨3⟩, none⟩,
    ⟨.declarationList .functionVariable [⟨2⟩], some ⟨4⟩, none⟩,
    ⟨.variableStatement ⟨3⟩, some ⟨5⟩, none⟩,
    ⟨.block [⟨4⟩], some ⟨6⟩, none⟩,
    ⟨.branch ⟨0⟩ ⟨5⟩ none, some ⟨25⟩, none⟩,
    ⟨.literal (.boolean false), some ⟨12⟩, none⟩,
    ⟨.identifier "b", some ⟨9⟩, none⟩,
    ⟨.declaration ⟨8⟩ none, some ⟨10⟩, none⟩,
    ⟨.declarationList .blockVariable [⟨9⟩], some ⟨11⟩, none⟩,
    ⟨.variableStatement ⟨10⟩, some ⟨12⟩, none⟩,
    ⟨.branch ⟨7⟩ ⟨11⟩ none, some ⟨25⟩, none⟩,
    ⟨.literal (.boolean true), some ⟨17⟩, none⟩,
    ⟨.identifier "c", some ⟨15⟩, none⟩,
    ⟨.declaration ⟨14⟩ none, some ⟨16⟩, none⟩,
    ⟨.declarationList .blockVariable [⟨15⟩], some ⟨17⟩, none⟩,
    ⟨.binary ⟨13⟩ .or ⟨16⟩, some ⟨18⟩, none⟩,
    ⟨.expressionStatement ⟨17⟩, some ⟨25⟩, none⟩,
    ⟨.identifier "f", some ⟨23⟩, none⟩,
    ⟨.identifier "a", some ⟨23⟩, none⟩,
    ⟨.identifier "b", some ⟨23⟩, none⟩,
    ⟨.identifier "c", some ⟨23⟩, none⟩,
    ⟨.call ⟨19⟩ [⟨20⟩, ⟨21⟩, ⟨22⟩], some ⟨24⟩, none⟩,
    ⟨.expressionStatement ⟨23⟩, some ⟨25⟩, none⟩,
    ⟨.sourceFile [⟨6⟩, ⟨12⟩, ⟨18⟩, ⟨24⟩], none, none⟩]
  root := some ⟨25⟩

/-- Its names and what they refer to. -/
def names : SymbolTable where
  symbols := #[
    ⟨⟨0⟩, "a", .functionVariable, some ⟨2⟩⟩,
    ⟨⟨1⟩, "b", .blockVariable, some ⟨9⟩⟩,
    ⟨⟨2⟩, "c", .blockVariable, some ⟨15⟩⟩]
  resolutions := [(⟨22⟩, ⟨2⟩), (⟨21⟩, ⟨1⟩), (⟨20⟩, ⟨0⟩), (⟨14⟩, ⟨2⟩), (⟨8⟩, ⟨1⟩), (⟨1⟩, ⟨0⟩)]

theorem scattered_consistent : scattered.Consistent :=
  (Built.wellFormed ⟨by decide +kernel, by decide +kernel, by decide +kernel, by decide +kernel,
    by decide +kernel, by decide +kernel⟩).consistent

theorem ofTree_scattered : SymbolTable.ofTree scattered = .ok names := by decide +kernel

/-- What is left of the program is `true; f(a, b, c);`. -/
theorem scattered_left {c' : Context}
    (h : optimize scattered names.resolve options = .ok (t', c')) :
    t'.Reaches ⟨25⟩ ⟨20⟩ ∧ t'.Reaches ⟨25⟩ ⟨21⟩ ∧ t'.Reaches ⟨25⟩ ⟨22⟩ ∧
      ∀ x, t'.Reaches ⟨25⟩ x →
        x ∈ ([⟨25⟩, ⟨18⟩, ⟨26⟩, ⟨24⟩, ⟨23⟩, ⟨19⟩, ⟨20⟩, ⟨21⟩, ⟨22⟩] : List NodeId) := by
  have hleft : (optimize scattered names.resolve options).map (fun result => decide
      ((∀ x ∈ ([⟨20⟩, ⟨21⟩, ⟨22⟩] : List NodeId),
        List.IsChain result.1.Holds [⟨25⟩, ⟨24⟩, ⟨23⟩, x]) ∧
      ∀ g ∈ ([⟨25⟩, ⟨18⟩, ⟨26⟩, ⟨24⟩, ⟨23⟩, ⟨19⟩, ⟨20⟩, ⟨21⟩, ⟨22⟩] : List NodeId),
        ∀ n ∈ (result.1.get? g).toList, ∀ x ∈ n.shape.children,
        x ∈ ([⟨25⟩, ⟨18⟩, ⟨26⟩, ⟨24⟩, ⟨23⟩, ⟨19⟩, ⟨20⟩, ⟨21⟩, ⟨22⟩] : List NodeId))) = .ok true := by
    decide +kernel
  rw [h] at hleft
  obtain ⟨hpaths, hdown⟩ := of_decide_eq_true (Except.ok.inj hleft)
  have hpath : ∀ x ∈ ([⟨20⟩, ⟨21⟩, ⟨22⟩] : List NodeId), t'.Reaches ⟨25⟩ x := fun x hx =>
    reaches_of_path (hpaths x hx) (by simp)
  exact ⟨hpath _ (by simp), hpath _ (by simp), hpath _ (by simp),
    fun x hx => mem_of_reaches hdown (by simp) hx⟩

theorem names_within : names.resolve.Within scattered := by
  intro x symbol d h hd
  have hall : ∀ symbol ∈ names.symbols, ∀ d ∈ symbol.declaration, d.index < scattered.size := by
    decide
  exact hall symbol (SymbolTable.mem_of_resolve h) d hd

end Sample

/-- Three references outlive their declarations: to a `var` in a block of a dead
branch, to a `let` in a dead branch without a block, and to a `let` in an
operand that is never executed. -/
theorem optimize_loses_declarations :
    Sample.scattered.Consistent ∧ Sample.scattered.root = some ⟨25⟩ ∧
      SymbolTable.ofTree Sample.scattered = .ok Sample.names ∧
      ∃ t' c', optimize Sample.scattered Sample.names.resolve Sample.options = .ok (t', c') ∧
        Outlives Sample.scattered Sample.names t' ⟨25⟩ ⟨20⟩ ⟨2⟩ ∧
        Outlives Sample.scattered Sample.names t' ⟨25⟩ ⟨21⟩ ⟨9⟩ ∧
        Outlives Sample.scattered Sample.names t' ⟨25⟩ ⟨22⟩ ⟨15⟩ := by
  have hg := Sample.scattered_consistent.graded
  obtain ⟨t', c', hrun⟩ := hg.exists_optimize (fun r hr => by cases hr; decide)
    Sample.names_within Sample.options
  obtain ⟨ha, hb, hc, hleft⟩ := Sample.scattered_left hrun
  refine ⟨Sample.scattered_consistent, rfl, Sample.ofTree_scattered, t', c', hrun,
    ⟨ha, ⟨_, rfl, rfl⟩, ?_, fun h => by simpa using hleft _ h⟩,
    ⟨hb, ⟨_, rfl, rfl⟩, ?_, fun h => by simpa using hleft _ h⟩,
    ⟨hc, ⟨_, rfl, rfl⟩, ?_, fun h => by simpa using hleft _ h⟩⟩
  · exact reaches_of_path (show List.IsChain Sample.scattered.Holds
      [⟨25⟩, ⟨6⟩, ⟨5⟩, ⟨4⟩, ⟨3⟩, ⟨2⟩] by decide) (by simp)
  · exact reaches_of_path (show List.IsChain Sample.scattered.Holds
      [⟨25⟩, ⟨12⟩, ⟨11⟩, ⟨10⟩, ⟨9⟩] by decide) (by simp)
  · exact reaches_of_path (show List.IsChain Sample.scattered.Holds
      [⟨25⟩, ⟨18⟩, ⟨17⟩, ⟨16⟩, ⟨15⟩] by decide) (by simp)

/-- Each of these declarations went with something inside of its scope. -/
theorem optimize_keeps_declarations_scattered :
    ∃ t' c', optimize Sample.scattered Sample.names.resolve Sample.options = .ok (t', c') ∧
      ∀ x symbol d, t'.Reaches ⟨25⟩ x → Sample.names.resolve x = some symbol →
        symbol.declaration = some d →
        ∃ s, Sample.scattered.ScopeOf ⟨25⟩ symbol.kind s d ∧ t'.Reaches ⟨25⟩ s ∧
          (t'.Reaches ⟨25⟩ d ↔
            ¬Sample.scattered.Forfeits (.start Sample.names.resolve Sample.options) t' s d) := by
  obtain ⟨r, table, t', c', hr, htable, hrun, hall⟩ :=
    optimize_keeps_declarations Sample.scattered_consistent Sample.options
  cases hr
  rw [Sample.ofTree_scattered] at htable
  cases htable
  exact ⟨t', c', hrun, hall⟩

end ScriptReduce
