/-
ScriptReduce.Proofs.Evaluate.Mirror: evaluation across a change of the tree.

Evaluation looks at operators, identifiers and declarations, and none of these
has a place for statements. So what matters of a shape is its kind and its
`firm` children, those that do not stand where a statement stands. Two trees
mirror each other if every node keeps its kind, its firm children change by a
renaming, and its parent stays, or is exchanged for another that holds
statements. One node is exempt: the one that gave its slot away.

In trees that mirror each other every node looks the same up to the renaming
(`Mirrors.look_eq`). So expressions have the same values in both, if the node
that gave its slot away has the value of what took its place
(`Mirrors.yields_iff`).
-/
import ScriptReduce.Proofs.Evaluate.Semantics
import ScriptReduce.Proofs.Tree.Graded

namespace ScriptReduce

open ScriptReduce.Tree

/-! ## 1. Firm children -/

namespace Shape

variable {α : Type} {σ : NodeId → NodeId} {s s' : Shape NodeId}

/-- The children that do not stand where a statement stands. -/
def firm (s : Shape α) : List (Place × α) := s.spots.filter fun e => !e.1.isStatement

theorem mem_firm {s : Shape α} {e : Place × α} :
    e ∈ s.firm ↔ e ∈ s.spots ∧ e.1.isStatement = false := by
  simp [firm]

/-- Whether a shape has places for statements. -/
def isBlock : Shape α → Bool
  | .sourceFile _ | .block _ | .branch _ _ _ | .other _ _ => true
  | _ => false

theorem isBlock_of_bare {s : Shape NodeId} {s' : Shape NodeId} (h : s'.bare = s.bare) :
    s'.isBlock = s.isBlock := by
  cases s <;> cases s' <;> first | rfl | cases h

theorem firm_eq_spots {s : Shape α} (h : s.isBlock = false) : s.firm = s.spots := by
  refine List.filter_eq_self.2 fun e he => ?_
  cases s with
  | binary l op r =>
    simp only [spots, List.mem_cons, List.not_mem_nil, or_false] at he
    rcases he with rfl | rfl
    · simp [Place.isStatement_eq_false_of_isExpression (Place.isExpression_left op)]
    · rfl
  | sourceFile _ | block _ | branch _ _ _ | other _ _ => cases h
  | literal _ | identifier _ | emptyStatement => cases he
  | unary _ _ | expressionStatement _ | variableStatement _ =>
    rw [List.mem_singleton.1 he]
    rfl
  | declarationList _ _ =>
    obtain ⟨_, _, rfl⟩ := List.mem_map.1 he
    rfl
  | call _ _ | declaration _ _ =>
    rcases List.mem_cons.1 he with rfl | he
    · rfl
    · obtain ⟨_, _, rfl⟩ := List.mem_map.1 he
      rfl

/-- Whether a shape has the kind of another, and its firm children renamed. -/
structure Mirrors (σ : NodeId → NodeId) (s s' : Shape NodeId) : Prop where
  bare : s'.bare = s.bare
  firm : s'.firm = s.firm.map (Prod.map id σ)

namespace Mirrors

theorem isBlock (h : s.Mirrors σ s') : s'.isBlock = s.isBlock := isBlock_of_bare h.bare

/-- A shape without places for statements is renamed as a whole. -/
theorem eq_map (h : s.Mirrors σ s') (hs : s.isBlock = false) : s' = s.map σ := by
  have hfirm := h.firm
  rw [firm_eq_spots hs, firm_eq_spots (h.isBlock.trans hs)] at hfirm
  refine ext_bare (h.bare.trans (bare_map σ s).symm) ?_
  rw [← map_snd_spots, hfirm, children_map, ← map_snd_spots, List.map_map, List.map_map]
  rfl

theorem declaration_iff (h : s.Mirrors σ s') {name : NodeId} {initializer : Option NodeId} :
    s' = .declaration name initializer ↔
      ∃ name₀ initializer₀, s = .declaration name₀ initializer₀ ∧ σ name₀ = name ∧
        initializer₀.map σ = initializer := by
  constructor
  · rintro rfl
    have hs : s.isBlock = false := h.isBlock.symm
    have := h.eq_map hs
    cases s <;> cases this
    exact ⟨_, _, rfl, rfl, rfl⟩
  · rintro ⟨name₀, initializer₀, rfl, rfl, rfl⟩
    exact h.eq_map rfl

theorem constantList_iff (h : s.Mirrors σ s') :
    (∃ ds, s' = .declarationList .constant ds) ↔ ∃ ds, s = .declarationList .constant ds := by
  have hb := h.bare
  constructor
  · rintro ⟨ds, rfl⟩
    cases s <;> cases hb
    exact ⟨_, rfl⟩
  · rintro ⟨ds, rfl⟩
    cases s' <;> cases hb
    exact ⟨_, rfl⟩

end Mirrors

end Shape

/-! ## 2. What is looked at around a node -/

namespace Evaluator

variable {ev : Evaluator} {id d i : NodeId}

/-- The symbol of an identifier is asked for if it has a parent, but not if
the parent declares it. -/
theorem isUse_eq_true : ev.isUse id = .ok true ↔ ev.propagate = true ∧
    ∃ n p k, ev.tree.get? id = some n ∧ n.parent = some p ∧ ev.tree.get? p = some k ∧
      ∀ i, k.shape ≠ .declaration id i := by
  unfold isUse
  cases ev.propagate with
  | false => simp [pure_eq_ok]
  | true =>
    simp only [Bool.not_true, Bool.false_eq_true, if_false, true_and, bind_eq_ok, parent_eq_ok]
    constructor
    · rintro ⟨_, ⟨n, hn, rfl⟩, h⟩
      cases hp : n.parent with
      | none =>
        rw [hp] at h
        cases h
      | some p =>
        rw [hp] at h
        obtain ⟨b, hb, h⟩ := bind_eq_ok.1 h
        unfold Tree.isDeclarationName at hb
        rw [bind_of_ok _ (parent_of_get? hn), hp] at hb
        obtain ⟨s, hs, hb⟩ := bind_eq_ok.1 hb
        obtain ⟨k, hk, rfl⟩ := shape_eq_ok.1 hs
        refine ⟨n, p, k, hn, hp, hk, fun i hi => ?_⟩
        rw [hi] at hb
        cases hb
        simp [pure_eq_ok] at h
    · rintro ⟨n, p, k, hn, hp, hk, hname⟩
      refine ⟨_, ⟨n, hn, rfl⟩, ?_⟩
      have hfalse : ev.tree.isDeclarationName id = .ok false := by
        unfold Tree.isDeclarationName
        rw [bind_of_ok _ (parent_of_get? hn), hp]
        simp only
        rw [bind_of_ok _ (shape_of_get? hk)]
        cases hs : k.shape with
        | declaration name i =>
          have hne : name ≠ id := by
            rintro rfl
            exact hname i hs
          simp [hne, pure_eq_ok]
        | _ => rfl
      rw [hp]
      simp only
      rw [bind_of_ok _ hfalse]
      rfl

/-- A declaration gives a constant if it has an initializer and stands in a
list of constants. -/
theorem initializer?_eq_some : ev.initializer? d = .ok (some i) ↔
    ∃ n name p k, ev.tree.get? d = some n ∧ n.shape = .declaration name (some i) ∧
      n.parent = some p ∧ ev.tree.get? p = some k ∧
      ∃ ds, k.shape = .declarationList .constant ds := by
  unfold initializer?
  simp only [bind_eq_ok, shape_eq_ok]
  constructor
  · rintro ⟨_, ⟨n, hn, rfl⟩, h⟩
    split at h
    · rename_i name j hs
      obtain ⟨p, hp, h⟩ := bind_eq_ok.1 h
      obtain ⟨n', hn', rfl⟩ := parent_eq_ok.1 hp
      rw [hn] at hn'
      cases hn'
      split at h
      · cases h
      · rename_i p hp
        obtain ⟨s, hshape, h⟩ := bind_eq_ok.1 h
        obtain ⟨k, hk, rfl⟩ := shape_eq_ok.1 hshape
        split at h
        · rename_i ds hlist
          cases h
          exact ⟨n, name, p, k, hn, hs, hp, hk, ds, hlist⟩
        · cases h
    · cases h
  · rintro ⟨n, name, p, k, hn, hs, hp, hk, ds, hlist⟩
    refine ⟨_, ⟨n, hn, rfl⟩, ?_⟩
    rw [hs]
    simp only
    rw [bind_of_ok _ (parent_of_get? hn), hp]
    simp only
    rw [bind_of_ok _ (shape_of_get? hk), hlist]
    rfl

end Evaluator

/-! ## 3. Trees that mirror each other -/

/-- Every node keeps its kind, has its firm children renamed, and keeps its
parent or gets one that holds statements as well. The node `old` may lose its
parent. What is new is a leaf. -/
structure Tree.Mirrors (σ : NodeId → NodeId) (old : NodeId) (t t' : Tree) : Prop where
  node : ∀ y n, t.get? y = some n → ∃ n', t'.get? y = some n' ∧ n.shape.Mirrors σ n'.shape
  parent : ∀ y n n', t.get? y = some n → t'.get? y = some n' → y ≠ old →
    n'.parent = n.parent ∨ ∃ h h' k k', n.parent = some h ∧ n'.parent = some h' ∧
      t.get? h = some k ∧ t'.get? h' = some k' ∧ k.shape.isBlock = true ∧ k'.shape.isBlock = true
  no_declaration : ∀ n name i, t.get? old = some n → n.shape ≠ .declaration name i
  later : ∀ y n, t.get? y = none → t'.get? y = some n → n.shape.IsLeaf
  fixes : ∀ y a, y.index < t.size → a.index < t.size → y ≠ old → (σ a = y ↔ a = y)

namespace Tree.Mirrors

variable {σ τ : NodeId → NodeId} {old y d i : NodeId} {ev ev' : Evaluator}

theorem node_of_get? {t t' : Tree} (h : t.Mirrors σ old t') {n n' : Node} (hn : t.get? y = some n)
    (hn' : t'.get? y = some n') : n.shape.Mirrors σ n'.shape := by
  obtain ⟨k, hk, hm⟩ := h.node y n hn
  rw [hn'] at hk
  cases hk
  exact hm

/-- What holds of a block before and after is not asked about declarations. -/
theorem parent_cases {t t' : Tree} (h : t.Mirrors σ old t') (hc : t.Closed Everywhere)
    {n n' : Node} (hn : t.get? y = some n) (hn' : t'.get? y = some n') (hne : y ≠ old) :
    (n.parent = none ∧ n'.parent = none) ∨ ∃ p p' k k', n.parent = some p ∧ n'.parent = some p' ∧
      t.get? p = some k ∧ t'.get? p' = some k' ∧
      (k.shape.Mirrors σ k'.shape ∨ k.shape.isBlock = true ∧ k'.shape.isBlock = true) := by
  rcases h.parent y n n' hn hn' hne with heq | ⟨p, p', k, k', hp, hp', hk, hk', hb⟩
  · cases hp : n.parent with
    | none => exact Or.inl ⟨rfl, heq.trans hp⟩
    | some p =>
      obtain ⟨k, hk⟩ := exists_get? (hc.parents y n p trivial hn hp).2
      obtain ⟨k', hk', hm⟩ := h.node p k hk
      exact Or.inr ⟨p, p, k, k', rfl, heq.trans hp, hk, hk', Or.inl hm⟩
  · exact Or.inr ⟨p, p', k, k', hp, hp', hk, hk', Or.inr hb⟩

section

variable (h : ev.tree.Mirrors σ old ev'.tree) (hc : ev.tree.Closed Everywhere)
include h hc

theorem isUse_iff (hpropagate : ev'.propagate = ev.propagate) (hy : y.index < ev.tree.size)
    (hne : y ≠ old) : ev'.isUse y = .ok true ↔ ev.isUse y = .ok true := by
  rw [Evaluator.isUse_eq_true, Evaluator.isUse_eq_true, hpropagate]
  refine and_congr_right fun _ => ?_
  obtain ⟨n, hn⟩ := exists_get? hy
  obtain ⟨n', hn', _⟩ := h.node y n hn
  rcases h.parent_cases hc hn hn' hne with ⟨hp, hp'⟩ | ⟨p, p', k, k', hp, hp', hk, hk', hrel⟩
  · simp [hn, hn', hp, hp']
  · have hname : (∀ i, k'.shape ≠ .declaration y i) ↔ ∀ i, k.shape ≠ .declaration y i := by
      rcases hrel with hm | ⟨hb, hb'⟩
      · have hfix : ∀ name i, k.shape = .declaration name i → (σ name = y ↔ name = y) := by
          intro name i hs
          refine h.fixes y name hy (hc.children p name trivial ⟨k, hk, ?_⟩).2 hne
          simp [hs]
        constructor
        · intro hno i hs
          exact hno _ (hm.declaration_iff.2 ⟨y, i, hs, (hfix y i hs).2 rfl, rfl⟩)
        · intro hno i hs
          obtain ⟨name, j, hs', hname, _⟩ := hm.declaration_iff.1 hs
          obtain rfl := (hfix name j hs').1 hname
          exact hno j hs'
      · constructor <;> intro _ i hs
        · rw [hs] at hb
          cases hb
        · rw [hs] at hb'
          cases hb'
    simp [hn, hn', hp, hp', hk, hk', hname]

omit h hc in
/-- A list of constants stays one, and a block is none. -/
theorem constantList_iff_of_related {k k' : Node}
    (hrel : k.shape.Mirrors σ k'.shape ∨ k.shape.isBlock = true ∧ k'.shape.isBlock = true) :
    (∃ ds, k'.shape = .declarationList .constant ds) ↔
      ∃ ds, k.shape = .declarationList .constant ds := by
  rcases hrel with hm | ⟨hb, hb'⟩
  · exact hm.constantList_iff
  · constructor
    · rintro ⟨ds, hs⟩
      rw [hs] at hb'
      cases hb'
    · rintro ⟨ds, hs⟩
      rw [hs] at hb
      cases hb

theorem initializer?_iff : ev'.initializer? d = .ok (some i) ↔
    ∃ j, ev.initializer? d = .ok (some j) ∧ σ j = i := by
  simp only [Evaluator.initializer?_eq_some]
  cases hn : ev.tree.get? d with
  | none =>
    simp only [reduceCtorEq, false_and, exists_false, iff_false]
    rintro ⟨n', name, _, _, hn', hs, _⟩
    rcases h.later d n' hn hn' with ⟨_, hl⟩ | hl <;> rw [hs] at hl <;> cases hl
  | some n =>
    obtain ⟨n', hn', hm⟩ := h.node d n hn
    by_cases hne : d = old
    · have hno : ∀ name i, n.shape ≠ .declaration name i := fun name i =>
        h.no_declaration n name i (hne ▸ hn)
      constructor
      · rintro ⟨m, name, _, _, hm', hs, _⟩
        rw [hn'] at hm'
        cases hm'
        obtain ⟨name₀, i₀, hs, _⟩ := hm.declaration_iff.1 hs
        exact absurd hs (hno _ _)
      · rintro ⟨j, ⟨m, name, _, _, hm', hs, _⟩, _⟩
        cases hm'
        exact absurd hs (hno _ _)
    · rcases h.parent_cases hc hn hn' hne with ⟨hp, hp'⟩ | ⟨p, p', k, k', hp, hp', hk, hk', hrel⟩
      · simp [hn', hp, hp']
      · have hlist := constantList_iff_of_related hrel
        constructor
        · rintro ⟨m, name, q, l, hm', hs, hq, hl, hds⟩
          rw [hn'] at hm'
          cases hm'
          rw [hp'] at hq
          cases hq
          rw [hk'] at hl
          cases hl
          obtain ⟨name₀, i₀, hs₀, _, hi⟩ := hm.declaration_iff.1 hs
          obtain ⟨j, rfl, hj⟩ := Option.map_eq_some_iff.1 hi
          exact ⟨j, ⟨n, name₀, p, k, rfl, hs₀, hp, hk, hlist.1 hds⟩, hj⟩
        · rintro ⟨j, ⟨m, name, q, l, hm', hs, hq, hl, hds⟩, rfl⟩
          cases hm'
          rw [hp] at hq
          cases hq
          rw [hk] at hl
          cases hl
          refine ⟨n', σ name, p', k', hn', ?_, hp', hk', hlist.2 hds⟩
          exact hm.declaration_iff.2 ⟨name, some j, hs, rfl, rfl⟩

/-- An identifier stands for the same constant. -/
theorem constantOf_eq (hpropagate : ev'.propagate = ev.propagate)
    (hsymbolAt : ev'.symbolAt = ev.symbolAt) (hy : y.index < ev.tree.size) (hne : y ≠ old) :
    ev'.constantOf y = (ev.constantOf y).map (Prod.map id σ) := by
  refine Option.ext fun e => ?_
  obtain ⟨d, i⟩ := e
  rw [Evaluator.constantOf_eq_some, h.isUse_iff hc hpropagate hy hne, Evaluator.constant?_eq_some,
    hsymbolAt, Option.map_eq_some_iff]
  constructor
  · rintro ⟨huse, symbol, hs, hk, hd, hi⟩
    obtain ⟨j, hj, hji⟩ := (h.initializer?_iff hc).1 hi
    refine ⟨(d, j), Evaluator.constantOf_eq_some.2 ⟨huse, ?_⟩, by simp [hji]⟩
    exact Evaluator.constant?_eq_some.2 ⟨symbol, hs, hk, hd, hj⟩
  · rintro ⟨⟨d', j⟩, hconst, heq⟩
    cases heq
    obtain ⟨huse, hconst⟩ := Evaluator.constantOf_eq_some.1 hconst
    obtain ⟨symbol, hs, hk, hd, hj⟩ := Evaluator.constant?_eq_some.1 hconst
    exact ⟨huse, symbol, hs, hk, hd, (h.initializer?_iff hc).2 ⟨j, hj, rfl⟩⟩

/-- A node looks the same, up to the renaming. -/
theorem look_eq (hpropagate : ev'.propagate = ev.propagate)
    (hsymbolAt : ev'.symbolAt = ev.symbolAt) (hy : y.index < ev.tree.size) (hne : y ≠ old) :
    ev'.look y = (ev.look y).map σ := by
  obtain ⟨n, hn⟩ := exists_get? hy
  obtain ⟨n', hn', hm⟩ := h.node y n hn
  have hconst := h.constantOf_eq hc hpropagate hsymbolAt hy hne
  rw [Evaluator.look, shape_of_get? hn', Evaluator.look, shape_of_get? hn]
  cases hb : n.shape.isBlock with
  | true =>
    have hb' := hm.isBlock.trans hb
    cases hs : n.shape <;> rw [hs] at hb <;> cases hb <;>
      (cases hs' : n'.shape <;> rw [hs'] at hb' <;> cases hb' <;> rfl)
  | false =>
    rw [hm.eq_map hb]
    cases n.shape with
    | unary op a => cases op <;> rfl
    | identifier name =>
      simp only [Shape.map, hconst]
      cases ev.constantOf y <;> rfl
    | _ => rfl

end

/-- What a view leads to is in the tree. -/
theorem lt_size_of_look {x : NodeId} (hc : ev.tree.Closed Everywhere)
    (hx : x ∈ (ev.look y).expressions) : x.index < ev.tree.size := by
  have hchild : ∀ {s : Shape NodeId}, ev.tree.shape y = .ok s → x ∈ s.children →
      x.index < ev.tree.size := by
    intro s hs hx
    exact (hc.children y x trivial (holds_of_shape hs hx)).2
  cases hl : ev.look y with
  | literal _ | nothing =>
    rw [hl] at hx
    cases hx
  | not a =>
    rw [hl] at hx
    exact hchild (Evaluator.shape_of_look_not hl) (by simpa [View.expressions] using hx)
  | binary a op b =>
    rw [hl] at hx
    exact hchild (Evaluator.shape_of_look_binary hl) (by simpa [View.expressions] using hx)
  | constant d i =>
    rw [hl] at hx
    obtain rfl := List.mem_singleton.1 hx
    obtain ⟨_, _, hconst⟩ := Evaluator.shape_of_look_constant hl
    obtain ⟨_, _, _, _, hi⟩ :=
      Evaluator.constant?_eq_some.1 (Evaluator.constantOf_eq_some.1 hconst).2
    obtain ⟨n, name, _, _, hn, hs, _⟩ := Evaluator.initializer?_eq_some.1 hi
    exact (hc.children d x trivial ⟨n, hn, by simp [hs]⟩).2

/-- Expressions have the same values before and after, if that holds of the
node that gave its slot away and of what took its place. -/
theorem yields_iff (h : ev.tree.Mirrors σ old ev'.tree) (hc : ev.tree.Closed Everywhere)
    (hpropagate : ev'.propagate = ev.propagate) (hsymbolAt : ev'.symbolAt = ev.symbolAt)
    (hτ : ∀ x, x.index < ev.tree.size → τ (σ x) = x)
    (hold : ∀ v, ev'.Yields (σ old) v ↔ ev.Yields old v) (hy : y.index < ev.tree.size) {v : Value} :
    ev'.Yields (σ y) v ↔ ev.Yields y v := by
  have hlook : ∀ x, x.index < ev.tree.size → x ≠ old →
      σ x = x ∧ ev'.look x = (ev.look x).map σ := fun x hx hne =>
    ⟨(h.fixes x x hx hx hne).2 rfl, h.look_eq hc hpropagate hsymbolAt hx hne⟩
  constructor
  · intro hv
    have htransfer : ev.Yields (τ (σ y)) v := Evaluator.Yields.transfer (f := τ)
      (P := fun z => ∃ x, x.index < ev.tree.size ∧ σ x = z) ?_ ⟨y, hy, rfl⟩ hv
    · rwa [hτ y hy] at htransfer
    · rintro _ ⟨x, hx, rfl⟩
      rw [hτ x hx]
      by_cases hne : x = old
      · subst hne
        exact Or.inl fun v => (hold v).1
      · obtain ⟨hfix, heq⟩ := hlook x hx hne
        rw [hfix, heq, View.map_map]
        refine Or.inr ⟨(View.map_eq_self fun z hz => hτ z (lt_size_of_look hc hz)).symm, ?_⟩
        intro z hz
        rw [View.expressions_map] at hz
        obtain ⟨a, ha, rfl⟩ := List.mem_map.1 hz
        exact ⟨a, lt_size_of_look hc ha, rfl⟩
  · refine Evaluator.Yields.transfer (P := fun x => x.index < ev.tree.size) (fun x hx => ?_) hy
    by_cases hne : x = old
    · subst hne
      exact Or.inl fun v => (hold v).2
    · obtain ⟨hfix, heq⟩ := hlook x hx hne
      rw [hfix]
      exact Or.inr ⟨heq, fun z hz => lt_size_of_look hc hz⟩

end Tree.Mirrors

end ScriptReduce
