/-
ScriptReduce.Proofs.Reduce.Faithful: evaluation during a run agrees with
evaluation before it.

Each step leaves a tree that mirrors the one before (`Step.mirrors`). When an
operator or an identifier gives way to a literal, expressions are renamed in
one place, and the literal has the value of what it replaces, unless that is
negative zero. When an `if` statement gives way, no place for an expression is
touched at all.

So from a well-formed tree on, a run whose folded values are all but negative
zero stays faithful to the start: every node keeps its kind, every place for
an expression has an occupant of the same value, and every node that still has
a parent has the value that it had (`Faithful`). This is the guide that
relates what a run does to the tree that it starts with (`faithfulGuide`).
-/
import ScriptReduce.Proofs.Evaluate.Mirror
import ScriptReduce.Proofs.Number.RoundTrip
import ScriptReduce.Proofs.Reduce.Termination
import ScriptReduce.Proofs.Reduce.Visit

namespace ScriptReduce

open ScriptReduce.Tree

variable {st : Setting} {t t' : Tree} {change : Change} {holder old : NodeId}
  {new : Option NodeId} {rank : NodeId → Nat} {limit : Nat}

/-! ## 1. Steps are moves -/

/-- A step moves one node out of its slot. -/
theorem Step.moves (h : Step st t change t') :
    ∃ holder, t.Linked holder change.node ∧ t.Moves holder change.node change.replacement t' := by
  cases h with
  | folded linked _ _ _ relinked => exact ⟨_, linked, .leaf (.inl ⟨_, rfl⟩) relinked⟩
  | selected linked shape _ chosen relinked =>
    exact ⟨_, linked, .branch shape (chosen_mem chosen) relinked⟩
  | dropped linked _ _ _ node vacates relinked => exact ⟨_, linked, .vacated node vacates relinked⟩
  | filled linked _ _ _ _ _ relinked => exact ⟨_, linked, .leaf (.inr rfl) relinked⟩

/-! ## 2. Steps mirror the tree -/

namespace Shape

variable {s : Shape NodeId}

theorem firm_replace (hnodup : s.children.Nodup) (old m : NodeId) :
    (s.exchange old (some m)).firm = s.firm.map (Prod.map id (swap old m)) := by
  rw [exchange, firm, spots_replace hnodup, List.filter_map]
  rfl

/-- A place for a statement is not firm. -/
theorem firm_exchange (hnodup : s.children.Nodup) {old : NodeId} {q : Place}
    (hold : (q, old) ∈ s.spots) (hq : q.isStatement = true) {new : Option NodeId}
    (hnew : new = none → s.vacate old ≠ none) : (s.exchange old new).firm = s.firm := by
  obtain ⟨A, B, hs⟩ := List.append_of_mem hold
  rw [firm, spots_exchange hnodup hs hnew, firm, hs]
  cases new <;> simp [hq]

theorem isBlock_of_statement {s : Shape NodeId} {q : Place} {x : NodeId}
    (hx : (q, x) ∈ s.spots) (hq : q.isStatement = true) : s.isBlock = true := by
  by_contra hb
  rw [← firm_eq_spots (by simpa using hb), mem_firm, hq] at hx
  cases hx.2

end Shape

/-- A firm child has one holder. -/
theorem Tree.Orderly.ne_of_firm (ho : t.Orderly) (hl : t.Linked holder old) {y : NodeId} {n : Node}
    (hn : t.get? y = some n) (hy : y ≠ holder) {e : Place × NodeId} (he : e ∈ n.shape.firm) :
    e.2 ≠ old := by
  rintro heq
  obtain ⟨hspot, hq⟩ := Shape.mem_firm.1 he
  obtain ⟨k, hk, hp⟩ := hl.2
  exact hy (up_unique (heq ▸ ho.up_of_firm hn hspot hq) ⟨k, hk, hp⟩)

/-- Where a leaf takes the slot of a node that is no declaration, expressions
are renamed in one place. -/
theorem Tree.Orderly.mirrors_leaf (ho : t.Orderly) (hl : t.Linked holder old)
    (hdecl : ∀ n name i, t.get? old = some n → n.shape ≠ .declaration name i)
    (hm : t.Moves holder old (some t.next) t') : t.Mirrors (Shape.swap old t.next) old t' where
  node y n hn := by
    refine ⟨_, hm.get?_of_some hn, bare_relink _ _ _ _ _, ?_⟩
    by_cases hy : y = holder
    · subst hy
      simp only [relink, if_pos]
      exact Shape.firm_replace (ho.once y n hn) old t.next
    · simp only [relink, if_neg hy]
      refine ((List.map_congr_left fun e he => ?_).trans (List.map_id _)).symm
      rw [Prod.map, Shape.swap_of_ne (ho.ne_of_firm hl hn hy he)]
      rfl
  parent y n n' hn hn' hne := by
    rw [hm.get?_of_some hn] at hn'
    cases hn'
    have hy : y ≠ t.next := ne_next_of_get? hn
    exact Or.inl (by simp [relink, hne, hy])
  no_declaration := hdecl
  later y n hn hn' := (hm.get?_of_none hl hn hn').2
  fixes y a hy ha hne := by
    unfold Shape.swap
    split
    · rename_i heq
      rw [heq]
      exact ⟨fun h => absurd h.symm (ne_next hy), fun h => absurd h.symm hne⟩
    · exact Iff.rfl

/-- Where an `if` statement gives up its slot, no expression is touched. -/
theorem Tree.Orderly.mirrors_branch (ho : t.Orderly) (hl : t.Linked holder old)
    {c a : NodeId} {b : Option NodeId} (hs : t.shape old = .ok (.branch c a b))
    (hm : t.Moves holder old new t') : t.Mirrors id old t' where
  node y n hn := by
    refine ⟨_, hm.get?_of_some hn, bare_relink _ _ _ _ _, ?_⟩
    rw [Prod.map_id, List.map_id]
    by_cases hy : y = holder
    · subst hy
      simp only [relink, if_pos]
      obtain ⟨k, hk, hmem⟩ := hl.1
      rw [hn] at hk
      cases hk
      obtain ⟨q, hq⟩ := Shape.mem_children_iff.1 hmem
      exact Shape.firm_exchange (ho.once y n hn) hq (ho.branches y n q old c a b hn hq hs)
        (hm.exchanges hn)
    · simp only [relink, if_neg hy]
  parent y n n' hn hn' hne := by
    rw [hm.get?_of_some hn] at hn'
    cases hn'
    by_cases hnew : some y = new
    · rcases hm.new_cases ho.joined hl hnew.symm with ⟨rfl, _⟩ | ⟨⟨n₁, hn₁, hp⟩, _⟩
      · exact absurd rfl (ne_next_of_get? hn)
      rw [hn] at hn₁
      cases hn₁
      obtain ⟨m, hm', hshape⟩ := shape_eq_ok.1 hs
      obtain ⟨k, hk, hmem⟩ := hl.1
      obtain ⟨q, hq⟩ := Shape.mem_children_iff.1 hmem
      refine Or.inr ⟨old, holder, m, _, hp, by simp [relink, hne, hnew], hm', hm.get?_of_some hk,
        by rw [hshape]; rfl, ?_⟩
      rw [Shape.isBlock_of_bare (bare_relink _ _ _ _ _)]
      exact Shape.isBlock_of_statement hq (ho.branches holder k q old c a b hk hq hs)
    · exact Or.inl (by simp [relink, hne, hnew])
  no_declaration n name i hn := by
    rw [shape_of_get? hn] at hs
    rw [Except.ok.inj hs]
    simp
  later y n hn hn' := (hm.get?_of_none hl hn hn').2
  fixes _ _ _ _ _ := Iff.rfl

/-! ## 3. Steps keep values -/

/-- Whether the literal of a change has the value that it stands for. Negative
zero is written as zero. -/
def Change.Safe : Change → Prop
  | .folded _ _ v => v.isNegativeZero = false
  | _ => True

instance : DecidablePred Change.Safe
  | .folded _ _ v => inferInstanceAs (Decidable (v.isNegativeZero = false))
  | .selected _ _ | .dropped _ _ => .isTrue trivial

theorem not_yields_of_branch {ev : Evaluator} {id c a : NodeId} {b : Option NodeId}
    (hs : ev.tree.shape id = .ok (.branch c a b)) (v : Value) : ¬ev.Yields id v :=
  Evaluator.Yields.not_nothing (by rw [Evaluator.look, hs])

/-- A step at an `if` statement keeps all values. -/
theorem yields_of_branch (ho : t.Orderly) (hc : t.Closed Everywhere) (hl : t.Linked holder old)
    {c a : NodeId} {b : Option NodeId} (hs : t.shape old = .ok (.branch c a b))
    (hm : t.Moves holder old new t') {y : NodeId} (hy : y.index < t.size) {v : Value} :
    (st.evaluator t').Yields y v ↔ (st.evaluator t).Yields y v := by
  have hmirrors := ho.mirrors_branch hl hs hm
  obtain ⟨n, hn, hshape⟩ := shape_eq_ok.1 hs
  obtain ⟨n', hn', hm'⟩ := hmirrors.node old n hn
  have hb := hm'.bare
  rw [hshape] at hb
  obtain ⟨c', a', b', hshape'⟩ := Shape.bare_eq_branch.1 hb
  have hs' : t'.shape old = .ok (.branch c' a' b') := by rw [shape_of_get? hn', hshape']
  have hmirrors' : (st.evaluator t).tree.Mirrors id old (st.evaluator t').tree := hmirrors
  refine hmirrors'.yields_iff (τ := id) hc rfl rfl (fun _ _ => rfl) (fun v => ?_) hy
  exact iff_of_false (not_yields_of_branch hs' v) (not_yields_of_branch hs v)

/-- A fold keeps all values, if its literal has the value that it stands for. -/
theorem yields_of_folded (ho : t.Orderly) (hc : t.Closed Everywhere) (hl : t.Linked holder old)
    {site : Bool} {v₀ : Value} {l : Literal} (hfolds : Folds st t site old v₀)
    (hliteral : v₀.toLiteral? = some l) (hsafe : v₀.isNegativeZero = false)
    (hr : (t.withLiteral l).Relinked holder old (some t.next) t') :
    t.Mirrors (Shape.swap old t.next) old t' ∧ ∀ y, y.index < t.size → ∀ v,
      (st.evaluator t').Yields (Shape.swap old t.next y) v ↔ (st.evaluator t).Yields y v := by
  obtain ⟨hy₀, s, hs, hkind⟩ := hfolds
  have hm : t.Moves holder old (some t.next) t' := .leaf (.inl ⟨l, rfl⟩) hr
  have hdecl : ∀ n name i, t.get? old = some n → n.shape ≠ .declaration name i := by
    intro n name i hn hdecl
    rw [shape_of_get? hn] at hs
    rw [← Except.ok.inj hs, hdecl] at hkind
    exact hkind
  have hmirrors := ho.mirrors_leaf hl hdecl hm
  have hlook : (st.evaluator t').look t.next = .literal l := by
    obtain ⟨⟨k, hk, _⟩, _⟩ := hl
    have hne : t.next ≠ holder := (ne_next_of_get? hk).symm
    have hget : t'.get? t.next
        = some (relink holder old (some t.next) t.next ⟨.literal l, none, none⟩) := by
      rw [hr.get, Tree.withLiteral, get?_push_next]
      rfl
    exact Evaluator.look_of_literal ((shape_of_get? hget).trans (by simp [relink, hne]))
  have hvalue := (Value.ofLiteral?_toLiteral?_iff hliteral).2 hsafe
  refine ⟨hmirrors, fun y hy v => ?_⟩
  have hmirrors' : (st.evaluator t).tree.Mirrors (Shape.swap old t.next) old
    (st.evaluator t').tree := hmirrors
  refine hmirrors'.yields_iff (τ := Shape.swap t.next old) hc rfl rfl (fun x hx => ?_)
    (fun v => ?_) hy
  · by_cases hx' : x = old
    · rw [hx', Shape.swap_self, Shape.swap_self]
    · have hnext : x ≠ t.next := ne_next hx
      rw [Shape.swap_of_ne hx', Shape.swap_of_ne hnext]
  · rw [Shape.swap_self]
    constructor
    · intro hv
      have := hv.of_literal hlook
      rw [hvalue] at this
      cases this
      exact hy₀
    · intro hv
      rw [← hy₀.unique hv]
      exact .literal hlook hvalue

/-- A safe step mirrors the tree and keeps all values. -/
theorem Step.mirrors (h : Step st t change t') (ho : t.Orderly) (hc : t.Closed Everywhere)
    (hsafe : change.Safe) : ∃ σ, t.Mirrors σ change.node t' ∧ ∀ y, y.index < t.size → ∀ v,
      (st.evaluator t').Yields (σ y) v ↔ (st.evaluator t).Yields y v := by
  obtain ⟨holder, hl, hm⟩ := h.moves
  have hbranch : ∀ {c a : NodeId} {b : Option NodeId},
      t.shape change.node = .ok (.branch c a b) → ∃ σ, t.Mirrors σ change.node t' ∧
        ∀ y, y.index < t.size → ∀ v,
          (st.evaluator t').Yields (σ y) v ↔ (st.evaluator t).Yields y v := fun hs =>
    ⟨id, ho.mirrors_branch hl hs hm, fun _ hy _ => yields_of_branch ho hc hl hs hm hy⟩
  cases h with
  | folded linked _ folds literal relinked =>
    exact ⟨_, yields_of_folded ho hc linked folds literal hsafe relinked⟩
  | selected _ shape | dropped _ shape | filled _ shape => exact hbranch shape

/-! ## 4. Faithful trees -/

/-- A tree that came about by a run agrees with the tree that the run started
with. -/
structure Faithful (st : Setting) (t₀ t : Tree) : Prop where
  orderly : t.Orderly
  graded : t.Graded Everywhere t₀.rank t₀.size
  kind : ∀ x n₀, t₀.get? x = some n₀ → ∃ n, t.get? x = some n ∧ n.shape.bare = n₀.shape.bare
  /-- Each place for an expression has an occupant of the same value. -/
  occupants : ∀ x n₀ n, t₀.get? x = some n₀ → t.get? x = some n →
    List.Forall₂ (fun e e₀ => e.1 = e₀.1 ∧
      ∀ v, (st.evaluator t).Yields e.2 v ↔ (st.evaluator t₀).Yields e₀.2 v)
      n.shape.firm n₀.shape.firm
  /-- What still has a parent has the value that it had. -/
  values : ∀ x p v, x.index < t₀.size → t.Up x p →
    ((st.evaluator t).Yields x v ↔ (st.evaluator t₀).Yields x v)

namespace Faithful

variable {t₀ : Tree}

/-- A well-formed tree agrees with itself. -/
theorem refl (st : Setting) (h : t₀.WellFormed) : Faithful st t₀ t₀ where
  orderly := h.orderly
  graded := h.graded
  kind _ n₀ hn₀ := ⟨n₀, hn₀, rfl⟩
  occupants x n₀ n hn₀ hn := by
    rw [hn₀] at hn
    cases hn
    exact List.forall₂_same.2 fun _ _ => ⟨rfl, fun _ => Iff.rfl⟩
  values _ _ _ _ _ := Iff.rfl

/-- A safe step keeps a tree faithful. -/
theorem step (h : Faithful st t₀ t) (hsafe : change.Safe)
    (hlive : ∀ holder, t.Linked holder change.node → Live t holder) (hs : Step st t change t') :
    Faithful st t₀ t' := by
  have hc := h.graded.toClosed
  obtain ⟨holder, hl, hm⟩ := hs.moves
  obtain ⟨σ, hmirrors, hyields⟩ := hs.mirrors h.orderly hc hsafe
  refine ⟨h.orderly.moves h.graded hl (hlive holder hl) hm, (hs.graded h.graded trivial).1,
    fun x n₀ hn₀ => ?_, fun x n₀ n' hn₀ hn' => ?_, fun x p v hx hup => ?_⟩
  · obtain ⟨n, hn, hb⟩ := h.kind x n₀ hn₀
    obtain ⟨n', hn', hm'⟩ := hmirrors.node x n hn
    exact ⟨n', hn', hm'.bare.trans hb⟩
  · obtain ⟨n, hn, _⟩ := h.kind x n₀ hn₀
    rw [(hmirrors.node_of_get? hn hn').firm, List.forall₂_map_left_iff]
    have hinside : ∀ e ∈ n.shape.firm, e.2.index < t.size := fun e he =>
      (hc.children x e.2 trivial
        ⟨n, hn, Shape.mem_children_of_mem_spots (Shape.mem_firm.1 he).1⟩).2
    refine ((List.forall₂_and_left _ _).2 ⟨hinside, h.occupants x n₀ n hn₀ hn⟩).imp ?_
    rintro e e₀ ⟨hlt, hplace, hvalue⟩
    exact ⟨hplace, fun v => (hyields e.2 hlt v).trans (hvalue v)⟩
  · have hlt : x.index < t.size := Nat.lt_of_lt_of_le hx h.graded.limit_le
    obtain ⟨n, hn⟩ := exists_get? hlt
    obtain ⟨n', hn', hp⟩ := hup
    rw [hm.get?_of_some hn] at hn'
    cases hn'
    have hne : x ≠ change.node := by
      rintro rfl
      simp [relink] at hp
    have hup : ∃ q, t.Up x q := by
      by_cases hnew : some x = change.replacement
      · rcases hm.new_cases h.orderly.joined hl hnew.symm with ⟨rfl, _⟩ | ⟨hup, _⟩
        · exact absurd rfl (ne_next_of_get? hn)
        · exact ⟨_, hup⟩
      · exact ⟨p, n, hn, by simpa [relink, hne, hnew] using hp⟩
    obtain ⟨q, hup⟩ := hup
    rw [← h.values x q v hx hup, ← hyields x hlt v, (hmirrors.fixes x x hlt hlt hne).2 rfl]

end Faithful

/-! ## 5. The guide of a run -/

section

variable {t₀ : Tree}

/-- The kind of a node is the kind that it had at the start, or it is a new
leaf. -/
theorem Faithful.shape_cases (h : Faithful st t₀ t) {x : NodeId} {n : Node}
    (hn : t.get? x = some n) :
    (∃ n₀, t₀.get? x = some n₀ ∧ n.shape.bare = n₀.shape.bare) ∨
      t₀.get? x = none ∧ n.shape.IsLeaf := by
  cases hn₀ : t₀.get? x with
  | none =>
    refine Or.inr ⟨rfl, h.graded.leaf x n ?_ hn⟩
    by_contra hlt
    obtain ⟨n₀, hn₀'⟩ := exists_get? (Nat.not_le.1 hlt)
    rw [hn₀] at hn₀'
    cases hn₀'
  | some n₀ =>
    obtain ⟨n', hn', hb⟩ := h.kind x n₀ hn₀
    rw [hn] at hn'
    cases hn'
    exact Or.inl ⟨n₀, rfl, hb⟩

theorem Faithful.folds_iff (h : Faithful st t₀ t) {id p : NodeId} {site : Bool} {v : Value}
    (hp : t.parent id = .ok (some p)) : Folds st t site id v ↔ Folds st t₀ site id v := by
  obtain ⟨n, hn, hparent⟩ := parent_eq_ok.1 hp
  unfold Folds
  rcases h.shape_cases hn with ⟨n₀, hn₀, hb⟩ | ⟨hn₀, hleaf⟩
  · rw [h.values id p v (lt_size_of_get? hn₀) ⟨n, hn, hparent⟩, shape_of_get? hn,
      shape_of_get? hn₀]
    simp [← st.mayFold_bare site n.shape, hb, st.mayFold_bare]
  · constructor
    · rintro ⟨_, s, hs, hkind⟩
      rw [shape_of_get? hn] at hs
      cases hs
      rcases hleaf with ⟨l, hl⟩ | hl <;> rw [hl] at hkind <;> cases hkind
    · rintro ⟨_, s, hs, _⟩
      obtain ⟨n₀, hn₀', _⟩ := shape_eq_ok.1 hs
      rw [hn₀] at hn₀'
      cases hn₀'

/-- The condition of an `if` statement has the value that it had. -/
theorem Faithful.condition_iff (h : Faithful st t₀ t) {id c a c₀ a₀ : NodeId}
    {b b₀ : Option NodeId} (hs : t.shape id = .ok (.branch c a b))
    (hs₀ : t₀.shape id = .ok (.branch c₀ a₀ b₀)) {v : Value} :
    (st.evaluator t).Yields c v ↔ (st.evaluator t₀).Yields c₀ v := by
  obtain ⟨n, hn, hshape⟩ := shape_eq_ok.1 hs
  obtain ⟨n₀, hn₀, hshape₀⟩ := shape_eq_ok.1 hs₀
  have hfirm : ∀ (c a : NodeId) (b : Option NodeId),
      (Shape.branch c a b).firm = [(Place.expression, c)] := by
    intro c a b
    cases b <;> rfl
  have hoccupants := h.occupants id n₀ n hn₀ hn
  rw [hshape, hshape₀, hfirm, hfirm, List.forall₂_cons] at hoccupants
  exact hoccupants.1.2 v

theorem Faithful.decides_iff (h : Faithful st t₀ t) {id p : NodeId} {v : Value}
    (hp : t.parent id = .ok (some p)) : Decides st t id v ↔ Decides st t₀ id v := by
  obtain ⟨n, hn, _⟩ := parent_eq_ok.1 hp
  constructor
  · rintro ⟨c, a, b, hs, hv, hon⟩
    rw [shape_of_get? hn] at hs
    rcases h.shape_cases hn with ⟨n₀, hn₀, hb⟩ | ⟨_, hleaf⟩
    · rw [Except.ok.inj hs] at hb
      obtain ⟨c₀, a₀, b₀, hshape₀⟩ := Shape.bare_eq_branch.1 hb.symm
      have hs₀ : t₀.shape id = .ok (.branch c₀ a₀ b₀) := by rw [shape_of_get? hn₀, hshape₀]
      rw [← shape_of_get? hn] at hs
      exact ⟨c₀, a₀, b₀, hs₀, (h.condition_iff hs hs₀).1 hv, hon⟩
    · rcases hleaf with ⟨l, hl⟩ | hl <;> rw [hl] at hs <;> cases hs
  · rintro ⟨c₀, a₀, b₀, hs₀, hv, hon⟩
    obtain ⟨n₀, hn₀, hshape₀⟩ := shape_eq_ok.1 hs₀
    obtain ⟨n', hn', hb⟩ := h.kind id n₀ hn₀
    rw [hshape₀] at hb
    obtain ⟨c, a, b, hshape⟩ := Shape.bare_eq_branch.1 hb
    have hs : t.shape id = .ok (.branch c a b) := by rw [shape_of_get? hn', hshape]
    exact ⟨c, a, b, hs, (h.condition_iff hs hs₀).2 hv, hon⟩

/-- What a run does is guided by the tree that it starts with, as long as no
negative zero is folded. -/
def faithfulGuide (st : Setting) (t₀ : Tree) : Guide st t₀ where
  Inv := Faithful st t₀
  Safe := Change.Safe
  step h hsafe hlive hs := h.step hsafe hlive hs
  folds h hp := h.folds_iff hp
  decides h hp := h.decides_iff hp

end

end ScriptReduce
