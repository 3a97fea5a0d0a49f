/-
ScriptReduce.Proofs.Reduce.Diagnosed: what becomes of a node that is diagnosed.

Every diagnostic was owed at some moment of the run (`Runs.owed`). In a tree that
hangs together that means that its node was offered for reduction then and had a
value that no literal stands for. The node is left alone, but the walk goes on
below it. So `f((1 + 2) / 0)` becomes `f(3 / 0)`, with the division diagnosed
(`optimize_changes_diagnosed`).

`optimize_keeps_diagnosed` says when the subtree of a diagnosed node is as it was:
if and only if nothing below the node has given way. For the one direction,
slots below the node can only have changed if an occupant gave way, since what is
now behind them was below the node before. For the other, what gives way below
the node was held by something below it or by the node itself, which gets lighter
and never regains its weight. Only an `if` statement lets what was below it be
held from above, and a diagnosed node is none.
-/
import ScriptReduce.Proofs.Reduce.References
import ScriptReduce.Proofs.Reduce.Reported

namespace ScriptReduce

open ScriptReduce.Tree Relation

variable {st : Setting} {D : NodeId → Prop} {rank : NodeId → Nat} {t t' t₀ t₁ : Tree}
  {c c' c₁ : Context} {w w' : Walk} {change : Change} {changes : List Change} {d : Diagnostic}
  {a g id x y : NodeId} {r : Reduction} {v : Value}

/-! ## 1. Reports are owed -/

/-- Every diagnostic of some runs of the pass was owed at a moment of them. -/
theorem Runs.owed {symbolAt : Resolver} {options : Options}
    (h : Runs t (.start symbolAt options) t₁ c₁) (hd : d ∈ c₁.diagnostics) :
    ∃ w, Along t (.start symbolAt options) t₁ c₁ w d.node ∧
      Owed w.context.setting w.tree d.node d.kind := by
  obtain ⟨w, x, r, w₁, halong, hreduced, hnew, hd⟩ :=
    h.loses (A := fun _ c => d ∉ c.diagnostics) List.not_mem_nil (not_not_intro hd)
  rcases (Walk.reduce_tells hreduced).mem_diagnostics (not_not.1 hd) with hd | ⟨rfl, howed⟩
  · exact absurd hd hnew
  · exact ⟨w, halong, howed⟩

/-! ## 2. Values without a literal -/

/-- A node folds to a value that no literal stands for. -/
def Inexpressible (st : Setting) (t : Tree) (x : NodeId) : Prop :=
  ∃ site v, Folds st t site x v ∧ v.toLiteral? = none

theorem Owed.inexpressible {kind : DiagnosticKind} (h : Owed st t x kind)
    (hkind : kind = .unmaterializableLiteral) : Inexpressible st t x := by
  cases h with
  | @folds site v _ hfolds =>
    refine ⟨site, v, hfolds, ?_⟩
    cases hl : v.toLiteral? with
    | none => rfl
    | some l =>
      rw [Value.obstacle_of_literal hl] at hkind
      cases hkind
  | decides => cases hkind

/-- What folds at some moment was no `if` statement at the start. -/
theorem Inexpressible.not_isBranch (h : Inexpressible st t' x) (hgrows : t.Grows t') :
    ¬t.IsBranch x := by
  rintro ⟨c, a, b, hs⟩
  obtain ⟨site, v, ⟨-, s, hs', hmay⟩, -⟩ := h
  obtain ⟨n, hn, hshape⟩ := shape_eq_ok.1 hs
  obtain ⟨n', hn', hb, -⟩ := hgrows.kept x n hn
  rw [shape_of_get? hn'] at hs'
  rw [← Except.ok.inj hs', ← Setting.mayFold_bare, hb, Setting.mayFold_bare, hshape] at hmay
  exact hmay

/-! ## 3. Subtrees -/

/-- A node and all that is below it have the shapes that they had. -/
def Tree.SameBelow (t t' : Tree) (a : NodeId) : Prop := ∀ x, t.Reaches a x → t'.shape x = t.shape x

theorem Tree.HoldsThrough.transGen (h : t.HoldsThrough g x) : TransGen t.Holds g x := by
  induction h with
  | direct holds => exact .single holds
  | behind _ _ holds ih => exact ih.tail holds

theorem Tree.GivesWay.lt_size {options : Options} (h : t.GivesWay options x) :
    x.index < t.size := by
  obtain ⟨s, hs, -⟩ := h
  exact lt_size_of_shape hs

namespace Steps

/-- The shape of a node changes only if something below the node gives way. -/
theorem exists_below (h : Steps st D t changes t') (hg : t.Graded Everywhere rank t.size)
    (hx : x.index < t.size) (hne : t'.shape x ≠ t.shape x) :
    ∃ change ∈ changes, TransGen t.Holds x change.node := by
  obtain ⟨n, hn⟩ := exists_get? hx
  induction h with
  | start => exact absurd rfl hne
  | vain l steps ih =>
    obtain ⟨k, hk, -⟩ := steps.grows.kept x n hn
    refine ih fun heq => hne ?_
    rw [← heq, shape_of_get? hk, Tree.withLiteral, shape_of_get?]
    rw [get?_push_of_ne (ne_next_of_get? hk), hk]
  | @next changes change u t' steps _ step ih =>
    by_cases heq : u.shape x = t.shape x
    · -- the last step has given away a slot of the node
      obtain ⟨k, hk, -⟩ := steps.grows.kept x n hn
      obtain ⟨n', hn', -⟩ := step.grows.kept x k hk
      obtain ⟨holder, hholds, hlight⟩ := step.lightens (steps.graded hg)
      have hholder : x = holder := by
        by_contra hother
        rw [← heq, shape_of_get? hn', shape_of_get? hk, (hlight x k n' hk hn').1 hother] at hne
        exact hne rfl
      subst hholder
      have hgives := (steps.graded hg).givesWay steps.grows step.givesWay
      have hthrough := steps.holdsThrough hg hgives.lt_size hholds
      exact ⟨change, List.mem_cons_self, hthrough.transGen⟩
    · obtain ⟨change', hchange, hbelow⟩ := ih heq
      exact ⟨change', List.mem_cons_of_mem _ hchange, hbelow⟩

/-- What gives way below a node that is no `if` statement leaves that node or one
below it lighter than it was. -/
theorem lighter_below (h : Steps st D t changes t') (hg : t.Graded Everywhere rank t.size)
    (ht : t.Consistent) (ha : ¬t.IsBranch a) (hchange : change ∈ changes)
    (hbelow : TransGen t.Holds a change.node) :
    ∃ g n n', t.Reaches a g ∧ t.get? g = some n ∧ t'.get? g = some n' ∧
      n'.shape.load rank < n.shape.load rank := by
  induction h with
  | start => cases hchange
  | vain l _ ih =>
    obtain ⟨g, n, k, hag, hn, hk, hlt⟩ := ih hchange
    refine ⟨g, n, k, hag, hn, ?_, hlt⟩
    rw [Tree.withLiteral, get?_push_of_ne (ne_next_of_get? hk), hk]
  | @next _ _ u t' steps inside step ih =>
    rcases List.mem_cons.1 hchange with rfl | hchange
    · have hgu := steps.graded hg
      obtain ⟨holder, ⟨k, hk, hmem⟩, hlight⟩ := step.lightens hgu
      have hgives := hgu.givesWay steps.grows step.givesWay
      have hthrough := steps.holdsThrough hg hgives.lt_size ⟨k, hk, hmem⟩
      have hag : t.Reaches a holder := by
        refine hthrough.reaches_of_reaches (fun _ _ _ => ht.holder_eq) ha hbelow.to_reflTransGen ?_
        rintro rfl
        exact ht.acyclic _ hbelow
      obtain ⟨n, hn⟩ := exists_get? hthrough.lt_size
      obtain ⟨n', hn', -⟩ := step.grows.kept holder k hk
      have hlt := (hlight holder k n' hk hn').2 rfl
      have hle := steps.load_le hg holder n k hn hk
      exact ⟨holder, n, n', hag, hn, hn', Nat.lt_of_lt_of_le hlt hle⟩
    · obtain ⟨g, n, k, hag, hn, hk, hlt⟩ := ih hchange
      obtain ⟨n', hn', -⟩ := step.grows.kept g k hk
      have hlast : Steps st D u [_] t' := .next .start inside step
      have hle := hlast.load_le (steps.graded hg) g k n' hk hn'
      exact ⟨g, n, n', hag, hn, hn', Nat.lt_of_le_of_lt hle hlt⟩

/-- The subtree of a node that is no `if` statement is as it was if and only if
nothing below the node has given way. -/
theorem sameBelow_iff (h : Steps st D t changes t') (hg : t.Graded Everywhere rank t.size)
    (ht : t.Consistent) (ha : ¬t.IsBranch a) (hlt : a.index < t.size) :
    t.SameBelow t' a ↔ ∀ change ∈ changes, ¬TransGen t.Holds a change.node := by
  constructor
  · intro hsame change hchange hbelow
    obtain ⟨g, n, n', hag, hn, hn', hload⟩ := h.lighter_below hg ht ha hchange hbelow
    have heq := hsame g hag
    rw [shape_of_get? hn, shape_of_get? hn'] at heq
    rw [Except.ok.inj heq] at hload
    exact Nat.lt_irrefl _ hload
  · intro hno x hx
    by_contra hne
    have hinside : t.Inside Everywhere a := ⟨trivial, hlt⟩
    obtain ⟨change, hchange, hbelow⟩ :=
      h.exists_below hg (hinside.of_reaches ht.closed hx).2 hne
    exact hno change hchange (TransGen.trans_right hx hbelow)

end Steps

/-! ## 4. Optimizations -/

/-- In a tree that hangs together no slot is ever missed, so only values without
a literal are reported. -/
theorem Tree.Consistent.runs_unmaterializable (ht : t.Consistent) {symbolAt : Resolver}
    {options : Options} (h : Runs t (.start symbolAt options) t₁ c₁) :
    ∀ d ∈ c₁.diagnostics, d.kind = .unmaterializableLiteral := by
  obtain ⟨parent, T, hT⟩ := ht.exists_presents
  suffices hruns : (∃ T, t₁.Presents parent T) ∧
      ∀ d ∈ c₁.diagnostics, d.kind = .unmaterializableLiteral from hruns.2
  induction h with
  | start => exact ⟨⟨T, hT⟩, fun d hd => by cases hd⟩
  | again _ run ih =>
    obtain ⟨⟨T₁, hT₁⟩, hkinds⟩ := ih
    obtain ⟨T', news, hran, -⟩ := foldConstants_presents (.blind _ _) rfl (Nat.le_refl _) hT₁ run
    exact ⟨⟨T', hran.presents⟩,
      fun d hd => (hran.follows.diagnostics d hd).elim (hkinds d) fun hkind => hkind⟩

/-- What becomes of a node that is diagnosed. At some moment it was offered for
reduction and folded to a value without a literal. Its subtree is as it was if
and only if nothing below it has given way; so it is if nothing below it is what
the options allow to give way. There is a result, unless a symbol names a
declaration that is no node of the tree. -/
theorem optimize_keeps_diagnosed (ht : t.Consistent) (symbolAt : Resolver) (options : Options) :
    (symbolAt.Within t → ∃ t' c', optimize t symbolAt options = .ok (t', c')) ∧
    ∀ t' c', optimize t symbolAt options = .ok (t', c') → ∀ d ∈ c'.diagnostics,
      d.kind = .unmaterializableLiteral ∧
      (∃ t₁ c₁ w, Runs t (.start symbolAt options) t₁ c₁ ∧ Moment t₁ c₁ w d.node ∧
        Inexpressible ⟨symbolAt, options⟩ w.tree d.node) ∧
      (t.SameBelow t' d.node ↔ ∀ change ∈ c'.changes, ¬TransGen t.Holds d.node change.node) ∧
      ((∀ x, TransGen t.Holds d.node x → ¬t.GivesWay options x) → t.SameBelow t' d.node) := by
  have hg := ht.graded
  have hroot : ∀ r, t.root = some r → t.Inside Everywhere r := fun _ => inside_of_root ht.root
  constructor
  · intro hw
    exact hg.exists_optimize (fun r hr => (hroot r hr).2) hw options
  · intro t' c' hrun d hd
    have hsteps := optimize_steps hg t.encloses_everywhere hroot hrun
    -- the warning at the end is no diagnostic
    obtain ⟨changed, t₁, c₁, c₂, hruns, hlast, rfl⟩ := optimize_lastRun hrun
    have hd₂ : d ∈ c₂.diagnostics := by
      cases changed <;> exact hd
    have hkind := ht.runs_unmaterializable (hruns.again hlast) d hd₂
    obtain ⟨w, halong, howed⟩ := (hruns.again hlast).owed hd₂
    have hfolds := howed.inexpressible hkind
    obtain ⟨hongoing, _, hbefore⟩ := halong.before ⟨hg, rfl, rfl⟩ hroot
    obtain ⟨t₃, c₃, _, _, _, hruns₃, hmoment, -⟩ := halong
    rw [hongoing.setting] at hfolds
    have hnot := hfolds.not_isBranch hbefore.grows
    have hinside : d.node.index < t.size := by
      obtain ⟨_, _, ⟨-, s, hs, hmay⟩, -⟩ := hfolds
      exact hongoing.graded.lt_limit_of_not_leaf hs hmay.displaces.not_isLeaf
    have hsame := hsteps.sameBelow_iff hg ht hnot hinside
    refine ⟨hkind, ⟨t₃, c₃, w, hruns₃, hmoment, hfolds⟩, hsame, fun hplain => hsame.2 ?_⟩
    intro change hchange hbelow
    exact hplain _ hbelow (hsteps.givesWay hg change hchange)

namespace Sample

/-- The program `f(1 / 0, (1 + 2) / 0);`. -/
def overflowing : Tree where
  nodes := #[
    ⟨.literal (.numeric "1"), some ⟨2⟩, none⟩,
    ⟨.literal (.numeric "0"), some ⟨2⟩, none⟩,
    ⟨.binary ⟨0⟩ .divide ⟨1⟩, some ⟨9⟩, none⟩,
    ⟨.literal (.numeric "1"), some ⟨5⟩, none⟩,
    ⟨.literal (.numeric "2"), some ⟨5⟩, none⟩,
    ⟨.binary ⟨3⟩ .plus ⟨4⟩, some ⟨7⟩, none⟩,
    ⟨.literal (.numeric "0"), some ⟨7⟩, none⟩,
    ⟨.binary ⟨5⟩ .divide ⟨6⟩, some ⟨9⟩, none⟩,
    ⟨.identifier "f", some ⟨9⟩, none⟩,
    ⟨.call ⟨8⟩ [⟨2⟩, ⟨7⟩], some ⟨10⟩, none⟩,
    ⟨.expressionStatement ⟨9⟩, some ⟨11⟩, none⟩,
    ⟨.sourceFile [⟨10⟩], none, none⟩]
  root := some ⟨11⟩

theorem overflowing_consistent : overflowing.Consistent :=
  (Built.wellFormed ⟨by decide +kernel, by decide +kernel, by decide +kernel, by decide +kernel,
    by decide +kernel, by decide +kernel⟩).consistent

/-- Both divisions are diagnosed, and the sum gives way. -/
theorem overflowing_run {c' : Context}
    (h : optimize overflowing (fun _ => none) options = .ok (t', c')) :
    c'.diagnostics.map Diagnostic.node = [⟨2⟩, ⟨7⟩] ∧ c'.changes.map Change.node = [⟨5⟩] ∧
      t'.shape ⟨7⟩ = .ok (.binary ⟨12⟩ .divide ⟨6⟩) := by
  have hrun : (optimize overflowing (fun _ => none) options).map (fun result => decide
      (result.2.diagnostics.map Diagnostic.node = [⟨2⟩, ⟨7⟩] ∧
        result.2.changes.map Change.node = [⟨5⟩] ∧
        result.1.shape ⟨7⟩ = .ok (.binary ⟨12⟩ .divide ⟨6⟩))) = .ok true := by decide +kernel
  rw [h] at hrun
  exact of_decide_eq_true (Except.ok.inj hrun)

theorem exists_overflowing :
    ∃ t' c', optimize overflowing (fun _ => none) options = .ok (t', c') := by
  refine overflowing_consistent.graded.exists_optimize (fun r hr => ?_) (fun x symbol d h => ?_) _
  · cases hr
    decide
  · cases h

end Sample

/-- The division by zero of numerals is left as it is, and the other one is not:
its left operand has given way. -/
theorem optimize_keeps_diagnosed_overflowing :
    Sample.overflowing.Consistent ∧
      ∃ t' c', optimize Sample.overflowing (fun _ => none) Sample.options = .ok (t', c') ∧
        ∃ d ∈ c'.diagnostics, ∃ e ∈ c'.diagnostics, d.node = ⟨2⟩ ∧ e.node = ⟨7⟩ ∧
          Sample.overflowing.SameBelow t' d.node ∧ ¬Sample.overflowing.SameBelow t' e.node := by
  obtain ⟨t', c', hrun⟩ := Sample.exists_overflowing
  obtain ⟨hnodes, hchanges, -⟩ := Sample.overflowing_run hrun
  have htwo : (⟨2⟩ : NodeId) ∈ c'.diagnostics.map Diagnostic.node := by simp [hnodes]
  have hseven : (⟨7⟩ : NodeId) ∈ c'.diagnostics.map Diagnostic.node := by simp [hnodes]
  obtain ⟨d, hd, hdnode⟩ := List.mem_map.1 htwo
  obtain ⟨e, he, henode⟩ := List.mem_map.1 hseven
  have hkeeps :=
    (optimize_keeps_diagnosed Sample.overflowing_consistent (fun _ => none) Sample.options).2
      t' c' hrun
  refine ⟨Sample.overflowing_consistent, t', c', hrun, d, hd, e, he, hdnode, henode, ?_, ?_⟩
  · refine (hkeeps d hd).2.2.1.2 fun change hchange hbelow => ?_
    have hfive : change.node ∈ ([⟨5⟩] : List NodeId) := hchanges ▸ List.mem_map_of_mem hchange
    have hmem : change.node ∈ ([⟨2⟩, ⟨0⟩, ⟨1⟩] : List NodeId) :=
      mem_of_reaches (by decide) (by simp [hdnode]) hbelow.to_reflTransGen
    rw [List.mem_singleton.1 hfive] at hmem
    exact absurd hmem (by decide)
  · intro hsame
    have hfive : (⟨5⟩ : NodeId) ∈ c'.changes.map Change.node := by simp [hchanges]
    obtain ⟨change, hchange, hnode⟩ := List.mem_map.1 hfive
    refine (hkeeps e he).2.2.1.1 hsame change hchange ?_
    rw [henode, hnode]
    exact .single (by decide)

/-- A diagnosed node whose operand was replaced. -/
theorem optimize_changes_diagnosed :
    Sample.overflowing.Consistent ∧
      ∃ t' c', optimize Sample.overflowing (fun _ => none) Sample.options = .ok (t', c') ∧
        ∃ d ∈ c'.diagnostics, ¬Sample.overflowing.SameBelow t' d.node := by
  obtain ⟨t', c', hrun⟩ := Sample.exists_overflowing
  obtain ⟨hnodes, -, hshape⟩ := Sample.overflowing_run hrun
  have hseven : (⟨7⟩ : NodeId) ∈ c'.diagnostics.map Diagnostic.node := by simp [hnodes]
  obtain ⟨d, hd, hnode⟩ := List.mem_map.1 hseven
  refine ⟨Sample.overflowing_consistent, t', c', hrun, d, hd, fun hsame => ?_⟩
  have heq := hsame d.node .refl
  rw [hnode, hshape] at heq
  exact absurd heq (by decide)

end ScriptReduce
