/-
ScriptReduce.Proofs.Reduce.Steps: a whole run is a sequence of steps.

A walk makes steps, and between them it may add a literal in vain. `Steps` is
the sequence of them, with the changes that they note, and
`optimize_steps` finds the sequence that an optimization makes. All of its
steps are made within a part of the tree that the root belongs to and that
slots do not lead out of. So what one step preserves, within such a part, a
whole optimization preserves, and nothing else has to be said about walks, runs
and repetitions.

The shape of a node and the options tell whether it may give way
(`Tree.GivesWay`). No step changes that.
-/
import ScriptReduce.Proofs.Reduce.Contained

namespace ScriptReduce

open ScriptReduce.Tree Relation

variable {st : Setting} {D : NodeId → Prop} {rank : NodeId → Nat} {limit : Nat}
  {t t₀ t' u : Tree} {c c' : Context} {change : Change} {changes : List Change} {x : NodeId}

/-! ## 1. Sequences of steps -/

/-- The tree that steps within a part lead to, and the changes that they make,
the latest first. -/
inductive Steps (st : Setting) (D : NodeId → Prop) (t : Tree) : List Change → Tree → Prop where
  | start : Steps st D t [] t
  /-- A literal was added for which there was no slot. -/
  | vain {changes : List Change} {u : Tree} (l : Literal) (steps : Steps st D t changes u) :
    Steps st D t changes (u.withLiteral l)
  | next {changes : List Change} {change : Change} {u t' : Tree} (steps : Steps st D t changes u)
    (inside : D change.node) (step : Step st u change t') : Steps st D t (change :: changes) t'

theorem Tree.Grows.withLiteral (h : t.Grows u) (l : Literal) : t.Grows (u.withLiteral l) :=
  h.trans (.push u _)

theorem Tree.encloses_everywhere (t : Tree) : t.Encloses Everywhere :=
  ⟨fun _ _ _ _ => trivial, fun _ _ => trivial⟩

/-- What can be reached from a part belongs to it. -/
theorem Tree.Encloses.of_reaches {a b : NodeId} (h : t.Encloses D) (ha : D a)
    (hb : t.Reaches a b) : D b := by
  induction hb with
  | refl => exact ha
  | tail _ hstep ih => exact h.down _ _ ih hstep

/-- A part that a step is made in stays a part. -/
theorem Step.encloses (h : Step st t change t') (hD : t.Encloses D) (hnode : D change.node) :
    t'.Encloses D where
  down a b ha hb := by
    obtain ⟨holder, hl, hm⟩ := h.moves
    by_contra hnot
    exact hnot (hD.down a b ha ((hm.holds_iff hl hD hnode hnot).1 hb))
  later x hx := hD.later x (Nat.le_trans h.grows.size hx)

theorem Tree.Encloses.withLiteral (h : t.Encloses D) (l : Literal) : (t.withLiteral l).Encloses D where
  down a b ha hb := h.down a b ha ((holds_push rfl).1 hb)
  later x hx := h.later x (Nat.le_trans (Grows.push t _).size hx)

/-- Slots and parent links still agree after a step. -/
theorem Step.joined (h : Step st t change t') (hg : t.Graded Everywhere rank limit)
    (hj : t.Joined) : t'.Joined := by
  obtain ⟨_, hl, hm⟩ := h.moves
  exact hj.moves hg hl hm

namespace Steps

theorem grows (h : Steps st D t changes t') : t.Grows t' := by
  induction h with
  | start => exact .refl t
  | vain l _ ih => exact ih.withLiteral l
  | next _ _ step ih => exact ih.trans step.grows

theorem graded (h : Steps st D t changes t') (hg : t.Graded Everywhere rank limit) :
    t'.Graded Everywhere rank limit := by
  induction h with
  | start => exact hg
  | vain l _ ih => exact ih.withLiteral l
  | next _ _ step ih => exact (step.graded ih trivial).1

theorem encloses (h : Steps st D t changes t') (hD : t.Encloses D) : t'.Encloses D := by
  induction h with
  | start => exact hD
  | vain l _ ih => exact ih.withLiteral l
  | next _ inside step ih => exact step.encloses ih inside

theorem joined (h : Steps st D t changes t') (hg : t.Graded Everywhere rank limit)
    (hj : t.Joined) : t'.Joined := by
  induction h with
  | start => exact hj
  | vain l _ ih => exact ih.push (.inl ⟨l, rfl⟩)
  | next steps _ step ih => exact step.joined (steps.graded hg) ih

end Steps

/-! ## 2. Walks and runs -/

/-- What holds throughout a run that starts with the tree `t₀` and stays within
a part of it. -/
structure Stepping (st : Setting) (D : NodeId → Prop) (rank : NodeId → Nat) (t₀ t : Tree)
    (c : Context) : Prop extends Walk.Ongoing st Everywhere rank t₀ t c where
  encloses : t.Encloses D
  steps : Steps st D t₀ c.changes t

namespace Stepping

variable {w w' : Walk} {id : NodeId} {r : Reduction}

theorem reduce (h : Stepping st D rank t₀ w.tree w.context) (hid : w.tree.Inside D id)
    (hr : w.reduce id = .ok (r, w')) :
    Stepping st D rank t₀ w'.tree w'.context ∧ w.tree.Grows w'.tree ∧
      ∀ m, r = .replaced m → w'.tree.Inside D m := by
  obtain ⟨⟨hongoing, hgrows⟩, hlow⟩ := h.toOngoing.reduce ⟨trivial, hid.2⟩ hr
  obtain ⟨site, hsite⟩ := Walk.exists_isSubstitutionSite h.graded.toClosed ⟨trivial, hid.2⟩
  cases Walk.reduce_cases hsite hr with
  | kept stays tree changed follows =>
    refine ⟨⟨hongoing, tree ▸ h.encloses, ?_⟩, hgrows, by simp⟩
    rw [tree, follows.changes]
    exact h.steps
  | @made _ change step node changed follows =>
    subst node
    rw [h.setting] at step
    refine ⟨⟨hongoing, step.encloses h.encloses hid.1, ?_⟩, hgrows, fun m hm => ?_⟩
    · rw [follows.changes]
      exact .next h.steps hid.1 step
    · obtain ⟨holder, _, hmoves⟩ := step.moves
      exact ⟨hmoves.new_mem h.encloses hid.1 m (Change.replacement_of_reduction hm), (hlow m hm).1.2⟩
  | failed unlinked tree changed misses =>
    rcases tree with tree | ⟨l, tree⟩
    · refine ⟨⟨hongoing, tree ▸ h.encloses, ?_⟩, hgrows, by simp⟩
      rw [tree, misses.changes]
      exact h.steps
    · refine ⟨⟨hongoing, tree ▸ h.encloses.withLiteral l, ?_⟩, hgrows, by simp⟩
      rw [tree, misses.changes]
      exact .vain l h.steps

theorem foldConstants {changed : Bool} (h : Stepping st D rank t₀ t c)
    (hroot : ∀ r, t₀.root = some r → t₀.Inside D r)
    (hrun : foldConstants t c = .ok (changed, t', c')) : Stepping st D rank t₀ t' c' := by
  refine Walk.foldConstants_keeps (P := fun t x => t.Inside D x) (fun h hid hr => ?_)
    (fun h hid hx => ?_) h (fun r hr => (hroot r (h.root ▸ hr)).mono h.graded.limit_le) hrun
  · obtain ⟨hstepping, hgrows, hinside⟩ := h.reduce hid hr
    exact ⟨⟨hstepping, fun x hx => hx.mono hgrows.size⟩, hinside⟩
  · exact ⟨h.encloses.down _ _ hid.1 hx, (h.graded.children _ _ trivial hx).2⟩

end Stepping

/-- An optimization is a sequence of steps, within any part that the root
belongs to. -/
theorem optimize_steps {symbolAt : Resolver} {options : Options}
    (hg : t.Graded Everywhere rank t.size) (hD : t.Encloses D)
    (hroot : ∀ r, t.root = some r → t.Inside D r)
    (h : optimize t symbolAt options = .ok (t', c')) :
    Steps ⟨symbolAt, options⟩ D t c'.changes t' := by
  obtain ⟨changed, hrun⟩ := optimize_eq_ok.1 h
  have hstart : Stepping ⟨symbolAt, options⟩ D rank t t (.start symbolAt options) :=
    ⟨⟨hg, rfl, rfl⟩, hD, .start⟩
  have hend : Stepping ⟨symbolAt, options⟩ D rank t t' c' :=
    optimizeIn_keeps (fun h hrun => h.foldConstants hroot hrun)
      (fun _ h => ⟨⟨h.graded, h.root, h.setting⟩, h.encloses, h.steps⟩) hstart hrun
  exact hend.steps

/-! ## 3. Nodes that may give way -/

def Tree.IsBranch (t : Tree) (x : NodeId) : Prop := ∃ c a b, t.shape x = .ok (.branch c a b)

/-- An `if` statement was there at the start. -/
theorem Tree.IsBranch.lt_limit (h : t.IsBranch x) (hg : t.Graded Everywhere rank limit) :
    x.index < limit := by
  obtain ⟨c, a, b, hs⟩ := h
  exact hg.lt_limit_of_not_leaf hs (by simp [Shape.IsLeaf])

/-- Whether the options allow a shape to give way: an `if` statement, an
operator, or an identifier. -/
def Options.Displaces {α : Type} (options : Options) : Shape α → Prop
  | .branch _ _ _ => options.branches = true
  | .binary _ _ _ | .unary _ _ => options.fold = true
  | .identifier _ => options.propagate = true
  | _ => False

theorem Options.Displaces.not_isLeaf {options : Options} {s : Shape NodeId}
    (h : options.Displaces s) : ¬s.IsLeaf := by
  rintro (⟨_, rfl⟩ | rfl) <;> exact h

theorem Options.displaces_bare {α : Type} (options : Options) (s : Shape α) :
    options.Displaces s.bare ↔ options.Displaces s := by
  cases s <;> exact Iff.rfl

theorem Setting.MayFold.displaces {α : Type} {site : Bool} {s : Shape α} (h : st.MayFold site s) :
    st.options.Displaces s := by
  cases s with
  | identifier => exact h.1
  | binary | unary => exact h
  | _ => exact h.elim

/-- Whether a node may give way under some options. -/
def Tree.GivesWay (t : Tree) (options : Options) (x : NodeId) : Prop :=
  ∃ s, t.shape x = .ok s ∧ options.Displaces s

theorem Step.givesWay (h : Step st t change t') : t.GivesWay st.options change.node := by
  have hdecides : ∀ {x v}, Decides st t x v → t.GivesWay st.options x := by
    rintro x v ⟨_, _, _, hs, _, hon⟩
    exact ⟨_, hs, hon⟩
  cases h with
  | folded _ _ folds _ _ =>
    obtain ⟨_, s, hs, hmay⟩ := folds
    exact ⟨s, hs, hmay.displaces⟩
  | selected _ _ decides _ _ => exact hdecides decides
  | dropped _ _ decides _ _ _ _ => exact hdecides decides
  | filled _ _ decides _ _ _ _ => exact hdecides decides

/-- A node that was there before gives way afterwards only if it did before. -/
theorem Tree.Grows.givesWay_iff (h : t.Grows t') {options : Options} (hx : x.index < t.size) :
    t'.GivesWay options x ↔ t.GivesWay options x := by
  obtain ⟨n, hn⟩ := exists_get? hx
  obtain ⟨n', hn', hb, _⟩ := h.kept x n hn
  have hread : ∀ {v : Tree} {k : Node}, v.get? x = some k →
      (v.GivesWay options x ↔ options.Displaces k.shape.bare) := by
    intro v k hk
    rw [Options.displaces_bare, GivesWay, shape_of_get? hk]
    simp
  rw [hread hn', hread hn, hb]

/-- A leaf does not give way, so what gives way was there at the start. -/
theorem Tree.Graded.givesWay (hg : t.Graded Everywhere rank t₀.size) (h : t₀.Grows t)
    {options : Options} (hx : t.GivesWay options x) : t₀.GivesWay options x := by
  obtain ⟨_, hs, hdisplaces⟩ := id hx
  exact (h.givesWay_iff (hg.lt_limit_of_not_leaf hs hdisplaces.not_isLeaf)).1 hx

/-- Every node that gives way along a sequence of steps was one that may. -/
theorem Steps.givesWay (h : Steps st D t changes t') (hg : t.Graded Everywhere rank t.size) :
    ∀ change ∈ changes, t.GivesWay st.options change.node := by
  induction h with
  | start => simp
  | vain _ _ ih => exact ih
  | next steps _ step ih =>
    exact List.forall_mem_cons.2 ⟨(steps.graded hg).givesWay steps.grows step.givesWay, ih⟩

end ScriptReduce
