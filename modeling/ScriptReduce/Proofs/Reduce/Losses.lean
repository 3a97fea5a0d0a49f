/-
ScriptReduce.Proofs.Reduce.Losses: where something is lost.

What holds before a walk and not after it ceases to hold at one of the moments of
the walk, by a single reduction (`Walk.visit_loses`). The same goes for a run and
for several, one after another. So what can get lost at all, or come about, is read
off the steps.

A step takes one node out of its slot. Everything below another node can still be
reached from there, unless the path leads through the node that gives way, and
not through what takes its place (`Step.loses`). Where slots and parent links agree
there is no other path, so what is lost in this way is lost indeed (`Step.cuts_off`).
-/
import ScriptReduce.Proofs.Reduce.Makes

namespace ScriptReduce

open ScriptReduce.Tree Relation

variable {st : Setting} {t t' : Tree} {c c' : Context} {w w' : Walk} {change : Change}
  {a b g p s x y id : NodeId} {xs : List NodeId} {depth : Nat}

/-! ## 1. Moments at which something is lost -/

namespace Walk

variable {A : Tree → Context → Prop}

/-- Further nodes come later. -/
theorem Comes.cons (h : Comes w [x] w' y) : Comes w (x :: xs) w' y := by
  cases h with
  | here => exact .here
  | later _ comes => cases comes
  | downward reduced holds comes => exact .downward reduced holds comes
  | onward reduced comes => exact .onward reduced comes

/-- At some moment of a walk through a list of nodes, a reduction makes an end of
what held of the tree and the context. -/
def Loses (A : Tree → Context → Prop) (w : Walk) (xs : List NodeId) : Prop :=
  ∃ w₀ y r w₁, Comes w xs w₀ y ∧ w₀.reduce y = .ok (r, w₁) ∧ A w₀.tree w₀.context ∧
    ¬A w₁.tree w₁.context

theorem foldlM_loses
    (hvisit : ∀ {w w' x}, visitWithin depth w x = .ok w' → A w.tree w.context →
      ¬A w'.tree w'.context → Loses A w [x]) :
    ∀ {w w' : Walk}, xs.foldlM (visitWithin depth) w = .ok w' → A w.tree w.context →
      ¬A w'.tree w'.context → Loses A w xs := by
  induction xs with
  | nil =>
    intro w w' h hA hnot
    cases h
    exact absurd hA hnot
  | cons x xs ih =>
    intro w w' h hA hnot
    obtain ⟨w₁, hfirst, hrest⟩ := foldlM_cons_eq_ok.1 h
    by_cases h₁ : A w₁.tree w₁.context
    · obtain ⟨w₀, y, r, w₂, hcomes, hlost⟩ := ih hrest h₁ hnot
      exact ⟨w₀, y, r, w₂, .later hfirst hcomes, hlost⟩
    · obtain ⟨w₀, y, r, w₂, hcomes, hlost⟩ := hvisit hfirst hA h₁
      exact ⟨w₀, y, r, w₂, hcomes.cons, hlost⟩

/-- What a walk loses it loses at one of its moments. -/
theorem visit_loses : ∀ {w w' : Walk} {x : NodeId}, visitWithin depth w x = .ok w' →
    A w.tree w.context → ¬A w'.tree w'.context → Loses A w [x] := by
  induction depth with
  | zero =>
    intro w w' x h
    cases h
  | succ depth ih =>
    intro w w' x h hA hnot
    cases visit_succ_iff.1 h with
    | @replaced w₁ _ new reduced onward =>
      by_cases h₁ : A w₁.tree w₁.context
      · obtain ⟨w₀, y, r, w₂, hcomes, hlost⟩ := ih onward h₁ hnot
        exact ⟨w₀, y, r, w₂, .onward reduced hcomes, hlost⟩
      · exact ⟨w, x, _, w₁, .here, reduced, hA, h₁⟩
    | @removed w₁ reduced => exact ⟨w, x, _, w₁, .here, reduced, hA, hnot⟩
    | @unchanged w₁ _ n reduced node below =>
      by_cases h₁ : A w₁.tree w₁.context
      · obtain ⟨w₀, y, r, w₂, hcomes, hlost⟩ := foldlM_loses ih below h₁ hnot
        exact ⟨w₀, y, r, w₂, .downward reduced (children_of_get? node) hcomes, hlost⟩
      · exact ⟨w, x, _, w₁, .here, reduced, hA, h₁⟩

end Walk

section

variable {A : Tree → Context → Prop}

theorem foldConstants_loses {changed : Bool} (hrun : foldConstants t c = .ok (changed, t', c'))
    (hA : A t c) (hnot : ¬A t' c') :
    ∃ w x r w₁, Moment t c w x ∧ w.reduce x = .ok (r, w₁) ∧ A w.tree w.context ∧
      ¬A w₁.tree w₁.context := by
  rcases foldConstants_eq_ok.1 hrun with ⟨-, -, rfl, rfl⟩ | ⟨root, hroot, hvisit⟩
  · exact absurd hA hnot
  · obtain ⟨w, x, r, w₁, hcomes, hlost⟩ := Walk.visit_loses hvisit hA hnot
    exact ⟨w, x, r, w₁, ⟨root, hroot, hcomes⟩, hlost⟩

/-- What runs lose, one after another, is lost at a moment of one of them. -/
theorem Runs.loses (h : Runs t c t' c') (hA : A t c) (hnot : ¬A t' c') :
    ∃ w x r w₁, Along t c t' c' w x ∧ w.reduce x = .ok (r, w₁) ∧ A w.tree w.context ∧
      ¬A w₁.tree w₁.context := by
  induction h with
  | start => exact absurd hA hnot
  | @again t₁ t' c₁ c' changed runs run ih =>
    by_cases h₁ : A t₁ c₁
    · obtain ⟨w, x, r, w₁, hmoment, hlost⟩ := foldConstants_loses run h₁ hnot
      exact ⟨w, x, r, w₁, ⟨t₁, c₁, changed, t', c', runs, hmoment, run, .start⟩, hlost⟩
    · obtain ⟨w, x, r, w₁, ⟨t₂, c₂, _, t₃, c₃, hruns, hmoment, hrun, hruns'⟩, hlost⟩ := ih h₁
      exact ⟨w, x, r, w₁, ⟨t₂, c₂, _, t₃, c₃, hruns, hmoment, hrun, hruns'.again run⟩, hlost⟩

end

/-! ## 2. What a step loses -/

namespace Step

/-- Whatever does not give way is held as before. -/
theorem holds (h : Step st t change t') (hx : t.Holds g x) (hne : x ≠ change.node) :
    t'.Holds g x := by
  obtain ⟨_, hl, hm⟩ := h.moves
  exact (hm.holds_of hl).1 g x hx hne

/-- Who held the node that gives way holds it still, or holds what has taken its
place. -/
theorem holds_node (h : Step st t change t') (hp : t.Holds p change.node) :
    t'.Holds p change.node ∨ ∀ m, change.replacement = some m → t'.Holds p m := by
  obtain ⟨holder, hl, hm⟩ := h.moves
  by_cases hholder : p = holder
  · subst hholder
    exact Or.inr (hm.holds_of hl).2
  · obtain ⟨n, hn, hnode⟩ := hp
    refine Or.inl ⟨_, hm.get?_of_some hn, ?_⟩
    simpa [relink, hholder] using hnode

/-- A path that does not lead to the node that gives way stays. -/
theorem reaches (h : Step st t change t') (hnot : ¬t.Reaches a change.node)
    (hab : t.Reaches a b) : t'.Reaches a b := by
  induction hab with
  | refl => exact .refl
  | @tail p b hap hpb ih =>
    refine ih.tail (h.holds hpb ?_)
    rintro rfl
    exact hnot (hap.tail hpb)

/-- What is below the node that gives way stays there. -/
theorem reaches_from_node (h : Step st t change t') (ha : t.Acyclic)
    (hx : t.Reaches change.node x) : t'.Reaches change.node x := by
  rcases ReflTransGen.cases_head hx with rfl | ⟨y, hy, hyx⟩
  · exact .refl
  · refine .head (h.holds hy ?_) (h.reaches (fun hback => ?_) hyx)
    · rintro rfl
      exact ha _ (.single hy)
    · exact ha _ (.head' hy hback)

/-- A path stays up to where the node that gives way stood. -/
theorem reaches_cases (h : Step st t change t') (hx : t.Reaches s x) :
    t'.Reaches s x ∨
      ∃ p, t.Reaches s p ∧ t'.Reaches s p ∧ t.Holds p change.node ∧ t.Reaches change.node x := by
  induction hx with
  | refl => exact Or.inl .refl
  | @tail y x hsy hyx ih =>
    rcases ih with hkept | ⟨p, hsp, hkept, hp, hbelow⟩
    · by_cases hne : x = change.node
      · subst hne
        exact Or.inr ⟨y, hsy, hkept, hyx, .refl⟩
      · exact Or.inl (hkept.tail (h.holds hyx hne))
    · exact Or.inr ⟨p, hsp, hkept, hp, hbelow.tail hyx⟩

/-- A node that cannot be reached any more was below the node that gives way, and
not below the branch that takes its place. -/
theorem loses (h : Step st t change t') (ha : t.Acyclic) (hx : t.Reaches s x)
    (hlost : ¬t'.Reaches s x) :
    t.Reaches s change.node ∧ t.Reaches change.node x ∧
      ∀ m, change.replacement = some m → t.Holds change.node m → ¬t.Reaches m x := by
  obtain ⟨p, hsp, hkept, hp, hbelow⟩ := (h.reaches_cases hx).resolve_left hlost
  refine ⟨hsp.tail hp, hbelow, fun m hm hholds hmx => hlost ?_⟩
  rcases h.holds_node hp with hp' | hplace
  · exact (hkept.tail hp').trans (h.reaches_from_node ha hbelow)
  · refine (hkept.tail (hplace m hm)).trans (h.reaches (fun hback => ?_) hmx)
    exact ha _ (.head' hholds hback)

/-- What is below the node that gives way, and not below what takes its place, is
cut off from all that was above this node. -/
theorem cuts_off {rank : NodeId → Nat} {limit : Nat} (h : Step st t change t')
    (hg : t.Graded Everywhere rank limit) (hj : t.Joined) (hs : t.Reaches s change.node)
    (hne : s ≠ change.node) (hbranch : ¬t.IsBranch s) (hx : t.Reaches change.node x)
    (hout : ∀ m, change.replacement = some m → ¬t.Reaches m x) : ¬t'.Reaches s x := by
  have ha := hg.acyclic
  obtain ⟨holder, hl, hm⟩ := h.moves
  obtain ⟨y, hsy, hy⟩ := (ReflTransGen.cases_head hs).resolve_left hne
  obtain ⟨k, hk⟩ := exists_get? (lt_size_of_holds hsy)
  have hlive : Live t change.node := Up.live hl.2
  have hlive' : Live t' s := fun n _ _ _ hn hshape _ =>
    hbranch (hm.exists_branch hk (by rw [shape_of_get? hn, hshape]))
  intro hsx
  -- from there on, parent links lead up to that node as they did before, and no further
  have hback : t.Reaches change.node s := by
    induction hsx with
    | refl => exact hx
    | @tail y x hsy hyx ih =>
      have hup' : t'.Up x y := (hj.moves hg hl hm).up_of_reaches hlive' hsy hyx
      rcases ReflTransGen.cases_tail hx with rfl | ⟨p, hp, hpx⟩
      · exact absurd hup' (hm.not_up_old hl)
      · have hne : x ≠ change.node := by
          rintro rfl
          exact ha _ (TransGen.tail' hp hpx)
        have hnew : some x ≠ change.replacement := fun heq => hout x heq.symm .refl
        have hup : t.Up x p := hj.up_of_reaches hlive hp hpx
        obtain rfl := up_unique hup' (hm.up_of_up hup hne hnew)
        exact ih hp fun m hm hmy => hout m hm (hmy.tail hpx)
  exact ha s (TransGen.head' hsy (hy.trans hback))

end Step

/-! ## 3. What a reduction loses -/

/-- Only nodes of the tree are reduced. -/
theorem Walk.inside_of_reduce {r : Reduction} (hr : w.reduce id = .ok (r, w')) :
    w.tree.Inside Everywhere id := by
  obtain ⟨_, hs, -⟩ := bind_eq_ok.1 hr
  exact ⟨trivial, lt_size_of_shape hs⟩

section

variable {r : Reduction} {rank : NodeId → Nat} {limit : Nat}
  (hg : w.tree.Graded Everywhere rank limit) (hr : w.reduce id = .ok (r, w'))

include hg hr

/-- A node that is not left alone makes a step. -/
theorem Walk.step_of_changed (hne : r ≠ .unchanged) :
    ∃ change, Step w.context.setting w.tree change w'.tree ∧ change.node = id := by
  obtain ⟨site, hsite⟩ := Walk.exists_isSubstitutionSite hg.toClosed (Walk.inside_of_reduce hr)
  cases Walk.reduce_cases hsite hr with
  | kept | failed => exact absurd rfl hne
  | made step node => exact ⟨_, step, node⟩

/-- Whatever can be reached before a node is left alone can be reached afterwards. -/
theorem Walk.changed_of_loses (hx : w.tree.Reaches s x) (hlost : ¬w'.tree.Reaches s x) :
    r ≠ .unchanged := by
  obtain ⟨site, hsite⟩ := Walk.exists_isSubstitutionSite hg.toClosed (Walk.inside_of_reduce hr)
  cases Walk.reduce_cases hsite hr with
  | kept _ tree =>
    rw [tree] at hlost
    exact absurd hx hlost
  | made => exact Change.reduction_ne_unchanged _
  | failed _ tree =>
    refine absurd ?_ hlost
    rcases tree with tree | ⟨l, tree⟩
    · rw [tree]
      exact hx
    · rw [tree]
      exact ReflTransGen.mono (fun _ _ => (holds_push rfl).2) _ _ hx

end

end ScriptReduce
