/-
ScriptReduce.Proofs.Reduce.Effects: what a run must not lose.

Calls, assignments and whatever the optimizer knows nothing about may have
effects. Folding an expression makes everything below it vanish at once, and
deciding an `if` statement makes its condition and a branch vanish. So two
things have to be shown. What is below an expression with a value has a value
itself, unless it was skipped: it lies in the right operand of an `&&` or `||`
that its left operand settles (`Evaluator.Yields.covers`). And a run loses
nothing but what is below a node that gave way (`Walk.Ongoing.forgone`), while all
it keeps stays in order (`Course.picked_sublist`). Conversely, what would not have
been executed of a node goes with it, if slots and parent links agree
(`Walk.loses_unexecuted`).

All this is about the tree as it is when the node is offered, and holds of any
values: nothing is asked of the literals that a run installs.
-/
import ScriptReduce.Proofs.Reduce.Losses
import ScriptReduce.Proofs.Reduce.Pure

namespace ScriptReduce

open ScriptReduce.Tree Relation

variable {t t' : Tree} {c c' : Context} {w w' : Walk} {p s x id : NodeId}

/-! ## 1. What a value depends on -/

theorem Tree.Reaches.cases_shape {e : NodeId} {s : Shape NodeId} (hx : t.Reaches e x)
    (hs : t.shape e = .ok s) : x = e ∨ ∃ y ∈ s.children, t.Holds e y ∧ t.Reaches y x := by
  rcases ReflTransGen.cases_head hx with rfl | ⟨y, hy, hx⟩
  · exact Or.inl rfl
  · obtain ⟨n, hn, rfl⟩ := shape_eq_ok.1 hs
    exact Or.inr ⟨y, (holds_iff hn).1 hy, hy, hx⟩

namespace Evaluator

/-- How evaluation of an expression deals with a node below it: the node is
evaluated as well, or it is skipped because a left operand settles. -/
inductive Covers (ev : Evaluator) (e x : NodeId) : Prop where
  | evaluated {u : Value} (value : ev.Yields x u)
  | skipped {k left right : NodeId} {op : BinaryOperator} {u : Value} (inside : ev.tree.Reaches e k)
    (shape : ev.tree.shape k = .ok (.binary left op right)) (value : ev.Yields left u)
    (settles : op.isSettledBy u = true) (below : ev.tree.Reaches right x)

variable {ev : Evaluator} {e y : NodeId} {v : Value}

theorem Covers.lift (h : ev.Covers y x) (hy : ev.tree.Holds e y) : ev.Covers e x := by
  cases h with
  | evaluated value => exact .evaluated value
  | skipped inside shape value settles below =>
    exact .skipped (ReflTransGen.head hy inside) shape value settles below

/-- An expression has a value only if everything below it is dealt with. The
induction is on the derivation of the value. -/
theorem Yields.covers (h : ev.Yields e v) (hx : ev.tree.Reaches e x) : ev.Covers e x := by
  obtain ⟨height, h⟩ := h
  induction h with
  | literal see value =>
    rcases hx.cases_shape (shape_of_look_literal see) with rfl | ⟨y, hy, _⟩
    · exact .evaluated (.literal see value)
    · cases hy
  | not see operand ih =>
    rcases hx.cases_shape (shape_of_look_not see) with rfl | ⟨y, hy, hold, hx⟩
    · exact .evaluated (.not see operand.yields)
    · rw [Shape.children_unary, List.mem_singleton] at hy
      subst hy
      exact (ih hx).lift hold
  | settled see left settles ih =>
    have hs := shape_of_look_binary see
    rcases hx.cases_shape hs with rfl | ⟨y, hy, hold, hx⟩
    · exact .evaluated (.settled see left.yields settles)
    · rw [Shape.children_binary, List.mem_pair] at hy
      rcases hy with rfl | rfl
      · exact (ih hx).lift hold
      · exact .skipped .refl hs left.yields settles hx
  | combined see left settles right value ihl ihr =>
    rcases hx.cases_shape (shape_of_look_binary see) with rfl | ⟨y, hy, hold, hx⟩
    · exact .evaluated (.combined see left.yields settles right.yields value)
    · rw [Shape.children_binary, List.mem_pair] at hy
      rcases hy with rfl | rfl
      · exact (ihl hx).lift hold
      · exact (ihr hx).lift hold
  | constant see initializer _ =>
    obtain ⟨name, hs, _⟩ := shape_of_look_constant see
    rcases hx.cases_shape hs with rfl | ⟨y, hy, _⟩
    · exact .evaluated (.constant see initializer.yields)
    · cases hy

end Evaluator

/-! ## 2. What is lost when a node gives way -/

/-- The expression that decides what becomes of a node: the condition of an
`if` statement, and any other node itself. -/
def Shape.subject (id : NodeId) : Shape NodeId → NodeId
  | .branch condition _ _ => condition
  | _ => id

/-- A node that is lost when another gives way would not have been executed. -/
inductive Unexecuted (w : Walk) (id x : NodeId) : Prop where
  /-- It lies in the branch that the condition does not select. -/
  | unselected {condition whenTrue branch : NodeId} {whenFalse : Option NodeId} {v : Value}
    {c : Context} (shape : w.tree.shape id = .ok (.branch condition whenTrue whenFalse))
    (value : w.context.evaluate w.tree condition = .ok (some v, c))
    (unselected : if v.isTruthy then whenFalse = some branch else branch = whenTrue)
    (below : w.tree.Reaches branch x)
  /-- It lies in the right operand of an `&&` or `||` whose left operand has a
  value that settles it. -/
  | skipped {s : Shape NodeId} {k left right : NodeId} {op : BinaryOperator} {v : Value}
    {c : Context} (shape : w.tree.shape id = .ok s) (inside : w.tree.Reaches (s.subject id) k)
    (operator : w.tree.shape k = .ok (.binary left op right)) (logical : op = .and ∨ op = .or)
    (value : w.context.evaluate w.tree left = .ok (some v, c))
    (settles : op.isSettledBy v = true) (below : w.tree.Reaches right x)

/-- Why a node is lost when another gives way. -/
inductive Forgone (w : Walk) (id x : NodeId) : Prop where
  | unexecuted (h : Unexecuted w id x)
  /-- It is the `if` statement that was decided. -/
  | decided {condition whenTrue : NodeId} {whenFalse : Option NodeId}
    (shape : w.tree.shape id = .ok (.branch condition whenTrue whenFalse)) (itself : x = id)
  /-- It has a value, which is all that is needed of it. -/
  | evaluated {v : Value} (value : (w.context.setting.evaluator w.tree).Yields x v)

/-- Whether evaluation finds every value at a moment of a walk. -/
def Walk.Finds (w : Walk) : Prop := ∀ e v, (w.context.setting.evaluator w.tree).Yields e v →
  ∃ c, w.context.evaluate w.tree e = .ok (some v, c)

theorem Evaluator.Yields.lt_size {ev : Evaluator} {e : NodeId} {v : Value} (h : ev.Yields e v) :
    e.index < ev.tree.size := by
  cases hs : ev.tree.shape e with
  | ok s => exact lt_size_of_shape hs
  | error _ => exact absurd h (not_nothing (by rw [look, hs]))

theorem Walk.finds_of_graded {rank : NodeId → Nat} {limit : Nat}
    (hg : w.tree.Graded Everywhere rank limit) : w.Finds := by
  intro e v hy
  have hfound : Evaluator.found ((w.context.setting.evaluator w.tree).evaluate e) = some v :=
    (Evaluator.found_evaluate_iff hg hy.lt_size).2 hy
  unfold Evaluator.found at hfound
  split at hfound
  · rename_i o ho
    exact ⟨_, Context.evaluate_eq_ok.2 ⟨o, ho, hfound, rfl⟩⟩
  · cases hfound

theorem BinaryOperator.logical_of_isSettledBy {op : BinaryOperator} {v : Value}
    (h : op.isSettledBy v = true) : op = .and ∨ op = .or := by
  cases op <;> simp_all [isSettledBy]

/-- What is below a subject with a value is evaluated or skipped. -/
theorem Forgone.of_yields {s : Shape NodeId} {v : Value} (hfinds : w.Finds)
    (hs : w.tree.shape id = .ok s)
    (h : (w.context.setting.evaluator w.tree).Yields (s.subject id) v)
    (hx : w.tree.Reaches (s.subject id) x) : Forgone w id x := by
  cases h.covers hx with
  | evaluated value => exact .evaluated value
  | skipped inside operator value settles below =>
    obtain ⟨c, hc⟩ := hfinds _ _ value
    have hlogical := BinaryOperator.logical_of_isSettledBy settles
    exact .unexecuted (.skipped hs inside operator hlogical hc settles below)

/-- What is lost with an `if` statement is the statement, its condition, and
the branch that is not selected. -/
theorem Forgone.of_decides {condition whenTrue : NodeId} {whenFalse : Option NodeId} {v : Value}
    (hfinds : w.Finds) (hs : w.tree.shape id = .ok (.branch condition whenTrue whenFalse))
    (hd : Decides w.context.setting w.tree id v) (hx : w.tree.Reaches id x)
    (hout : ∀ m, chosen v whenTrue whenFalse = some m → ¬w.tree.Reaches m x) :
    Forgone w id x := by
  obtain ⟨_, _, _, hs', hv, -⟩ := hd
  cases hs.symm.trans hs'
  obtain ⟨c, hc⟩ := hfinds _ _ hv
  rcases hx.cases_shape hs with rfl | ⟨y, hy, -, hyx⟩
  · exact .decided hs rfl
  rw [Shape.children_branch, List.mem_cons, List.mem_cons, Option.mem_toList] at hy
  rcases hy with rfl | rfl | hy
  · exact .of_yields hfinds hs hv hyx
  · refine .unexecuted (.unselected hs hc ?_ hyx)
    by_cases htruthy : v.isTruthy
    · exact absurd hyx (hout y (by simp [chosen, htruthy]))
    · simp [htruthy]
  · refine .unexecuted (.unselected hs hc ?_ hyx)
    by_cases htruthy : v.isTruthy
    · simpa [htruthy] using hy
    · exact absurd hyx (hout y (by simpa [chosen, htruthy] using hy))

/-- What is lost by a step is accounted for. -/
theorem Step.forgone {change : Change} (h : Step w.context.setting w.tree change t')
    (ha : w.tree.Acyclic) (hfinds : w.Finds) (hx : w.tree.Reaches s x)
    (hlost : ¬t'.Reaches s x) : w.tree.Reaches s change.node ∧ Forgone w change.node x := by
  obtain ⟨hs, hbelow, hplace⟩ := h.loses ha hx hlost
  refine ⟨hs, ?_⟩
  cases h with
  | @folded _ old _ _ _ _ _ _ folds =>
    obtain ⟨hv, shape, hshape, hmay⟩ := folds
    have hsubject : shape.subject old = old := by
      cases shape <;> first | rfl | exact hmay.elim
    exact .of_yields hfinds hshape (hsubject.symm ▸ hv) (hsubject.symm ▸ hbelow)
  | selected _ shape decides hchosen =>
    refine .of_decides hfinds shape decides hbelow fun m hm => ?_
    rw [hchosen] at hm
    exact hplace m hm (holds_of_branch shape (chosen_mem (hchosen.trans hm)))
  | dropped _ shape decides hchosen | filled _ shape decides hchosen =>
    refine .of_decides hfinds shape decides hbelow fun m hm => ?_
    rw [hchosen] at hm
    cases hm

/-- So is what is lost by a reduction. -/
theorem Walk.forgone_of_loses {rank : NodeId → Nat} {limit : Nat} {r : Reduction}
    (hg : w.tree.Graded Everywhere rank limit) (hr : w.reduce id = .ok (r, w'))
    (hx : w.tree.Reaches s x) (hlost : ¬w'.tree.Reaches s x) :
    r ≠ .unchanged ∧ w.tree.Reaches s id ∧ Forgone w id x := by
  have hne := Walk.changed_of_loses hg hr hx hlost
  obtain ⟨change, hstep, rfl⟩ := Walk.step_of_changed hg hr hne
  exact ⟨hne, hstep.forgone hg.acyclic (Walk.finds_of_graded hg) hx hlost⟩

/-- What would not have been executed of a node is below it. -/
theorem Unexecuted.below (h : Unexecuted w id x) : w.tree.Reaches id x := by
  cases h with
  | unselected shape _ unselected below =>
    refine .head (holds_of_branch shape ?_) below
    split at unselected
    · exact Or.inr unselected
    · exact Or.inl unselected
  | @skipped s _ _ _ _ _ _ shape inside operator _ _ _ below =>
    have hsubject : w.tree.Reaches id (s.subject id) := by
      cases s with
      | branch => exact .single (holds_of_shape shape (by simp [Shape.subject]))
      | _ => exact .refl
    exact hsubject.trans (inside.trans (.head (holds_of_shape operator (by simp)) below))

/-- If the node is an `if` statement that selects a branch, it is beside that. -/
theorem Unexecuted.beside {condition whenTrue m : NodeId} {whenFalse : Option NodeId} {v : Value}
    (h : Unexecuted w id x) (hs : w.tree.shape id = .ok (.branch condition whenTrue whenFalse))
    (honce : (condition :: whenTrue :: whenFalse.toList).Nodup)
    (hv : (w.context.setting.evaluator w.tree).Yields condition v)
    (hm : chosen v whenTrue whenFalse = some m) :
    ∃ y, w.tree.Holds id y ∧ y ≠ m ∧ w.tree.Reaches y x := by
  cases h with
  | @unselected _ _ branch _ _ _ shape value unselected below =>
    cases hs.symm.trans shape
    obtain ⟨o, ho, hvalue, -⟩ := Context.evaluate_eq_ok.1 value
    obtain rfl := hv.unique ((Evaluator.evaluate_value_iff ho).1 hvalue)
    unfold chosen at hm
    by_cases htruthy : v.isTruthy
    · rw [if_pos htruthy] at hm unselected
      cases hm
      refine ⟨branch, holds_of_branch shape (.inr unselected), ?_, below⟩
      rintro rfl
      simp [unselected] at honce
    · rw [if_neg htruthy] at hm unselected
      refine ⟨branch, holds_of_branch shape (.inl unselected), ?_, below⟩
      rintro rfl
      simp [unselected, hm] at honce
  | skipped shape inside operator _ _ _ below =>
    cases hs.symm.trans shape
    refine ⟨condition, holds_of_shape shape (by simp), ?_,
      inside.trans (.head (holds_of_shape operator (by simp)) below)⟩
    rintro rfl
    rcases chosen_mem hm with rfl | rfl <;> simp at honce

/-- A node that gives way takes along what would not have been executed of it. -/
theorem Step.loses_unexecuted {change : Change} {rank : NodeId → Nat} {limit : Nat}
    (h : Step w.context.setting w.tree change t') (hg : w.tree.Graded Everywhere rank limit)
    (hj : w.tree.Joined) (hs : w.tree.Reaches s change.node) (hne : s ≠ change.node)
    (hbranch : ¬w.tree.IsBranch s) (hx : Unexecuted w change.node x) : ¬t'.Reaches s x := by
  refine h.cuts_off hg hj hs hne hbranch hx.below fun m hm hmx => ?_
  obtain ⟨holder, hl, -⟩ := h.moves
  obtain ⟨n, hn, -⟩ := hl.2
  have hlt : x.index < w.tree.size :=
    (Inside.of_reaches ⟨trivial, lt_size_of_get? hn⟩ hg.toClosed hx.below).2
  cases h with
  | folded | filled =>
    cases hm
    exact not_reaches_next hlt hmx
  | dropped => cases hm
  | selected _ shape decides hchosen =>
    cases hm
    obtain ⟨_, _, _, hs', hv, -⟩ := decides
    cases shape.symm.trans hs'
    have hlive : Live w.tree _ := Up.live hl.2
    have honce := hj.once _ n hlive hn
    rw [Except.ok.inj ((shape_of_get? hn).symm.trans shape), Shape.children_branch] at honce
    obtain ⟨y, hy, hne, hyx⟩ := hx.beside hs' honce hv hchosen
    exact hj.disjoint hg.acyclic hlive hy (holds_of_branch hs' (chosen_mem hchosen)) hne hyx hmx

theorem Walk.loses_unexecuted {rank : NodeId → Nat} {limit : Nat} {r : Reduction}
    (hg : w.tree.Graded Everywhere rank limit) (hj : w.tree.Joined)
    (hr : w.reduce id = .ok (r, w')) (hne : r ≠ .unchanged) (hs : w.tree.Reaches s id)
    (hstays : ¬w.tree.GivesWay w.context.options s) (hbranch : ¬w.tree.IsBranch s)
    (hx : Unexecuted w id x) : ¬w'.tree.Reaches s x := by
  obtain ⟨change, hstep, rfl⟩ := Walk.step_of_changed hg hr hne
  refine hstep.loses_unexecuted hg hj hs ?_ hbranch hx
  rintro rfl
  exact hstays hstep.givesWay

/-- What cannot be reached any more after a run was lost at one of its moments, to
the node that gave way then. -/
theorem Walk.Ongoing.forgone {st : Setting} {rank : NodeId → Nat} {t₀ : Tree} {changed : Bool}
    (hon : Walk.Ongoing st Everywhere rank t₀ t c)
    (hroot : ∀ r, t₀.root = some r → t₀.Inside Everywhere r)
    (hrun : ScriptReduce.foldConstants t c = .ok (changed, t', c')) (hx : t.Reaches s x)
    (hlost : ¬t'.Reaches s x) :
    ∃ w id r w₁, Moment t c w id ∧ w.reduce id = .ok (r, w₁) ∧ r ≠ .unchanged ∧
      Forgone w id x := by
  obtain ⟨w, id, r, w₁, hmoment, hreduced, hx, hlost⟩ :=
    foldConstants_loses (A := fun u _ => u.Reaches s x) hrun hx hlost
  obtain ⟨hne, -, hforgone⟩ :=
    Walk.forgone_of_loses (hon.moment hroot hmoment).1.graded hreduced hx hlost
  exact ⟨w, id, r, w₁, hmoment, hreduced, hne, hforgone⟩

/-! ## 3. What stays in order -/

/-- The labels of the nodes of certain kinds, each before those below it. -/
def Term.picked {ι : Type} (P : Shape Unit → Bool) : Term ι → List ι :=
  fold fun n s => if P s.bare then n :: s.children.flatten else s.children.flatten

theorem Term.picked_mk {ι : Type} (P : Shape Unit → Bool) (n : ι) (s : Shape (Term ι)) :
    (mk n s).picked P =
      if P s.bare then n :: s.children.flatMap (picked P) else s.children.flatMap (picked P) := by
  rw [picked, fold_mk, Shape.children_map, Shape.bare_map]
  rfl

/-- Whether a node of a tree is of certain kinds. -/
def Tree.picks (t : Tree) (P : Shape Unit → Bool) (x : NodeId) : Bool :=
  match t.shape x with
  | .ok s => P s.bare
  | .error _ => false

theorem Tree.Shows.picked_eq {parent : Option NodeId} {T : Term NodeId} (h : t.Shows parent T)
    (P : Shape Unit → Bool) : T.picked P = T.labels.filter (t.picks P) := by
  induction h with
  | @mk parent n s span node below ih =>
    have hn : t.picks P n = P s.bare := by
      rw [picks, shape_of_get? node]
      exact congrArg P (Shape.bare_map Term.label s)
    have hs : s.children.flatMap (Term.picked P)
        = (s.children.flatMap Term.labels).filter (t.picks P) := by
      rw [List.filter_flatMap]
      exact List.flatMap_congr ih
    rw [Term.picked_mk, Term.labels_mk, List.filter_cons, hn, hs]

/-- The labels of nodes of certain kinds in all terms of a list. -/
def pickedOf (P : Shape Unit → Bool) (Ls : List (Place × Term NodeId)) : List NodeId :=
  Ls.flatMap fun e => e.2.picked P

theorem pickedOf_spots (P : Shape Unit → Bool) (s : Shape (Term NodeId)) :
    pickedOf P s.spots = s.children.flatMap (Term.picked P) := by
  rw [pickedOf, ← Shape.map_snd_spots, List.flatMap_map]

/-- A walk adds no nodes but leaves, and keeps all others in order. -/
theorem Course.picked_sublist {P : Shape Unit → Bool} (hliteral : ∀ l, P (.literal l) = false)
    (hempty : P .emptyStatement = false) {Ls Ls' : List (Place × Term NodeId)}
    (h : Course w p Ls Ls' w') : (pickedOf P Ls').Sublist (pickedOf P Ls) := by
  induction h with
  | done => exact .refl _
  | @kept w w₁ w₂ w' p q T s' Ls Ls' depth reduced shows below bare visited rest ihBelow ihRest =>
    have hT : ((Term.mk T.label s').picked P).Sublist (T.picked P) := by
      rw [pickedOf_spots, pickedOf_spots] at ihBelow
      rw [← Term.eta T, Term.label_mk, Term.picked_mk, Term.picked_mk, bare]
      split
      · exact ihBelow.cons_cons _
      · exact ihBelow
    exact hT.append ihRest
  | @turned w w₁ w' p q T U r Ls Ls' depth shows reduced turns leaf visited rest ih =>
    have hU : pickedOf P (U.toList.map (q, ·)) = [] := by
      cases U with
      | none => rfl
      | some V =>
        obtain ⟨m, s⟩ := V
        have hs : (∃ l, s = .literal l) ∨ s = .emptyStatement := by
          rcases leaf _ rfl with ⟨l, hl⟩ | hl
          · exact Or.inl ⟨l, by cases s <;> cases hl; rfl⟩
          · exact Or.inr (by cases s <;> cases hl; rfl)
        rcases hs with ⟨l, rfl⟩ | rfl
        · simp [pickedOf, Term.picked_mk, Shape.bare, hliteral]
        · simp [pickedOf, Term.picked_mk, Shape.bare, hempty]
    rw [pickedOf, List.flatMap_append, ← pickedOf, hU, List.nil_append]
    exact ih.trans (List.sublist_append_right _ _)
  | @selected w w₁ w' p n q c a V b v Ls Ls' shows reduced decides hchosen onward ih =>
    have hV : (V.picked P).Sublist ((Term.mk n (.branch c a b)).picked P) := by
      have hmem : V ∈ (Shape.branch c a b).children :=
        Shape.mem_children_branch (chosen_mem hchosen)
      have hsub := List.sublist_flatten_of_mem (List.mem_map_of_mem (f := Term.picked P) hmem)
      rw [Term.picked_mk]
      split
      · exact hsub.cons _
      · exact hsub
    exact ih.trans (hV.append (.refl _))

/-- A run keeps all nodes but leaves in order. -/
theorem Ran.filter_sublist {parent : Option NodeId} {T T' : Term NodeId} {news : List Change}
    {changed : Bool} (hran : Ran parent T T' news t c changed t' c') (hT : t.Presents parent T)
    {P : Shape Unit → Bool} (hliteral : ∀ l, P (.literal l) = false)
    (hempty : P .emptyStatement = false) (hfile : P (.sourceFile []) = false) :
    (T'.labels.filter (t'.picks P)).Sublist (T.labels.filter (t.picks P)) := by
  have hbelow := hran.course.picked_sublist hliteral hempty
  rw [pickedOf_spots, pickedOf_spots] at hbelow
  rw [← hran.presents.shows.picked_eq, ← hT.shows.picked_eq, ← Term.eta T, ← Term.eta T',
    Term.picked_mk, Term.picked_mk, hran.presents.file, hT.file, hfile]
  exact hbelow

/-! ## 4. Effects -/

/-- Whether running a node does more than to give a value: a call, a construct
that nothing is known of, or an assignment. -/
def Shape.isEffect {α : Type} : Shape α → Bool
  | .call _ _ | .other _ _ | .binary _ .assign _ => true
  | _ => false

/-- Whether a node of a tree may have an effect. -/
def Tree.isEffect (t : Tree) (x : NodeId) : Bool := t.picks Shape.isEffect x

theorem Shape.isEffect_bare {α : Type} (s : Shape α) : s.bare.isEffect = s.isEffect := by
  cases s with
  | binary left op right => cases op <;> rfl
  | _ => rfl

theorem Tree.isEffect_iff : t.isEffect x = true ↔ ∃ s, t.shape x = .ok s ∧ s.isEffect = true := by
  unfold isEffect picks
  cases t.shape x <;> simp [Shape.isEffect_bare]

/-- What may have an effect has no value. -/
theorem Evaluator.not_yields_of_isEffect {ev : Evaluator} {v : Value}
    (hx : ev.tree.isEffect x = true) : ¬ev.Yields x v := by
  obtain ⟨s, hs, he⟩ := Tree.isEffect_iff.1 hx
  have hshape : ∀ {s'}, ev.tree.shape x = .ok s' → s'.isEffect = true := by
    intro s' hs'
    rw [hs] at hs'
    cases hs'
    exact he
  have hassign : ∀ {a b op}, ev.look x = .binary a op b → op = .assign := by
    intro a b op see
    have := hshape (shape_of_look_binary see)
    cases op <;> first | rfl | cases this
  intro ⟨height, h⟩
  cases h with
  | literal see _ => cases hshape (shape_of_look_literal see)
  | not see _ => cases hshape (shape_of_look_not see)
  | settled see _ settles =>
    cases hassign see
    cases settles
  | combined see _ _ _ value =>
    cases hassign see
    cases value
  | constant see _ =>
    obtain ⟨name, hs', _⟩ := shape_of_look_constant see
    cases hshape hs'

theorem Tree.Grows.isEffect (h : t.Grows t') (hx : t.isEffect x = true) : t'.isEffect x = true := by
  obtain ⟨s, hs, he⟩ := isEffect_iff.1 hx
  obtain ⟨n, hn, rfl⟩ := shape_eq_ok.1 hs
  obtain ⟨n', hn', hb, _⟩ := h.kept x n hn
  refine isEffect_iff.2 ⟨_, shape_of_get? hn', ?_⟩
  rw [← Shape.isEffect_bare, hb, Shape.isEffect_bare, he]

/-- A lost effect was not executed. -/
theorem Forgone.of_effect (h : Forgone w id x) (hx : w.tree.isEffect x = true) :
    Unexecuted w id x := by
  cases h with
  | unexecuted h => exact h
  | decided shape itself =>
    subst itself
    obtain ⟨s, hs, he⟩ := isEffect_iff.1 hx
    rw [shape] at hs
    cases hs
    cases he
  | evaluated value => exact absurd value (Evaluator.not_yields_of_isEffect hx)

/-- Whatever a run of a consistent tree makes of it, all effects that are left
are in the order they were in, and each that cannot be reached any more was
lost at a moment of the run at which a node gave way: it lay in a branch that
was not selected, or in an operand that was not needed. -/
theorem foldConstants_keeps_effects (h : t.Consistent) :
    ∃ r before, t.root = some r ∧ t.preorder r = .ok before ∧
      (c.symbolAt.Within t → ∃ result, foldConstants t c = .ok result) ∧
      ∀ changed t' c', foldConstants t c = .ok (changed, t', c') →
        ∃ after, t'.root = some r ∧ t'.preorder r = .ok after ∧
          (after.filter t'.isEffect).Sublist (before.filter t.isEffect) ∧
          ∀ x, t.Reaches r x → t.isEffect x = true → ¬t'.Reaches r x →
            ∃ w id reduction w₁, Moment t c w id ∧ w.reduce id = .ok (reduction, w₁) ∧
              reduction ≠ .unchanged ∧ Unexecuted w id x := by
  obtain ⟨parent, T, hT⟩ := h.exists_presents
  have hon : Walk.Ongoing c.setting Everywhere t.rank t t c := ⟨h.graded, rfl, rfl⟩
  have hinside : ∀ r, t.root = some r → t.Inside Everywhere r := fun _ => inside_of_root h.root
  refine ⟨T.label, T.labels, hT.root, hT.shows.preorder_eq hT.nodup, fun hw => ?_, ?_⟩
  · exact (hon.failsOnly_foldConstants c.symbolAt.keeps_everywhere hinside).exists_ok
      fun e he => he.2 hw
  intro changed t' c' hrun
  obtain ⟨T', news, hran, _⟩ :=
    foldConstants_presents (.blind c.setting t) rfl (Nat.le_refl _) hT hrun
  have hT' := hran.presents
  refine ⟨T'.labels, hran.label ▸ hT'.root, hran.label ▸ hT'.shows.preorder_eq hT'.nodup,
    hran.filter_sublist hT (fun _ => rfl) rfl rfl, fun x hx heffect hout => ?_⟩
  obtain ⟨w, id, r, w₁, hmoment, hreduced, hne, hforgone⟩ := hon.forgone hinside hrun hx hout
  have heffect' := (hon.moment hinside hmoment).2.isEffect heffect
  exact ⟨w, id, r, w₁, hmoment, hreduced, hne, hforgone.of_effect heffect'⟩

namespace Sample

/-- The program `if (true || f()) g(); else h();`, of which only the call of `g`
is executed. -/
def guarded : Tree where
  nodes := #[
    ⟨.literal (.boolean true), some ⟨3⟩, none⟩,
    ⟨.identifier "f", some ⟨2⟩, none⟩,
    ⟨.call ⟨1⟩ [], some ⟨3⟩, none⟩,
    ⟨.binary ⟨0⟩ .or ⟨2⟩, some ⟨10⟩, none⟩,
    ⟨.identifier "g", some ⟨5⟩, none⟩,
    ⟨.call ⟨4⟩ [], some ⟨6⟩, none⟩,
    ⟨.expressionStatement ⟨5⟩, some ⟨10⟩, none⟩,
    ⟨.identifier "h", some ⟨8⟩, none⟩,
    ⟨.call ⟨7⟩ [], some ⟨9⟩, none⟩,
    ⟨.expressionStatement ⟨8⟩, some ⟨10⟩, none⟩,
    ⟨.branch ⟨3⟩ ⟨6⟩ (some ⟨9⟩), some ⟨11⟩, none⟩,
    ⟨.sourceFile [⟨10⟩], none, none⟩]
  root := some ⟨11⟩

theorem guarded_consistent : guarded.Consistent :=
  (Built.wellFormed ⟨by decide +kernel, by decide +kernel, by decide +kernel, by decide +kernel,
    by decide +kernel, by decide +kernel⟩).consistent

end Sample

theorem foldConstants_keeps_effects_sample :
    ∃ r before, Sample.guarded.root = some r ∧ Sample.guarded.preorder r = .ok before ∧
      (∃ result,
        foldConstants Sample.guarded (.start (fun _ => none) Sample.options) = .ok result) ∧
      ∀ changed t' c',
        foldConstants Sample.guarded (.start (fun _ => none) Sample.options)
          = .ok (changed, t', c') →
        ∃ after, t'.root = some r ∧ t'.preorder r = .ok after ∧
          (after.filter t'.isEffect).Sublist (before.filter Sample.guarded.isEffect) ∧
          ∀ x, Sample.guarded.Reaches r x → Sample.guarded.isEffect x = true →
            ¬t'.Reaches r x → ∃ w id reduction w₁,
              Moment Sample.guarded (.start (fun _ => none) Sample.options) w id ∧
              w.reduce id = .ok (reduction, w₁) ∧ reduction ≠ .unchanged ∧ Unexecuted w id x := by
  obtain ⟨r, before, hr, hbefore, hexists, hall⟩ := foldConstants_keeps_effects
    (c := .start (fun _ => none) Sample.options) Sample.guarded_consistent
  exact ⟨r, before, hr, hbefore, hexists (fun x symbol d hs _ => by cases hs), hall⟩

end ScriptReduce
