/-
ScriptReduce.Proofs.Reduce.Termination: a walk comes to an end.

Where the walk goes on after a reduction has a lower rank than where it was:
a selected branch lies below its `if` statement, and a new leaf has rank zero.
So the bounds hold throughout a run, whatever the parent links are and however
nodes are shared. A run in a graded domain that symbols do not lead out of
gives a result, unless a symbol names a declaration that is no node of the
tree.
-/
import ScriptReduce.Proofs.Evaluate.Termination
import ScriptReduce.Proofs.Reduce.Step

namespace ScriptReduce

open ScriptReduce.Tree

variable {D : NodeId → Prop} {rank : NodeId → Nat} {limit : Nat}

/-! ## 1. Steps -/

theorem Tree.Graded.withLiteral {t : Tree} (h : t.Graded D rank limit) (l : Literal) :
    (t.withLiteral l).Graded D rank limit :=
  h.push (.inl ⟨l, rfl⟩)

theorem Tree.Graded.withEmpty {t : Tree} (h : t.Graded D rank limit) :
    t.withEmpty.Graded D rank limit :=
  h.push (.inr rfl)

/-- Only a leaf has rank zero. -/
theorem Tree.Graded.rank_pos_of_not_leaf {t : Tree} (h : t.Graded D rank limit) {x : NodeId}
    {s : Shape NodeId} (hs : t.shape x = .ok s) (hl : ¬s.IsLeaf) : 0 < rank x :=
  h.rank_pos x (h.lt_limit_of_not_leaf hs hl)

/-- What a step takes a node's place with. -/
def Change.replacement : Change → Option NodeId
  | .folded _ literal _ => some literal
  | .selected _ branch => some branch
  | .dropped _ placeholder => placeholder

/-- The walk goes on at what has taken the place. -/
theorem Change.replacement_of_reduction {change : Change} {m : NodeId}
    (h : change.reduction = .replaced m) : change.replacement = some m := by
  cases change with
  | folded | selected =>
    cases h
    rfl
  | dropped _ placeholder =>
    cases placeholder with
    | none => cases h
    | some p =>
      cases h
      rfl

theorem Step.grows {st : Setting} {t t' : Tree} {change : Change} (h : Step st t change t') :
    t.Grows t' := by
  cases h with
  | folded _ _ _ _ relinked => exact (Grows.push t _).trans (.relinked relinked)
  | selected _ _ _ _ relinked => exact .relinked relinked
  | dropped _ _ _ _ _ _ relinked => exact .relinked relinked
  | filled _ _ _ _ _ _ relinked => exact (Grows.push t _).trans (.relinked relinked)

/-- A step keeps the grades, and puts something of lower rank in the place of
the node. -/
theorem Step.graded {st : Setting} {t t' : Tree} {change : Change} (h : Step st t change t')
    (hg : t.Graded D rank limit) (hnode : D change.node) :
    t'.Graded D rank limit ∧ t.size ≤ t'.size ∧
      ∀ m, change.replacement = some m → t'.Inside D m ∧ rank m < rank change.node := by
  have hnext : rank t.next = 0 := hg.rank_later _ hg.limit_le
  have hlater : D t.next := hg.later _ hg.limit_le
  have hbranch : ∀ {old c a : NodeId} {b : Option NodeId},
      t.shape old = .ok (.branch c a b) → 0 < rank old := fun hs =>
    hg.rank_pos_of_not_leaf hs (by simp [Shape.IsLeaf])
  have hholder : ∀ {holder old : NodeId}, D old → t.Linked holder old → rank old < rank holder := by
    rintro holder old hold ⟨hholds, n, hn, hp⟩
    exact hg.descends holder old (hg.parents old n holder hold hn hp).1 hholds
  cases h with
  | @folded holder old site v l _ linked atSite folds literal relinked =>
    have hpos : 0 < rank old := by
      obtain ⟨_, s, hs, hkind⟩ := folds
      refine hg.rank_pos_of_not_leaf hs ?_
      rintro (⟨l, rfl⟩ | rfl) <;> exact hkind
    have hlt := hholder hnode linked
    have hsize : t'.size = t.size + 1 := relinked.size.trans (size_push t _)
    refine ⟨(hg.withLiteral l).relinked hnode (linked.push _) relinked ?_, by omega, ?_⟩
    · rintro m ⟨⟩
      exact ⟨⟨hlater, by show t.size < (t.withLiteral l).size; simp [Tree.withLiteral]⟩, by omega⟩
    · rintro m ⟨⟩
      exact ⟨⟨hlater, by show t.size < t'.size; omega⟩, by show rank t.next < rank old; omega⟩
  | @selected holder old c a s b v _ linked shape decides chosen relinked =>
    have hholds : t.Holds old s := holds_of_branch shape (chosen_mem chosen)
    have hlt : rank s < rank old := hg.descends old s hnode hholds
    have hlt' : rank old < rank holder := hholder hnode linked
    have hs := hg.children old s hnode hholds
    refine ⟨hg.relinked hnode linked relinked ?_, relinked.size.ge, ?_⟩
    · rintro m ⟨⟩
      exact ⟨hs, by omega⟩
    · rintro m ⟨⟩
      exact ⟨hs.mono relinked.size.ge, hlt⟩
  | dropped linked shape decides chosen node vacates relinked =>
    refine ⟨hg.relinked hnode linked relinked ?_, relinked.size.ge, ?_⟩
    · rintro m ⟨⟩
    · rintro m ⟨⟩
  | @filled holder old c a b n v _ linked shape decides chosen node vacates relinked =>
    have hpos := hbranch shape
    have hlt := hholder hnode linked
    have hsize : t'.size = t.size + 1 := relinked.size.trans (size_push t _)
    refine ⟨hg.withEmpty.relinked hnode (linked.push _) relinked ?_, by omega, ?_⟩
    · rintro m ⟨⟩
      exact ⟨⟨hlater, by show t.size < t.withEmpty.size; simp [Tree.withEmpty]⟩, by omega⟩
    · rintro m ⟨⟩
      exact ⟨⟨hlater, by show t.size < t'.size; omega⟩, by show rank t.next < rank old; omega⟩

/-! ## 2. Reductions -/

namespace Walk

variable {w w' : Walk} {id : NodeId} {r : Reduction}

theorem exists_isSubstitutionSite {t : Tree} (hc : t.Closed D) (hid : t.Inside D id) :
    ∃ site, isSubstitutionSite t id = .ok site := by
  obtain ⟨n, hn⟩ := exists_get? hid.2
  unfold isSubstitutionSite
  rw [bind_of_ok _ (parent_of_get? hn)]
  cases hp : n.parent with
  | none => exact ⟨false, rfl⟩
  | some p =>
    obtain ⟨k, hk⟩ := exists_get? (hc.parents id n p hid.1 hn hp).2
    simp only
    rw [bind_of_ok _ (shape_of_get? hk)]
    split <;> exact ⟨_, rfl⟩

/-- A reduction keeps the grades, and the walk goes on at a lower rank. -/
theorem reduce_graded (hg : w.tree.Graded D rank limit) (hid : w.tree.Inside D id)
    (h : w.reduce id = .ok (r, w')) :
    w'.tree.Graded D rank limit ∧ w.tree.Grows w'.tree ∧
      w'.context.setting = w.context.setting ∧
      ∀ m, r = .replaced m → w'.tree.Inside D m ∧ rank m < rank id := by
  obtain ⟨site, hsite⟩ := exists_isSubstitutionSite hg.toClosed hid
  cases reduce_cases hsite h with
  | kept stays tree changed follows =>
    rw [tree]
    exact ⟨hg, .refl _, follows.setting, fun m hm => by cases hm⟩
  | @made _ change step node changed follows =>
    subst node
    obtain ⟨hg', _, hlow⟩ := step.graded hg hid.1
    refine ⟨hg', step.grows, follows.setting, fun m hm => hlow m ?_⟩
    exact Change.replacement_of_reduction hm
  | failed unlinked tree changed misses =>
    rcases tree with htree | ⟨l, htree⟩
    · rw [htree]
      exact ⟨hg, .refl _, misses.setting, fun m hm => by cases hm⟩
    · rw [htree]
      exact ⟨hg.withLiteral l, .push _ _, misses.setting, fun m hm => by cases hm⟩

end Walk

/-! ## 3. Reductions do not fail -/

theorem Context.exists_replace {c : Context} {t : Tree} (hc : t.Closed D) {old m : NodeId}
    (hold : t.Inside D old) (hm : m.index < t.size) : ∃ r, c.replace t old m = .ok r := by
  obtain ⟨n, hn⟩ := exists_get? hold.2
  obtain ⟨k, hk⟩ := exists_get? hm
  unfold Context.replace
  rcases replace_total hn (fun p hp => (hc.parents old n p hold.1 hn hp).2) hm with
    ⟨t', ht⟩ | ⟨e, he, hnode, _⟩
  · rw [bind_of_ok _ ht]
    exact ⟨_, rfl⟩
  · rw [bind_of_ok _ he]
    simp only
    unfold Diagnostic.ofReplace
    rw [hnode, bind_of_ok _ (node_eq_ok.2 hn), bind_of_ok _ (node_eq_ok.2 hk)]
    exact ⟨_, rfl⟩

namespace Walk

variable {w w' : Walk} {id : NodeId} {r : Reduction}

theorem exists_install (hc : w.tree.Closed D) (hid : w.tree.Inside D id) (v : Value) :
    ∃ r, w.install id v = .ok r := by
  obtain ⟨n, hn⟩ := exists_get? hid.2
  cases hl : v.toLiteral? with
  | none =>
    obtain ⟨d, hd⟩ : ∃ d, Diagnostic.ofValue w.tree id v = .ok d :=
      ⟨_, bind_of_ok _ (node_eq_ok.2 hn)⟩
    exact ⟨_, install_iff.2 (.inexpressible hl hd)⟩
  | some l =>
    have hnext : w.tree.next.index < (w.tree.withLiteral l).size := by
      show w.tree.size < _
      simp [Tree.withLiteral]
    obtain ⟨⟨done, t', c'⟩, hr⟩ := Context.exists_replace (c := w.context)
      (hc.push (.inl ⟨l, rfl⟩)) (hid.push _) hnext
    cases done with
    | false => exact ⟨_, install_iff.2 (.refused hl hr)⟩
    | true => exact ⟨_, install_iff.2 (.placed hl hr)⟩

theorem exists_installIfKnown (hc : w.tree.Closed D) (hid : w.tree.Inside D id)
    (v : Option Value) : ∃ r, w.installIfKnown id v = .ok r := by
  cases v with
  | none => exact ⟨_, rfl⟩
  | some v => exact exists_install hc hid v

theorem exists_select (hc : w.tree.Closed D) (hid : w.tree.Inside D id) {selected : NodeId}
    (hs : selected.index < w.tree.size) : ∃ r, w.select id selected = .ok r := by
  unfold select
  obtain ⟨⟨done, t', c'⟩, hr⟩ := Context.exists_replace (c := w.context) hc hid hs
  rw [bind_of_ok _ hr]
  simp only
  split <;> exact ⟨_, rfl⟩

theorem exists_drop (hc : w.tree.Closed D) (hid : w.tree.Inside D id) :
    ∃ r, w.drop id = .ok r := by
  obtain ⟨n, hn⟩ := exists_get? hid.2
  unfold drop
  rcases remove_total hn (fun p hp => (hc.parents id n p hid.1 hn hp).2) with
    ⟨res, hr⟩ | ⟨e, he, hnode, _⟩
  · rw [bind_of_ok _ hr]
    exact ⟨_, rfl⟩
  · rw [bind_of_ok _ he]
    simp only
    unfold Diagnostic.ofRemove
    rw [hnode, bind_of_ok _ (node_eq_ok.2 hn)]
    exact ⟨_, rfl⟩

/-- A reduction gives a result, unless evaluation is sent to a declaration
that is not there. -/
theorem failsOnly_reduce (hg : w.tree.Graded D rank limit) (hk : w.context.symbolAt.Keeps D)
    (hid : w.tree.Inside D id) :
    FailsOnly (w.context.setting.evaluator w.tree).Misled (w.reduce id) := by
  have hc := hg.toClosed
  have hfold : FailsOnly (w.context.setting.evaluator w.tree).Misled (w.foldOperator id) := by
    refine .bind (.bind (Evaluator.failsOnly_evaluate hg hk hid) fun _ _ => .ok _) fun v _ => ?_
    exact .of_exists <| exists_installIfKnown (w := ⟨w.tree, v.2, w.changed⟩) hc hid v.1
  obtain ⟨n, hn⟩ := exists_get? hid.2
  unfold reduce
  rw [bind_of_ok _ (shape_of_get? hn)]
  split
  · rename_i c a b hs
    have hchild : ∀ x, x ∈ n.shape.children → w.tree.Inside D x := fun x hx =>
      hc.children id x hid.1 ⟨n, hn, hx⟩
    split
    · have hcondition := hchild c (by simp [hs])
      refine .bind (.bind (Evaluator.failsOnly_evaluate hg hk hcondition) fun _ _ => .ok _)
        fun v _ => ?_
      obtain ⟨value, context⟩ := v
      cases value with
      | none => exact .ok _
      | some value =>
        simp only
        split
        · rename_i selected hselected
          have hmem : selected ∈ n.shape.children :=
            hs ▸ Shape.mem_children_branch (chosen_mem hselected)
          exact .of_exists <| exists_select (w := ⟨w.tree, context, w.changed⟩) hc hid
            (hchild selected hmem).2
        · exact .of_exists <| exists_drop (w := ⟨w.tree, context, w.changed⟩) hc hid
    · exact .ok _
  · split
    · exact hfold
    · exact .ok _
  · split
    · exact hfold
    · exact .ok _
  · split
    · obtain ⟨site, hsite⟩ := exists_isSubstitutionSite hc hid
      unfold substitute
      rw [bind_of_ok _ hsite]
      split
      · refine .bind (.bind (Evaluator.failsOnly_resolve hg hk hid) fun _ _ => .ok _) fun v _ => ?_
        exact .of_exists <| exists_installIfKnown (w := ⟨w.tree, v.2, w.changed⟩) hc hid v.1
      · exact .ok _
    · exact .ok _
  · exact .ok _

/-! ## 4. Walks -/

section

variable {I : Tree → Context → Prop} {P : Tree → NodeId → Prop}

theorem foldlM_keeps {f : Walk → NodeId → Except Fault Walk}
    (hf : ∀ {w w' : Walk} {id : NodeId}, I w.tree w.context → P w.tree id → f w id = .ok w' →
      I w'.tree w'.context ∧ ∀ x, P w.tree x → P w'.tree x) {ids : List NodeId} :
    ∀ {w w' : Walk}, I w.tree w.context → (∀ x ∈ ids, P w.tree x) → ids.foldlM f w = .ok w' →
      I w'.tree w'.context ∧ ∀ x, P w.tree x → P w'.tree x := by
  induction ids with
  | nil =>
    intro w w' h _ hw
    cases hw
    exact ⟨h, fun _ hx => hx⟩
  | cons x ids ih =>
    intro w w' h hids hw
    obtain ⟨hx, hids⟩ := List.forall_mem_cons.1 hids
    obtain ⟨w₁, h₁, hw⟩ := foldlM_cons_eq_ok.1 hw
    obtain ⟨hfirst, hstill⟩ := hf h hx h₁
    obtain ⟨hrest, hstill'⟩ := ih hfirst (fun y hy => hstill y (hids y hy)) hw
    exact ⟨hrest, fun y hy => hstill' y (hstill y hy)⟩

variable
  (hreduce : ∀ {w w' : Walk} {id : NodeId} {r : Reduction}, I w.tree w.context → P w.tree id →
    w.reduce id = .ok (r, w') →
    (I w'.tree w'.context ∧ ∀ x, P w.tree x → P w'.tree x) ∧ ∀ m, r = .replaced m → P w'.tree m)
  (hchild : ∀ {t c id x}, I t c → P t id → t.Holds id x → P t x)

include hreduce hchild

/-- A walk keeps what each reduction keeps that is made at a node of some kind,
if what such a node holds and what takes its place are of the same kind. -/
theorem visit_keeps {depth : Nat} : ∀ {w w' : Walk} {id : NodeId}, I w.tree w.context →
    P w.tree id → visitWithin depth w id = .ok w' →
    I w'.tree w'.context ∧ ∀ x, P w.tree x → P w'.tree x := by
  induction depth with
  | zero =>
    intro w w' id _ _ hv
    cases hv
  | succ depth ih =>
    intro w w' id h hid hv
    cases visit_succ_iff.1 hv with
    | @replaced w₁ _ m reduced onward =>
      obtain ⟨⟨h₁, hstill⟩, hplace⟩ := hreduce h hid reduced
      obtain ⟨h', hstill'⟩ := @ih { w₁ with changed := true } w' m h₁ (hplace m rfl) onward
      exact ⟨h', fun x hx => hstill' x (hstill x hx)⟩
    | removed reduced => exact (hreduce h hid reduced).1
    | @unchanged w₁ _ n reduced node below =>
      obtain ⟨⟨h₁, hstill⟩, -⟩ := hreduce h hid reduced
      have hchildren : ∀ x ∈ n.shape.children, P w₁.tree x := fun x hx =>
        hchild h₁ (hstill id hid) ⟨n, node, hx⟩
      obtain ⟨h', hstill'⟩ := foldlM_keeps ih h₁ hchildren below
      exact ⟨h', fun x hx => hstill' x (hstill x hx)⟩

/-- So does a run. -/
theorem foldConstants_keeps {t t' : Tree} {c c' : Context} {changed : Bool} (h : I t c)
    (hroot : ∀ r, t.root = some r → P t r)
    (hrun : foldConstants t c = .ok (changed, t', c')) : I t' c' := by
  rcases foldConstants_eq_ok.1 hrun with ⟨-, -, rfl, rfl⟩ | ⟨root, hr, hw⟩
  · exact h
  · exact (visit_keeps hreduce hchild (w := ⟨t, c, false⟩) h (hroot root hr) hw).1

end

variable {st : Setting} {t₀ : Tree}

/-- What holds throughout a run that starts with the tree `t₀`: the grades,
the root and the setting. -/
structure Ongoing (st : Setting) (D : NodeId → Prop) (rank : NodeId → Nat) (t₀ t : Tree)
    (c : Context) : Prop where
  graded : t.Graded D rank t₀.size
  root : t.root = t₀.root
  setting : c.setting = st

/-- The fault of being sent to a declaration that is not a node of the tree
that a run starts with. -/
def Astray (st : Setting) (t₀ : Tree) (e : Fault) : Prop :=
  e ≠ .endless ∧ ¬st.symbolAt.Within t₀

/-- The same along a walk, whose tree grows. -/
def Onward (st : Setting) (D : NodeId → Prop) (rank : NodeId → Nat) (t₀ : Tree) (w w' : Walk) :
    Prop :=
  Ongoing st D rank t₀ w'.tree w'.context ∧ w.tree.Grows w'.tree

theorem Onward.trans {w₁ : Walk} (h : Onward st D rank t₀ w w₁) (h' : Onward st D rank t₀ w₁ w') :
    Onward st D rank t₀ w w' :=
  ⟨h'.1, h.2.trans h'.2⟩

namespace Ongoing

theorem reduce (h : Ongoing st D rank t₀ w.tree w.context) (hid : w.tree.Inside D id)
    (hr : w.reduce id = .ok (r, w')) : Onward st D rank t₀ w w' ∧
      ∀ m, r = .replaced m → w'.tree.Inside D m ∧ rank m < rank id := by
  obtain ⟨hg, hgrows, hset, hlow⟩ := reduce_graded h.graded hid hr
  exact ⟨⟨⟨hg, hgrows.root.trans h.root, hset.trans h.setting⟩, hgrows⟩, hlow⟩

/-- A walk keeps the grades. -/
theorem visit {depth : Nat} {w w' : Walk} {id : NodeId}
    (h : Ongoing st D rank t₀ w.tree w.context) (hid : w.tree.Inside D id)
    (hv : visitWithin depth w id = .ok w') : Onward st D rank t₀ w w' := by
  refine (visit_keeps (I := fun t c => Ongoing st D rank t₀ t c ∧ w.tree.Grows t)
    (P := fun t x => t.Inside D x) ?_ (fun h hid hx => h.1.graded.children _ _ hid.1 hx)
    ⟨h, .refl _⟩ hid hv).1
  rintro w₁ w₂ x r ⟨h, hgrows⟩ hx hr
  obtain ⟨⟨hon, hgrows'⟩, hlow⟩ := h.reduce hx hr
  exact ⟨⟨⟨hon, hgrows.trans hgrows'⟩, fun y hy => hy.mono hgrows'.size⟩,
    fun m hm => (hlow m hm).1⟩

theorem failsOnly_foldlM {f : Walk → NodeId → Except Fault Walk} {P : NodeId → Prop}
    (hf : ∀ {w w' id}, Ongoing st D rank t₀ w.tree w.context → w.tree.Inside D id →
      f w id = .ok w' → Onward st D rank t₀ w w')
    (hfails : ∀ {w id}, Ongoing st D rank t₀ w.tree w.context → w.tree.Inside D id → P id →
      FailsOnly (Astray st t₀) (f w id)) {ids : List NodeId} :
    ∀ {w : Walk}, Ongoing st D rank t₀ w.tree w.context →
      (∀ x ∈ ids, w.tree.Inside D x ∧ P x) → FailsOnly (Astray st t₀) (ids.foldlM f w) := by
  induction ids with
  | nil =>
    intro w _ _
    exact .ok w
  | cons x ids ih =>
    intro w h hids
    obtain ⟨hx, hP⟩ := hids x List.mem_cons_self
    rw [List.foldlM_cons]
    refine .bind (hfails h hx hP) fun w₁ h₁ => ?_
    have hon := hf h hx h₁
    refine ih hon.1 fun y hy => ?_
    obtain ⟨hy, hP⟩ := hids y (List.mem_cons_of_mem x hy)
    exact ⟨hy.mono hon.2.size, hP⟩

/-- A walk comes to an end within a depth beyond the rank of its node. -/
theorem failsOnly_visit (hk : st.symbolAt.Keeps D) {depth : Nat} :
    ∀ {w : Walk} {id : NodeId}, Ongoing st D rank t₀ w.tree w.context → w.tree.Inside D id →
    rank id < depth → FailsOnly (Astray st t₀) (visitWithin depth w id) := by
  induction depth with
  | zero =>
    intro w id _ _ hdepth
    omega
  | succ depth ih =>
    intro w id h hid hdepth
    have hsymbolAt : w.context.symbolAt = st.symbolAt := congrArg Setting.symbolAt h.setting
    have hreduce : FailsOnly (Astray st t₀) (w.reduce id) := by
      intro e he
      obtain ⟨hne, hw⟩ := failsOnly_reduce h.graded (hsymbolAt ▸ hk) hid e he
      refine ⟨hne, fun hw₀ => hw ?_⟩
      exact (congrArg (Resolver.Within · w.tree) hsymbolAt).mpr (hw₀.mono h.graded.limit_le)
    rw [visitWithin]
    refine .bind hreduce fun v hr => ?_
    obtain ⟨r, w₁⟩ := v
    obtain ⟨hon, hlow⟩ := h.reduce hid hr
    cases r with
    | replaced m =>
      obtain ⟨hm, hrank⟩ := hlow m rfl
      exact @ih { w₁ with changed := true } m hon.1 hm (by omega)
    | removed => exact .ok _
    | unchanged =>
      obtain ⟨n, hn⟩ := exists_get? (Nat.lt_of_lt_of_le hid.2 hon.2.size)
      simp only
      rw [bind_of_ok _ (children_of_get? hn)]
      refine hon.1.failsOnly_foldlM (P := fun x => rank x < depth) visit
        (fun h hx hP => ih h hx hP) fun x hx => ?_
      have hholds : w₁.tree.Holds id x := ⟨n, hn, hx⟩
      have := hon.1.graded.descends id x hid.1 hholds
      exact ⟨hon.1.graded.children id x hid.1 hholds, by omega⟩

end Ongoing

end Walk

/-! ## 5. Runs -/

namespace Walk.Ongoing

variable {st : Setting} {t t' t₀ : Tree} {c c' : Context} {changed : Bool}

/-- A run gives a result, unless a symbol names a declaration that is no node
of the tree. -/
theorem failsOnly_foldConstants (h : Ongoing st D rank t₀ t c) (hk : st.symbolAt.Keeps D)
    (hroot : ∀ r, t₀.root = some r → t₀.Inside D r) :
    FailsOnly (Astray st t₀) (foldConstants t c) := by
  unfold foldConstants
  cases hr : t.root with
  | none => exact .ok _
  | some root =>
    have hinside := (hroot root (h.root ▸ hr)).mono h.graded.limit_le
    refine .bind (failsOnly_visit (w := ⟨t, c, false⟩) hk h hinside ?_) fun _ _ => .ok _
    show rank root < (t.size + 2) * (t.size + 2)
    have h₁ := h.graded.rank_le root
    have h₂ := h.graded.limit_le
    have h₃ : 1 * (t.size + 2) ≤ (t.size + 2) * (t.size + 2) := Nat.mul_le_mul_right _ (by omega)
    omega

/-- A run keeps the grades. -/
theorem foldConstants (h : Ongoing st D rank t₀ t c)
    (hroot : ∀ r, t₀.root = some r → t₀.Inside D r)
    (hrun : foldConstants t c = .ok (changed, t', c')) : Ongoing st D rank t₀ t' c' := by
  refine foldConstants_keeps (P := fun t x => t.Inside D x) (fun h hid hr => ?_)
    (fun h hid hx => h.graded.children _ _ hid.1 hx) h
    (fun r hr => (hroot r (h.root ▸ hr)).mono h.graded.limit_le) hrun
  obtain ⟨⟨hon, hgrows⟩, hlow⟩ := h.reduce hid hr
  exact ⟨⟨hon, fun x hx => hx.mono hgrows.size⟩, fun m hm => (hlow m hm).1⟩

end Walk.Ongoing

end ScriptReduce
