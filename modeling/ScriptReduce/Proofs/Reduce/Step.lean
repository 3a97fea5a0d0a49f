/-
ScriptReduce.Proofs.Reduce.Step: what one reduction can do.

`Step` lists the changes that a reduction makes to a tree, with all that has
to hold before: that the node is linked to its holder, what evaluates to what,
and which options are on. `Stays` says when a node is left alone.
`reduce_cases` says that there is nothing else: an offered node is left alone,
or one step is made and noted in the journal, or the node is not linked and
the attempt is reported. Every invariant of a walk is derived from these
cases, and none looks at the reductions again. What a visit and a run consist of
is said here too, once for all of them (`visit_succ_iff`, `foldConstants_eq_ok`).
-/
import ScriptReduce.Proofs.Evaluate.Semantics
import ScriptReduce.Reduce.Folding

namespace ScriptReduce

/-! ## 1. The setting of a run -/

/-- What stays the same through a run. -/
structure Setting where
  symbolAt : Resolver
  options : Options

/-- Evaluation of a tree in a setting. -/
def Setting.evaluator (st : Setting) (t : Tree) : Evaluator :=
  ⟨t, st.symbolAt, st.options.propagate⟩

namespace Context

variable {c c' c'' : Context} {t t' : Tree} {id old : NodeId}

def setting (c : Context) : Setting := ⟨c.symbolAt, c.options⟩

/-- No two diagnostics of a context are of the same kind and about the same
node. -/
def Distinct (c : Context) : Prop := (c.diagnostics.map fun d => (d.kind, d.node)).Nodup

theorem mem_diagnostics_report {d e : Diagnostic} (h : e ∈ (c.report d).diagnostics) :
    e ∈ c.diagnostics ∨ e = d := by
  unfold report at h
  split at h
  · exact Or.inl h
  · exact (List.mem_append.1 h).imp_right List.mem_singleton.1

/-- What was reported before is not reported again. -/
theorem Distinct.report (h : c.Distinct) (d : Diagnostic) : (c.report d).Distinct := by
  unfold Context.report
  split
  · exact h
  · rename_i hnew
    have hd : (d.kind, d.node) ∉ c.diagnostics.map fun d => (d.kind, d.node) := by
      intro hmem
      obtain ⟨e, he, heq⟩ := List.mem_map.1 hmem
      obtain ⟨hkind, hnode⟩ := Prod.mk.inj heq
      exact hnew (List.any_eq_true.2 ⟨e, he, by simp [hkind, hnode]⟩)
    simp only [Distinct, warn, List.map_append, List.map_cons, List.map_nil]
    exact List.nodup_append.2 ⟨h, List.nodup_singleton _, fun x hx y hy heq => hd (by
      rw [← List.mem_singleton.1 hy, ← heq]
      exact hx)⟩

/-- How a context may go on: the setting stays, changes are noted in front,
and only values without a literal are reported. -/
structure Follows (c : Context) (news : List Change) (c' : Context) : Prop where
  setting : c'.setting = c.setting
  changes : c'.changes = news ++ c.changes
  diagnostics : ∀ d ∈ c'.diagnostics, d ∈ c.diagnostics ∨ d.kind = .unmaterializableLiteral
  distinct : c.Distinct → c'.Distinct

/-- How a context goes on when a node had no slot that could be given away: this
is reported, and nothing else happens. -/
structure Misses (c : Context) (id : NodeId) (c' : Context) : Prop where
  setting : c'.setting = c.setting
  changes : c'.changes = c.changes
  diagnostics : ∀ d ∈ c'.diagnostics, d ∈ c.diagnostics ∨ d.kind = .slotNotFound ∧ d.node = id
  distinct : c.Distinct → c'.Distinct

theorem setting_report (c : Context) (d : Diagnostic) : (c.report d).setting = c.setting := by
  unfold report
  split <;> rfl

theorem changes_report (c : Context) (d : Diagnostic) : (c.report d).changes = c.changes := by
  unfold report
  split <;> rfl

namespace Follows

theorem refl (c : Context) : c.Follows [] c := ⟨rfl, rfl, fun _ h => Or.inl h, fun h => h⟩

theorem trans {news news' : List Change} (h : c.Follows news c') (h' : c'.Follows news' c'') :
    c.Follows (news' ++ news) c'' where
  setting := h'.setting.trans h.setting
  changes := by rw [h'.changes, h.changes, List.append_assoc]
  diagnostics d hd := (h'.diagnostics d hd).elim (h.diagnostics d) Or.inr
  distinct hc := h'.distinct (h.distinct hc)

theorem note (c : Context) (o : Outcome) : c.Follows [] (c.note o) :=
  ⟨rfl, rfl, fun _ h => Or.inl h, fun h => h⟩

theorem record (c : Context) (change : Change) : c.Follows [change] (c.record change) :=
  ⟨rfl, rfl, fun _ h => Or.inl h, fun h => h⟩

theorem report (c : Context) {d : Diagnostic} (hd : d.kind = .unmaterializableLiteral) :
    c.Follows [] (c.report d) where
  setting := setting_report c d
  changes := changes_report c d
  diagnostics e he := (mem_diagnostics_report he).imp_right fun heq => by rw [heq, hd]
  distinct h := h.report d

end Follows

theorem Misses.report (c : Context) {d : Diagnostic} {id : NodeId} (hkind : d.kind = .slotNotFound)
    (hnode : d.node = id) : c.Misses id (c.report d) where
  setting := setting_report c d
  changes := changes_report c d
  diagnostics e he := by
    rcases mem_diagnostics_report he with he | rfl
    · exact Or.inl he
    · exact Or.inr ⟨hkind, hnode⟩
  distinct h := h.report d

/-- Something may have been asked before. -/
theorem Misses.of_follows {id : NodeId} (h : c.Follows [] c') (h' : c'.Misses id c'')
    (hd : ∀ d ∈ c'.diagnostics, d ∈ c.diagnostics) : c.Misses id c'' where
  setting := h'.setting.trans h.setting
  changes := h'.changes.trans h.changes
  diagnostics d hmem := (h'.diagnostics d hmem).imp_left (hd d)
  distinct hc := h'.distinct (h.distinct hc)

theorem evaluate_eq_ok {v : Option Value} :
    c.evaluate t id = .ok (v, c') ↔
      ∃ o, (c.setting.evaluator t).evaluate id = .ok o ∧ o.value = v ∧ c' = c.note o := by
  unfold evaluate
  rw [bind_eq_ok]
  constructor
  · rintro ⟨o, ho, h⟩
    cases h
    exact ⟨o, ho, rfl, rfl⟩
  · rintro ⟨o, ho, rfl, rfl⟩
    exact ⟨o, ho, rfl⟩

theorem resolve_eq_ok {v : Option Value} :
    c.resolve t id = .ok (v, c') ↔
      ∃ o, (c.setting.evaluator t).resolve id = .ok o ∧ o.value = v ∧ c' = c.note o := by
  unfold resolve
  rw [bind_eq_ok]
  constructor
  · rintro ⟨o, ho, h⟩
    cases h
    exact ⟨o, ho, rfl, rfl⟩
  · rintro ⟨o, ho, rfl, rfl⟩
    exact ⟨o, ho, rfl⟩

/-- A replacement is made, or it fails and leaves the tree as it was. -/
theorem replace_eq_ok {m : NodeId} {done : Bool} (h : c.replace t old m = .ok (done, t', c')) :
    (done = true ∧ c' = c ∧ t.replace old m = .ok (.ok t')) ∨
      (done = false ∧ t' = t ∧ c.Misses old c' ∧ ∀ p, ¬t.Linked p old) := by
  obtain ⟨r, hr, h⟩ := bind_eq_ok.1 h
  cases r with
  | ok u =>
    cases h
    exact Or.inl ⟨rfl, rfl, hr⟩
  | error e =>
    obtain ⟨d, hd, h⟩ := bind_eq_ok.1 h
    cases h
    obtain ⟨hnode, hnot⟩ := Tree.refused_of_replace hr
    obtain ⟨_, _, hd⟩ := bind_eq_ok.1 hd
    obtain ⟨_, _, hd⟩ := bind_eq_ok.1 hd
    cases hd
    exact Or.inr ⟨rfl, rfl, .report c rfl hnode, hnot⟩

end Context

/-! ## 2. Steps -/

/-- Whether the options allow to fold a shape: an operator, or an identifier
where a literal may stand. -/
def Setting.MayFold {α : Type} (st : Setting) (site : Bool) : Shape α → Prop
  | .binary _ _ _ | .unary _ _ => st.options.fold = true
  | .identifier _ => st.options.propagate = true ∧ site = true
  | _ => False

theorem Setting.mayFold_bare {α : Type} (st : Setting) (site : Bool) (s : Shape α) :
    st.MayFold site s.bare ↔ st.MayFold site s := by
  cases s <;> exact Iff.rfl

/-- The leaf that stands for a literal. -/
def Tree.withLiteral (t : Tree) (l : Literal) : Tree := t.push ⟨.literal l, none, none⟩

/-- The tree with one more empty statement. -/
def Tree.withEmpty (t : Tree) : Tree := t.push ⟨.emptyStatement, none, none⟩

section

variable (st : Setting) (t : Tree)

/-- A node folds to a value: it has the value, and the options allow to fold
what it is. -/
def Folds (site : Bool) (id : NodeId) (v : Value) : Prop :=
  (st.evaluator t).Yields id v ∧ ∃ s, t.shape id = .ok s ∧ st.MayFold site s

/-- A node is an `if` statement whose condition has a value, and the options
allow it to be decided. -/
def Decides (id : NodeId) (v : Value) : Prop :=
  ∃ condition whenTrue whenFalse, t.shape id = .ok (.branch condition whenTrue whenFalse) ∧
    (st.evaluator t).Yields condition v ∧ st.options.branches = true

/-- A node is left alone: it neither folds to a value with a literal nor is
decided. -/
def Stays (site : Bool) (id : NodeId) : Prop :=
  (∀ v, Folds st t site id v → v.toLiteral? = none) ∧ ∀ v, ¬Decides st t id v

/-- The branch that a condition selects. -/
def chosen {α : Type} (v : Value) (whenTrue : α) (whenFalse : Option α) : Option α :=
  if v.isTruthy then some whenTrue else whenFalse

theorem chosen_map {α β : Type} (f : α → β) (v : Value) (whenTrue : α) (whenFalse : Option α) :
    chosen v (f whenTrue) (whenFalse.map f) = (chosen v whenTrue whenFalse).map f := by
  unfold chosen
  split <;> rfl

theorem chosen_mem {α : Type} {v : Value} {whenTrue selected : α} {whenFalse : Option α}
    (h : chosen v whenTrue whenFalse = some selected) :
    selected = whenTrue ∨ whenFalse = some selected := by
  unfold chosen at h
  split at h
  · exact Or.inl (Option.some.inj h).symm
  · exact Or.inr h

/-- One change of a tree. -/
inductive Step : Change → Tree → Prop where
  /-- A node gives its slot to a new literal of its value. -/
  | folded {holder old : NodeId} {site : Bool} {v : Value} {l : Literal} {t' : Tree}
    (linked : t.Linked holder old) (atSite : Walk.isSubstitutionSite t old = .ok site)
    (folds : Folds st t site old v) (literal : v.toLiteral? = some l)
    (relinked : (t.withLiteral l).Relinked holder old (some t.next) t') :
    Step (.folded old t.next v) t'
  /-- An `if` statement gives its slot to the branch it selects. -/
  | selected {holder old condition whenTrue selected : NodeId} {whenFalse : Option NodeId}
    {v : Value} {t' : Tree} (linked : t.Linked holder old)
    (shape : t.shape old = .ok (.branch condition whenTrue whenFalse))
    (decides : Decides st t old v) (chosen : chosen v whenTrue whenFalse = some selected)
    (relinked : t.Relinked holder old (some selected) t') : Step (.selected old selected) t'
  /-- An `if` statement that selects nothing leaves its slot empty. -/
  | dropped {holder old condition whenTrue : NodeId} {whenFalse : Option NodeId} {n : Node}
    {v : Value} {t' : Tree} (linked : t.Linked holder old)
    (shape : t.shape old = .ok (.branch condition whenTrue whenFalse))
    (decides : Decides st t old v) (chosen : chosen v whenTrue whenFalse = none)
    (node : t.get? holder = some n) (vacates : n.shape.vacate old ≠ none)
    (relinked : t.Relinked holder old none t') : Step (.dropped old none) t'
  /-- An `if` statement that selects nothing gives its slot to a new empty
  statement. -/
  | filled {holder old condition whenTrue : NodeId} {whenFalse : Option NodeId} {n : Node}
    {v : Value} {t' : Tree} (linked : t.Linked holder old)
    (shape : t.shape old = .ok (.branch condition whenTrue whenFalse))
    (decides : Decides st t old v) (chosen : chosen v whenTrue whenFalse = none)
    (node : t.get? holder = some n) (vacates : n.shape.vacate old = none)
    (relinked : t.withEmpty.Relinked holder old (some t.next) t') :
    Step (.dropped old (some t.next)) t'

end

/-- What became of the node of a change. -/
def Change.reduction : Change → Reduction
  | .folded _ literal _ => .replaced literal
  | .selected _ branch => .replaced branch
  | .dropped _ placeholder => placeholder.elim .removed .replaced

theorem Change.reduction_ne_unchanged (change : Change) : change.reduction ≠ .unchanged := by
  cases change with
  | folded | selected => simp [reduction]
  | dropped old placeholder => cases placeholder <;> simp [reduction]

/-- What can come of offering a node for reduction. -/
inductive Offered (w : Walk) (site : Bool) (id : NodeId) : Reduction → Walk → Prop where
  /-- The node is left alone. -/
  | kept {w' : Walk} (stays : Stays w.context.setting w.tree site id)
    (tree : w'.tree = w.tree) (changed : w'.changed = w.changed)
    (follows : w.context.Follows [] w'.context) : Offered w site id .unchanged w'
  /-- One step is made. -/
  | made {w' : Walk} {change : Change} (step : Step w.context.setting w.tree change w'.tree)
    (node : change.node = id) (changed : w'.changed = w.changed)
    (follows : w.context.Follows [change] w'.context) : Offered w site id change.reduction w'
  /-- The node has no slot that could be given away. A literal for it may have
  been added in vain. -/
  | failed {w' : Walk} (unlinked : ∀ holder, ¬w.tree.Linked holder id)
    (tree : w'.tree = w.tree ∨ ∃ l, w'.tree = w.tree.withLiteral l)
    (changed : w'.changed = w.changed) (misses : w.context.Misses id w'.context) :
    Offered w site id .unchanged w'

/-- A step that was made and noted. -/
theorem Offered.of_step {w : Walk} {site : Bool} {change : Change} {t' : Tree}
    (step : Step w.context.setting w.tree change t') :
    Offered w site change.node change.reduction ⟨t', w.context.record change, w.changed⟩ :=
  .made step rfl rfl (.record _ _)

/-- What is said of a walk after a question is said of the walk before. -/
theorem Offered.of_note {w w' : Walk} {id : NodeId} {r : Reduction} {site : Bool} (o : Outcome)
    (h : Offered { w with context := w.context.note o } site id r w') : Offered w site id r w' := by
  have hc := Context.Follows.note w.context o
  have hset : (w.context.note o).setting = w.context.setting := hc.setting
  cases h with
  | kept stays tree changed follows =>
    exact .kept (hset ▸ stays) tree changed (hc.trans follows)
  | made step node changed follows =>
    exact .made (hset ▸ step) node changed (hc.trans follows)
  | failed unlinked tree changed misses =>
    exact .failed unlinked tree changed (misses.of_follows hc fun _ hd => hd)

namespace Walk

variable {w w' : Walk} {id : NodeId} {r : Reduction} {site : Bool}

/-! ## 3. Every reduction is a step -/

/-- How putting a value in the place of a node goes: there is no literal for it, or
the literal is added, which then takes the place or does not. -/
inductive Installs (w : Walk) (id : NodeId) (v : Value) : Reduction → Walk → Prop where
  | inexpressible {d : Diagnostic} (literal : v.toLiteral? = none)
    (diagnosed : Diagnostic.ofValue w.tree id v = .ok d) :
    Installs w id v .unchanged { w with context := w.context.report d }
  | placed {l : Literal} {t' : Tree} {c' : Context} (literal : v.toLiteral? = some l)
    (replaced : w.context.replace (w.tree.withLiteral l) id w.tree.next = .ok (true, t', c')) :
    Installs w id v (.replaced w.tree.next)
      { w with tree := t', context := c'.record (.folded id w.tree.next v) }
  | refused {l : Literal} {t' : Tree} {c' : Context} (literal : v.toLiteral? = some l)
    (replaced : w.context.replace (w.tree.withLiteral l) id w.tree.next = .ok (false, t', c')) :
    Installs w id v .unchanged { w with tree := t', context := c' }

theorem install_iff {v : Value} : w.install id v = .ok (r, w') ↔ Installs w id v r w' := by
  unfold install
  constructor
  · intro h
    cases hl : v.toLiteral? with
    | none =>
      rw [hl] at h
      obtain ⟨d, hd, h⟩ := bind_eq_ok.1 h
      cases h
      exact .inexpressible hl hd
    | some l =>
      rw [hl] at h
      simp only at h
      rw [bind_of_ok _ (Tree.add_leaf rfl)] at h
      obtain ⟨⟨done, t', c'⟩, hr, h⟩ := bind_eq_ok.1 h
      cases done with
      | false =>
        cases h
        exact .refused hl hr
      | true =>
        cases h
        exact .placed hl hr
  · intro h
    cases h with
    | inexpressible literal diagnosed =>
      rw [literal]
      exact bind_of_ok _ diagnosed
    | placed literal replaced | refused literal replaced =>
      rw [literal]
      simp only
      rw [bind_of_ok _ (Tree.add_leaf rfl)]
      exact bind_of_ok _ replaced

/-- Putting a value in the place of a node is a step, or there is no literal
for it, or no slot. -/
theorem install_cases {v : Value} (hsite : isSubstitutionSite w.tree id = .ok site)
    (hfolds : Folds w.context.setting w.tree site id v) (h : w.install id v = .ok (r, w')) :
    (v.toLiteral? = none ∧ r = .unchanged ∧ w'.tree = w.tree ∧ w'.changed = w.changed ∧
        w.context.Follows [] w'.context) ∨
      Offered w site id r w' := by
  have hid : id.index < w.tree.size := by
    obtain ⟨_, s, hs, _⟩ := hfolds
    exact Tree.lt_size_of_shape hs
  cases install_iff.1 h with
  | inexpressible literal diagnosed =>
    refine Or.inl ⟨literal, rfl, rfl, rfl, .report _ ?_⟩
    obtain ⟨_, _, hd⟩ := bind_eq_ok.1 diagnosed
    cases hd
    rfl
  | @placed l t' _ literal replaced =>
    rcases Context.replace_eq_ok replaced with ⟨-, rfl, hrep⟩ | ⟨⟨⟩, -⟩
    obtain ⟨_, holder, hlinked, hrel⟩ := Tree.relinked_of_replace hrep
    have hlinked' := Tree.linked_of_push hlinked rfl hid
    have step : Step w.context.setting w.tree (.folded id w.tree.next v) t' :=
      .folded hlinked' hsite hfolds literal hrel
    exact Or.inr (.of_step step)
  | @refused l _ _ _ replaced =>
    rcases Context.replace_eq_ok replaced with ⟨⟨⟩, -⟩ | ⟨-, rfl, hmisses, hnot⟩
    have hunlinked : ∀ holder, ¬w.tree.Linked holder id := fun holder hlinked =>
      hnot holder (hlinked.push _)
    exact Or.inr (.failed hunlinked (Or.inr ⟨l, rfl⟩) rfl hmisses)

/-- The same for a value that may be missing. `known` says that it is the
value that the node folds to. -/
theorem installIfKnown_cases {v : Option Value}
    (hsite : isSubstitutionSite w.tree id = .ok site)
    (hknown : ∀ u, Folds w.context.setting w.tree site id u ↔ v = some u)
    (hdecides : ∀ u, ¬Decides w.context.setting w.tree id u)
    (h : w.installIfKnown id v = .ok (r, w')) : Offered w site id r w' := by
  cases v with
  | none =>
    cases h
    refine .kept ⟨fun u hu => ?_, hdecides⟩ rfl rfl (.refl _)
    cases (hknown u).1 hu
  | some v =>
    rcases install_cases hsite ((hknown v).2 rfl) h with
      ⟨hl, rfl, htree, hchanged, hfollows⟩ | h
    · refine .kept ⟨fun u hu => ?_, hdecides⟩ htree hchanged hfollows
      cases (hknown u).1 hu
      exact hl
    · exact h

theorem foldOperator_cases {s : Shape NodeId} (hs : w.tree.shape id = .ok s)
    (hsite : isSubstitutionSite w.tree id = .ok site)
    (hmay : w.context.setting.MayFold site s) (hbranch : ∀ c a b, s ≠ .branch c a b)
    (h : w.foldOperator id = .ok (r, w')) : Offered w site id r w' := by
  obtain ⟨⟨v, c⟩, he, h⟩ := bind_eq_ok.1 h
  obtain ⟨o, ho, rfl, rfl⟩ := Context.evaluate_eq_ok.1 he
  refine .of_note o (installIfKnown_cases hsite (fun u => ?_) (fun u => ?_) h)
  · constructor
    · rintro ⟨hy, _⟩
      exact (Evaluator.evaluate_value_iff ho).2 hy
    · intro hu
      exact ⟨(Evaluator.evaluate_value_iff ho).1 hu, s, hs, hmay⟩
  · rintro ⟨c, a, b, hb, _⟩
    rw [show w.tree.shape id = _ from hb] at hs
    exact hbranch c a b (Except.ok.inj hs).symm

theorem substitute_cases {name : String} (hs : w.tree.shape id = .ok (.identifier name))
    (hsite : isSubstitutionSite w.tree id = .ok site)
    (hon : w.context.options.propagate = true) (h : w.substitute id = .ok (r, w')) :
    Offered w site id r w' := by
  have hdecides : ∀ u, ¬Decides w.context.setting w.tree id u := by
    rintro u ⟨_, _, _, hb, _⟩
    rw [hs] at hb
    cases hb
  unfold substitute at h
  rw [bind_of_ok _ hsite] at h
  cases site with
  | false =>
    cases h
    refine .kept ⟨?_, hdecides⟩ rfl rfl (.refl _)
    rintro u ⟨_, s, hs', hm⟩
    rw [hs] at hs'
    cases hs'
    cases hm.2
  | true =>
    rw [if_pos rfl] at h
    obtain ⟨⟨v, c⟩, he, h⟩ := bind_eq_ok.1 h
    obtain ⟨o, ho, rfl, rfl⟩ := Context.resolve_eq_ok.1 he
    refine .of_note o (installIfKnown_cases hsite (fun u => ?_) hdecides h)
    constructor
    · rintro ⟨hy, _⟩
      exact (Evaluator.resolve_value_iff hs ho).2 hy
    · intro hu
      exact ⟨(Evaluator.resolve_value_iff hs ho).1 hu, _, hs, hon, rfl⟩

theorem drop_cases {condition whenTrue : NodeId} {whenFalse : Option NodeId} {v : Value}
    (hs : w.tree.shape id = .ok (.branch condition whenTrue whenFalse))
    (hd : Decides w.context.setting w.tree id v) (hc : chosen v whenTrue whenFalse = none)
    (h : w.drop id = .ok (r, w')) : Offered w site id r w' := by
  obtain ⟨res, hr, h⟩ := bind_eq_ok.1 h
  cases res with
  | ok res =>
    obtain ⟨placeholder, t'⟩ := res
    cases h
    obtain ⟨holder, n, hlinked, hn, ⟨rfl, hv, hrel⟩ | ⟨rfl, hv, hrel⟩⟩ :=
      Tree.relinked_of_remove hr
    · have step : Step w.context.setting w.tree (.dropped id none) t' :=
        .dropped hlinked hs hd hc hn hv hrel
      exact .of_step step
    · have step : Step w.context.setting w.tree (.dropped id (some w.tree.next)) t' :=
        .filled hlinked hs hd hc hn hv hrel
      exact .of_step step
  | error e =>
    obtain ⟨d, hd, h⟩ := bind_eq_ok.1 h
    cases h
    obtain ⟨hnode, hnot⟩ := Tree.refused_of_remove hr
    obtain ⟨_, _, hd⟩ := bind_eq_ok.1 hd
    cases hd
    exact .failed hnot (Or.inl rfl) rfl (.report _ rfl hnode)

theorem select_cases {condition whenTrue selected : NodeId} {whenFalse : Option NodeId} {v : Value}
    (hs : w.tree.shape id = .ok (.branch condition whenTrue whenFalse))
    (hd : Decides w.context.setting w.tree id v)
    (hc : chosen v whenTrue whenFalse = some selected)
    (h : w.select id selected = .ok (r, w')) : Offered w site id r w' := by
  obtain ⟨⟨done, t', c'⟩, hr, h⟩ := bind_eq_ok.1 h
  rcases Context.replace_eq_ok hr with ⟨rfl, rfl, hrep⟩ | ⟨rfl, rfl, hmisses, hnot⟩
  · cases h
    obtain ⟨_, holder, hlinked, hrel⟩ := Tree.relinked_of_replace hrep
    have step : Step w.context.setting w.tree (.selected id selected) t' :=
      .selected hlinked hs hd hc hrel
    exact .of_step step
  · cases h
    exact .failed hnot (Or.inl rfl) rfl hmisses

theorem decideBranch_cases {condition whenTrue : NodeId} {whenFalse : Option NodeId}
    (hs : w.tree.shape id = .ok (.branch condition whenTrue whenFalse))
    (hon : w.context.options.branches = true)
    (h : w.decideBranch id condition whenTrue whenFalse = .ok (r, w')) :
    Offered w site id r w' := by
  obtain ⟨⟨v, c⟩, he, h⟩ := bind_eq_ok.1 h
  obtain ⟨o, ho, rfl, rfl⟩ := Context.evaluate_eq_ok.1 he
  refine .of_note o ?_
  cases hv : o.value with
  | none =>
    rw [hv] at h
    cases h
    refine .kept ⟨?_, ?_⟩ rfl rfl (.refl _)
    · rintro u ⟨_, s, hs', hm⟩
      rw [show w.tree.shape id = _ from hs'] at hs
      cases hs
      exact hm.elim
    · rintro u ⟨c, a, b, hb, hy, _⟩
      rw [show w.tree.shape id = _ from hb] at hs
      cases hs
      rw [(Evaluator.evaluate_value_iff ho).2 hy] at hv
      cases hv
  | some v =>
    rw [hv] at h
    have hd : Decides w.context.setting w.tree id v :=
      ⟨condition, whenTrue, whenFalse, hs, (Evaluator.evaluate_value_iff ho).1 hv, hon⟩
    cases hc : chosen v whenTrue whenFalse with
    | none =>
      simp only [show (if v.isTruthy then some whenTrue else whenFalse) = none from hc] at h
      exact drop_cases hs hd hc h
    | some selected =>
      simp only [show (if v.isTruthy then some whenTrue else whenFalse) = some selected from hc]
        at h
      exact select_cases hs hd hc h

/-- A node that is offered for reduction is left alone, or one step is made,
or it has no slot. -/
theorem reduce_cases (hsite : isSubstitutionSite w.tree id = .ok site)
    (h : w.reduce id = .ok (r, w')) : Offered w site id r w' := by
  obtain ⟨s, hs, h⟩ := bind_eq_ok.1 h
  -- a node that no option allows to be reduced
  have hkept : (∀ site, ¬w.context.setting.MayFold site s) →
      ((∃ c a b, s = .branch c a b) → w.context.options.branches = false) →
      Stays w.context.setting w.tree site id := by
    intro hfold hbranch
    constructor
    · rintro u ⟨_, s', hs', hm⟩
      rw [hs] at hs'
      cases hs'
      exact absurd hm (hfold site)
    · rintro u ⟨c, a, b, hb, _, hm⟩
      rw [hs] at hb
      rw [show w.context.setting.options.branches = _ from hbranch ⟨c, a, b, Except.ok.inj hb⟩] at hm
      cases hm
  cases s with
  | branch condition whenTrue whenFalse =>
    simp only at h
    by_cases hon : w.context.options.branches = true
    · rw [if_pos hon] at h
      exact decideBranch_cases hs hon h
    · rw [if_neg hon] at h
      cases h
      exact .kept (hkept (fun _ hm => hm) fun _ => by simpa using hon) rfl rfl (.refl _)
  | binary left op right =>
    simp only at h
    by_cases hon : w.context.options.fold = true
    · rw [if_pos hon] at h
      exact foldOperator_cases hs hsite hon (by simp) h
    · rw [if_neg hon] at h
      cases h
      exact .kept (hkept (fun _ hm => hon hm) (by simp)) rfl rfl (.refl _)
  | unary op operand =>
    simp only at h
    by_cases hon : w.context.options.fold = true
    · rw [if_pos hon] at h
      exact foldOperator_cases hs hsite hon (by simp) h
    · rw [if_neg hon] at h
      cases h
      exact .kept (hkept (fun _ hm => hon hm) (by simp)) rfl rfl (.refl _)
  | identifier name =>
    simp only at h
    by_cases hon : w.context.options.propagate = true
    · rw [if_pos hon] at h
      exact substitute_cases hs hsite hon h
    · rw [if_neg hon] at h
      cases h
      exact .kept (hkept (fun _ hm => hon hm.1) (by simp)) rfl rfl (.refl _)
  | _ =>
    cases h
    exact .kept (hkept (fun _ hm => hm) (by simp)) rfl rfl (.refl _)

/-! ## 4. Visits and runs -/

/-- How a visit goes: what takes the place of the node is visited instead, or
the node is gone, or it is left alone and what it holds then is visited. -/
inductive Visits (depth : Nat) (w : Walk) (id : NodeId) : Walk → Prop where
  | replaced {w₁ w' : Walk} {new : NodeId} (reduced : w.reduce id = .ok (.replaced new, w₁))
      (onward : visitWithin depth { w₁ with changed := true } new = .ok w') : Visits depth w id w'
  | removed {w₁ : Walk} (reduced : w.reduce id = .ok (.removed, w₁)) :
      Visits depth w id { w₁ with changed := true }
  | unchanged {w₁ w' : Walk} {n : Node} (reduced : w.reduce id = .ok (.unchanged, w₁))
      (node : w₁.tree.get? id = some n)
      (below : n.shape.children.foldlM (visitWithin depth) w₁ = .ok w') : Visits depth w id w'

theorem visit_succ_iff {depth : Nat} :
    visitWithin (depth + 1) w id = .ok w' ↔ Visits depth w id w' := by
  rw [visitWithin]
  constructor
  · intro h
    obtain ⟨⟨r, w₁⟩, hr, h⟩ := bind_eq_ok.1 h
    cases r with
    | replaced new => exact .replaced hr h
    | removed =>
      cases h
      exact .removed hr
    | unchanged =>
      obtain ⟨cs, hcs, h⟩ := bind_eq_ok.1 h
      obtain ⟨n, hn, rfl⟩ := Tree.children_eq_ok.1 hcs
      exact .unchanged hr hn h
  · intro h
    cases h with
    | replaced reduced onward => exact (bind_of_ok _ reduced).trans onward
    | removed reduced => exact bind_of_ok _ reduced
    | unchanged reduced node below =>
      exact (bind_of_ok _ reduced).trans ((bind_of_ok _ (Tree.children_of_get? node)).trans below)

/-- A visit goes on at what has taken the place of its node. -/
theorem visit_onward {depth : Nat} {w₁ : Walk} {new : NodeId}
    (h : visitWithin depth w id = .ok w') (hr : w.reduce id = .ok (.replaced new, w₁)) :
    ∃ depth', visitWithin depth' { w₁ with changed := true } new = .ok w' := by
  cases depth with
  | zero => cases h
  | succ depth =>
    cases visit_succ_iff.1 h with
    | replaced reduced onward =>
      cases hr.symm.trans reduced
      exact ⟨depth, onward⟩
    | removed reduced | unchanged reduced => cases hr.symm.trans reduced

/-- A visit goes on below a node that is left alone. -/
theorem visit_below {depth : Nat} {w₁ : Walk} {n : Node} (h : visitWithin depth w id = .ok w')
    (hr : w.reduce id = .ok (.unchanged, w₁)) (hn : w₁.tree.get? id = some n) :
    ∃ depth', n.shape.children.foldlM (visitWithin depth') w₁ = .ok w' := by
  cases depth with
  | zero => cases h
  | succ depth =>
    cases visit_succ_iff.1 h with
    | replaced reduced | removed reduced => cases hr.symm.trans reduced
    | unchanged reduced node below =>
      cases hr.symm.trans reduced
      cases hn.symm.trans node
      exact ⟨depth, below⟩

theorem visit_succ {depth : Nat} : ∀ {w w' : Walk} {id : NodeId},
    visitWithin depth w id = .ok w' → visitWithin (depth + 1) w id = .ok w' := by
  induction depth with
  | zero =>
    intro w w' id h
    cases h
  | succ depth ih =>
    intro w w' id h
    rw [visit_succ_iff] at h ⊢
    cases h with
    | replaced reduced onward => exact .replaced reduced (ih onward)
    | removed reduced => exact .removed reduced
    | unchanged reduced node below => exact .unchanged reduced node (foldlM_eq_ok_mono ih below)

theorem visit_mono {depth depth' : Nat} (hle : depth ≤ depth')
    (h : visitWithin depth w id = .ok w') : visitWithin depth' w id = .ok w' := by
  induction hle with
  | refl => exact h
  | step _ ih => exact visit_succ ih

/-- What a visit comes to does not depend on the depth that it may go to. -/
theorem visit_unique {depth depth' : Nat} {w₁ : Walk} (h : visitWithin depth w id = .ok w')
    (h₁ : visitWithin depth' w id = .ok w₁) : w' = w₁ := by
  rcases Nat.le_total depth depth' with hle | hle
  · exact Except.ok.inj ((visit_mono hle h).symm.trans h₁)
  · exact Except.ok.inj (h.symm.trans (visit_mono hle h₁))

end Walk

/-- A run visits the root, if there is one. -/
theorem foldConstants_eq_ok {t t' : Tree} {c c' : Context} {changed : Bool} :
    foldConstants t c = .ok (changed, t', c') ↔
      (t.root = none ∧ changed = false ∧ t' = t ∧ c' = c) ∨
      ∃ r, t.root = some r ∧
        Walk.visitWithin (Walk.depthLimit t) ⟨t, c, false⟩ r = .ok ⟨t', c', changed⟩ := by
  unfold foldConstants
  cases hr : t.root with
  | none => simp [eq_comm]
  | some root =>
    simp only [reduceCtorEq, false_and, false_or, Option.some.injEq, exists_eq_left']
    constructor
    · intro h
      obtain ⟨w, hw, h⟩ := bind_eq_ok.1 h
      cases h
      exact hw
    · intro h
      exact bind_of_ok _ h

end ScriptReduce
