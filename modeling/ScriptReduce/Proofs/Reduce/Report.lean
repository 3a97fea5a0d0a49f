/-
ScriptReduce.Proofs.Reduce.Report: what one reduction reports.

A node that could be reduced may have to be left alone: no literal stands for its
value, or it has no slot that could be given away. Then a report is owed for it
that says so (`Owed`). A reduction reports what is owed for the node it is
offered, and nothing else (`Walk.reduce_tells`). That takes no report back, and
one that was made before stands in for another of its kind.
-/
import ScriptReduce.Proofs.Reduce.Step

namespace ScriptReduce

open ScriptReduce.Tree

variable {st : Setting} {t t' : Tree} {c c' : Context} {w w' : Walk} {id x : NodeId}
  {r : Reduction} {v : Value} {site : Bool}

/-! ## 1. Reports -/

/-- What stands in the way of a value that a node could not give way to: it has
no literal, or the node has no slot. -/
def Value.obstacle : Value → DiagnosticKind
  | .number value => if value.isFinite then .slotNotFound else .unmaterializableLiteral
  | .boolean _ | .string _ => .slotNotFound

theorem Value.obstacle_of_literal {l : Literal} (h : v.toLiteral? = some l) :
    v.obstacle = .slotNotFound := by
  cases v with
  | number value =>
    by_cases hfinite : value.isFinite = true
    · exact if_pos hfinite
    · simp [toLiteral?, hfinite] at h
  | boolean | string => rfl

theorem Value.obstacle_of_no_literal (h : v.toLiteral? = none) :
    v.obstacle = .unmaterializableLiteral := by
  cases v with
  | number value =>
    by_cases hfinite : value.isFinite = true
    · simp [toLiteral?, hfinite] at h
    · exact if_neg hfinite
  | boolean | string => cases h

namespace Context

/-- Whether a diagnostic of a kind was reported for a node. -/
def Told (c : Context) (kind : DiagnosticKind) (x : NodeId) : Prop :=
  ∃ d ∈ c.diagnostics, d.kind = kind ∧ d.node = x

/-- Whether all that was reported before is still there. -/
def Retains (c c' : Context) : Prop := ∀ d ∈ c.diagnostics, d ∈ c'.diagnostics

theorem Retains.refl (c : Context) : c.Retains c := fun _ h => h

theorem Retains.trans {c₁ : Context} (h : c.Retains c₁) (h' : c₁.Retains c') : c.Retains c' :=
  fun d hd => h' d (h d hd)

theorem Told.mono {kind : DiagnosticKind} (h : c.Told kind x) (hc : c.Retains c') :
    c'.Told kind x := by
  obtain ⟨d, hd, hkind, hnode⟩ := h
  exact ⟨d, hc d hd, hkind, hnode⟩

theorem retains_report (c : Context) (d : Diagnostic) : c.Retains (c.report d) := by
  intro e he
  unfold report
  split
  · exact he
  · exact List.mem_append_left _ he

theorem diagnostics_report_congr (h : c'.diagnostics = c.diagnostics) (d : Diagnostic) :
    (c'.report d).diagnostics = (c.report d).diagnostics := by
  unfold report hasReported
  rw [h]
  split
  · exact h
  · rfl

/-- What is reported has been told afterwards, be it now or before. -/
theorem told_report (c : Context) (d : Diagnostic) : (c.report d).Told d.kind d.node := by
  unfold report
  split
  · rename_i hbefore
    obtain ⟨e, he, heq⟩ := List.any_eq_true.1 hbefore
    simp only [Bool.and_eq_true, decide_eq_true_eq] at heq
    exact ⟨e, he, heq⟩
  · exact ⟨d, List.mem_append_right _ (List.mem_singleton.2 rfl), rfl, rfl⟩

/-- There is one report at most of a kind for a node. -/
theorem Distinct.countP_eq_one (h : c.Distinct) {kind : DiagnosticKind} (ht : c.Told kind x) :
    (c.diagnostics.countP fun d => d.kind = kind ∧ d.node = x) = 1 := by
  obtain ⟨d, hd, rfl, rfl⟩ := ht
  have hmem : (d.kind, d.node) ∈ c.diagnostics.map fun d => (d.kind, d.node) :=
    List.mem_map_of_mem hd
  have hcount := List.count_eq_one_of_mem h hmem
  rw [List.count_eq_countP, List.countP_map] at hcount
  rw [← hcount]
  refine List.countP_congr fun e _ => ?_
  simp [Prod.ext_iff]

/-- A replacement that fails is reported. -/
theorem replace_reports {old m : NodeId} {done : Bool}
    (h : c.replace t old m = .ok (done, t', c')) :
    (done = true ∧ c' = c) ∨
      done = false ∧ ∃ d : Diagnostic, d.kind = .slotNotFound ∧ d.node = old ∧ c' = c.report d := by
  obtain ⟨result, hresult, h⟩ := bind_eq_ok.1 h
  cases result with
  | ok u =>
    cases h
    exact .inl ⟨rfl, rfl⟩
  | error e =>
    obtain ⟨d, hd, h⟩ := bind_eq_ok.1 h
    cases h
    obtain ⟨hnode, -⟩ := Tree.refused_of_replace hresult
    obtain ⟨_, _, hd⟩ := bind_eq_ok.1 hd
    obtain ⟨_, _, hd⟩ := bind_eq_ok.1 hd
    cases hd
    exact .inr ⟨rfl, _, rfl, hnode, rfl⟩

end Context

/-! ## 2. What a reduction reports -/

/-- What is owed for a node that could be reduced, if it is left alone: a report
that says what stood in the way. -/
inductive Owed (st : Setting) (t : Tree) (id : NodeId) : DiagnosticKind → Prop where
  /-- The node folds to a value. Only for an identifier it matters where it stands. -/
  | folds {site : Bool} {v : Value}
    (atSite : ∀ name, t.shape id = .ok (.identifier name) →
      Walk.isSubstitutionSite t id = .ok site)
    (folds : Folds st t site id v) : Owed st t id v.obstacle
  | decides {v : Value} (decides : Decides st t id v) : Owed st t id .slotNotFound

theorem Folds.not_decides {u : Value} (h : Folds st t site id u) : ¬Decides st t id v := by
  rintro ⟨_, _, _, hs, -, -⟩
  obtain ⟨-, s, hs', hmay⟩ := h
  rw [hs] at hs'
  cases hs'
  exact hmay

/-- A node either folds or is decided, and in one way only. -/
theorem Owed.unique {kind kind' : DiagnosticKind} (h : Owed st t id kind)
    (h' : Owed st t id kind') : kind = kind' := by
  cases h with
  | folds _ h =>
    cases h' with
    | folds _ h' => rw [h.1.unique h'.1]
    | decides h' => exact absurd h' h.not_decides
  | decides h =>
    cases h' with
    | folds _ h' => exact absurd h h'.not_decides
    | decides => rfl

namespace Walk

/-- What a reduction says of its node: nothing if nothing is owed or if it is made,
and else what is owed. -/
inductive Tells (w : Walk) (id : NodeId) : Reduction → Walk → Prop where
  | silent {r : Reduction} {w' : Walk} (same : w'.context.diagnostics = w.context.diagnostics)
    (nothing : r = .unchanged → ∀ kind, ¬Owed w.context.setting w.tree id kind) :
    Tells w id r w'
  | told {w' : Walk} {d : Diagnostic} (owed : Owed w.context.setting w.tree id d.kind)
    (node : d.node = id) (reported : w'.context.diagnostics = (w.context.report d).diagnostics) :
    Tells w id .unchanged w'

namespace Tells

/-- What is said after a question was said before. -/
theorem of_note {o : Outcome} (h : Tells { w with context := w.context.note o } id r w') :
    w.Tells id r w' := by
  cases h with
  | silent same nothing => exact .silent same nothing
  | told owed node reported =>
    have hsame : (w.context.note o).diagnostics = w.context.diagnostics := rfl
    exact .told owed node (reported.trans (Context.diagnostics_report_congr hsame _))

/-- A reduction takes no report back. -/
theorem retains (h : w.Tells id r w') : w.context.Retains w'.context := by
  intro d hd
  cases h with
  | silent same => rwa [same]
  | told _ _ reported =>
    rw [reported]
    exact Context.retains_report _ _ d hd

/-- A reduction answers for its node: what is owed for it is reported if it is left
alone. -/
theorem answers {kind : DiagnosticKind} (h : w.Tells id .unchanged w')
    (howed : Owed w.context.setting w.tree id kind) : w'.context.Told kind id := by
  cases h with
  | silent _ nothing => exact absurd howed (nothing rfl kind)
  | told owed node reported =>
    obtain ⟨e, he, hkind, hnode⟩ := Context.told_report w.context _
    rw [← reported] at he
    exact ⟨e, he, hkind.trans (owed.unique howed), hnode.trans node⟩

/-- Nothing is reported but what is owed. -/
theorem mem_diagnostics {d : Diagnostic} (h : w.Tells id r w')
    (hd : d ∈ w'.context.diagnostics) :
    d ∈ w.context.diagnostics ∨ d.node = id ∧ Owed w.context.setting w.tree id d.kind := by
  cases h with
  | silent same =>
    rw [same] at hd
    exact .inl hd
  | told owed node reported =>
    rw [reported] at hd
    rcases Context.mem_diagnostics_report hd with hd | rfl
    · exact .inl hd
    · exact .inr ⟨node, owed⟩

end Tells

theorem install_tells (howed : Owed w.context.setting w.tree id v.obstacle)
    (h : w.install id v = .ok (r, w')) : w.Tells id r w' := by
  cases install_iff.1 h with
  | inexpressible literal diagnosed =>
    obtain ⟨_, _, hd⟩ := bind_eq_ok.1 diagnosed
    cases hd
    exact .told (Value.obstacle_of_no_literal literal ▸ howed) rfl rfl
  | placed _ replaced =>
    rcases Context.replace_reports replaced with ⟨-, rfl⟩ | ⟨⟨⟩, -⟩
    exact .silent rfl fun hr => by cases hr
  | refused literal replaced =>
    rcases Context.replace_reports replaced with ⟨⟨⟩, -⟩ | ⟨-, d, hkind, hnode, rfl⟩
    rw [Value.obstacle_of_literal literal, ← hkind] at howed
    exact .told howed hnode rfl

/-- A reduction by a value that may be missing. `known` says that it is what is
owed. -/
theorem installIfKnown_tells {known : Option Value}
    (hknown : ∀ kind, Owed w.context.setting w.tree id kind ↔
      ∃ u, known = some u ∧ kind = u.obstacle)
    (h : w.installIfKnown id known = .ok (r, w')) : w.Tells id r w' := by
  cases known with
  | none =>
    cases h
    refine .silent rfl fun _ kind howed => ?_
    obtain ⟨u, hu, -⟩ := (hknown kind).1 howed
    cases hu
  | some v => exact install_tells ((hknown _).2 ⟨v, rfl, rfl⟩) h

theorem select_tells {selected : NodeId} (hdecides : Decides w.context.setting w.tree id v)
    (h : w.select id selected = .ok (r, w')) : w.Tells id r w' := by
  obtain ⟨⟨done, t', c'⟩, hreplace, h⟩ := bind_eq_ok.1 h
  rcases Context.replace_reports hreplace with ⟨rfl, rfl⟩ | ⟨rfl, d, hkind, hnode, rfl⟩
  · cases h
    exact .silent rfl fun hr => by cases hr
  · cases h
    exact .told (hkind ▸ .decides hdecides) hnode rfl

theorem drop_tells (hdecides : Decides w.context.setting w.tree id v)
    (h : w.drop id = .ok (r, w')) : w.Tells id r w' := by
  obtain ⟨result, hresult, h⟩ := bind_eq_ok.1 h
  cases result with
  | ok result =>
    obtain ⟨placeholder, u⟩ := result
    cases h
    refine .silent rfl fun hr => ?_
    cases placeholder <;> cases hr
  | error e =>
    obtain ⟨d, hd, h⟩ := bind_eq_ok.1 h
    cases h
    obtain ⟨hnode, -⟩ := Tree.refused_of_remove hresult
    obtain ⟨_, _, hd⟩ := bind_eq_ok.1 hd
    cases hd
    exact .told (.decides hdecides) hnode rfl

/-- Nothing is owed for a node that no option allows to be reduced. -/
theorem not_owed_of_shape {s : Shape NodeId} (hs : t.shape id = .ok s)
    (hmay : ∀ site, ¬st.MayFold site s)
    (hbranch : (∃ c a b, s = .branch c a b) → st.options.branches = false)
    (kind : DiagnosticKind) : ¬Owed st t id kind := by
  intro howed
  cases howed with
  | @folds site v _ hfolds =>
    obtain ⟨-, s', hs', hmay'⟩ := hfolds
    rw [hs] at hs'
    cases hs'
    exact hmay site hmay'
  | decides hdecides =>
    obtain ⟨c, a, b, hs', -, hon⟩ := hdecides
    rw [hs] at hs'
    rw [hbranch ⟨c, a, b, Except.ok.inj hs'⟩] at hon
    cases hon

theorem decideBranch_tells {condition whenTrue : NodeId} {whenFalse : Option NodeId}
    (hs : w.tree.shape id = .ok (.branch condition whenTrue whenFalse))
    (hon : w.context.options.branches = true)
    (h : w.decideBranch id condition whenTrue whenFalse = .ok (r, w')) : w.Tells id r w' := by
  obtain ⟨⟨known, c⟩, he, h⟩ := bind_eq_ok.1 h
  obtain ⟨o, ho, hvalue, rfl⟩ := Context.evaluate_eq_ok.1 he
  refine .of_note (o := o) ?_
  cases known with
  | none =>
    cases h
    refine .silent rfl fun _ kind howed => ?_
    cases howed with
    | folds _ hfolds =>
      obtain ⟨-, s, hs', hmay⟩ := hfolds
      rw [show w.tree.shape id = _ from hs'] at hs
      cases hs
      exact hmay
    | decides hdecides =>
      obtain ⟨_, _, _, hs', hy, -⟩ := hdecides
      rw [show w.tree.shape id = _ from hs'] at hs
      cases hs
      rw [(Evaluator.evaluate_value_iff ho).2 hy] at hvalue
      cases hvalue
  | some v =>
    have hdecides : Decides w.context.setting w.tree id v :=
      ⟨_, _, _, hs, (Evaluator.evaluate_value_iff ho).1 hvalue, hon⟩
    simp only at h
    split at h
    · exact select_tells hdecides h
    · exact drop_tells hdecides h

/-- An operator may be folded wherever it stands. -/
theorem foldOperator_tells {s : Shape NodeId} (hs : w.tree.shape id = .ok s)
    (hmay : w.context.setting.MayFold false s) (h : w.foldOperator id = .ok (r, w')) :
    w.Tells id r w' := by
  obtain ⟨⟨known, c⟩, he, h⟩ := bind_eq_ok.1 h
  obtain ⟨o, ho, hvalue, rfl⟩ := Context.evaluate_eq_ok.1 he
  refine .of_note (o := o) (installIfKnown_tells (fun kind => ⟨fun howed => ?_, ?_⟩) h)
  · cases howed with
    | @folds site v _ hfolds =>
      exact ⟨v, hvalue ▸ (Evaluator.evaluate_value_iff ho).2 hfolds.1, rfl⟩
    | decides hdecides =>
      obtain ⟨_, _, _, hs', -, -⟩ := hdecides
      rw [show w.tree.shape id = _ from hs'] at hs
      cases hs
      exact hmay.elim
  · rintro ⟨v, hv, rfl⟩
    refine .folds (fun name hname => ?_)
      ⟨(Evaluator.evaluate_value_iff ho).1 (hvalue.trans hv), s, hs, hmay⟩
    rw [show w.tree.shape id = _ from hname] at hs
    cases hs
    cases hmay.2

theorem substitute_tells {name : String} (hs : w.tree.shape id = .ok (.identifier name))
    (hon : w.context.options.propagate = true) (h : w.substitute id = .ok (r, w')) :
    w.Tells id r w' := by
  obtain ⟨site, hsite, h⟩ := bind_eq_ok.1 h
  have howed : ∀ {kind}, Owed w.context.setting w.tree id kind →
      ∃ v, kind = v.obstacle ∧ Folds w.context.setting w.tree site id v := by
    intro kind howed
    cases howed with
    | @folds site' v atSite hfolds =>
      have heq := atSite name hs
      rw [hsite] at heq
      cases heq
      exact ⟨v, rfl, hfolds⟩
    | decides hdecides =>
      obtain ⟨_, _, _, hs', -, -⟩ := hdecides
      rw [hs] at hs'
      cases hs'
  cases site with
  | false =>
    cases h
    refine .silent rfl fun _ kind hkind => ?_
    obtain ⟨v, -, -, s, hs', hmay⟩ := howed hkind
    rw [hs] at hs'
    cases hs'
    cases hmay.2
  | true =>
    rw [if_pos rfl] at h
    obtain ⟨⟨known, c⟩, he, h⟩ := bind_eq_ok.1 h
    obtain ⟨o, ho, hvalue, rfl⟩ := Context.resolve_eq_ok.1 he
    refine .of_note (o := o) (installIfKnown_tells (fun kind => ⟨fun hkind => ?_, ?_⟩) h)
    · obtain ⟨v, rfl, hfolds⟩ := howed hkind
      exact ⟨v, hvalue ▸ (Evaluator.resolve_value_iff hs ho).2 hfolds.1, rfl⟩
    · rintro ⟨v, hv, rfl⟩
      have hyields := (Evaluator.resolve_value_iff hs ho).1 (hvalue.trans hv)
      exact .folds (fun _ _ => hsite) ⟨hyields, _, hs, hon, rfl⟩

/-- A reduction reports what is owed for the node it is offered, and nothing else. -/
theorem reduce_tells (h : w.reduce id = .ok (r, w')) : w.Tells id r w' := by
  obtain ⟨s, hs, h⟩ := bind_eq_ok.1 h
  cases s with
  | branch condition whenTrue whenFalse =>
    simp only at h
    split at h
    · rename_i hon
      exact decideBranch_tells hs hon h
    · rename_i hoff
      cases h
      have hbranch : w.context.setting.options.branches = false := Bool.eq_false_iff.2 hoff
      exact .silent rfl fun _ => not_owed_of_shape hs (fun _ hmay => hmay) fun _ => hbranch
  | binary | unary =>
    simp only at h
    split at h
    · rename_i hon
      exact foldOperator_tells hs hon h
    · rename_i hoff
      cases h
      exact .silent rfl fun _ => not_owed_of_shape hs (fun _ hmay => hoff hmay) (by simp)
  | identifier name =>
    simp only at h
    split at h
    · rename_i hon
      exact substitute_tells hs hon h
    · rename_i hoff
      cases h
      exact .silent rfl fun _ => not_owed_of_shape hs (fun _ hmay => hoff hmay.1) (by simp)
  | _ =>
    cases h
    exact .silent rfl fun _ => not_owed_of_shape hs (fun _ hmay => hmay) (by simp)

end Walk

end ScriptReduce
