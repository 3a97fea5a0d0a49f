/-
ScriptReduce.Proofs.Reduce.Reported: nothing is left unreduced in silence.

A node that could be reduced and is left alone is reported. One reduction
reports what is owed for the node it is offered and nothing else
(`Walk.reduce_tells`), and no report is ever taken back. An idle run offers all
that can be reached from the root, and adds at most literals that nothing leads
to; so what is due at a node when the run has ended was due when the node was
offered (`foldConstants_answered`). It may have been reported long before, by an
earlier run that found other values or other links: a report of the same kind
for the same node stands in for it, and there is one such report only.

Nothing is asked of parent links but that they lead to nodes, and nodes may be
shared.
-/
import ScriptReduce.Proofs.Reduce.Flag
import ScriptReduce.Proofs.Reduce.Report

namespace ScriptReduce

open ScriptReduce.Tree Relation

variable {st : Setting} {rank : NodeId → Nat} {t t' t₀ : Tree} {c c' : Context} {w w' : Walk}
  {id x y : NodeId} {r : Reduction} {v : Value} {site : Bool}

/-! ## 1. Literals that nothing leads to -/

namespace Tree.OnlyGainsLiterals

theorem size_le (h : t.OnlyGainsLiterals t') : t.size ≤ t'.size := by
  by_contra hlt
  have hinside : (⟨t'.size⟩ : NodeId).index < t.size := Nat.lt_of_not_le hlt
  obtain ⟨n, hn⟩ := exists_get? hinside
  exact Nat.lt_irrefl _ (lt_size_of_get? (h.kept _ n hn))

theorem shape_eq (h : t.OnlyGainsLiterals t') (hx : x.index < t.size) : t'.shape x = t.shape x := by
  obtain ⟨n, hn⟩ := exists_get? hx
  rw [shape_of_get? hn, shape_of_get? (h.kept x n hn)]

/-- A literal holds nothing. -/
theorem holds_iff (h : t.OnlyGainsLiterals t') : t'.Holds x y ↔ t.Holds x y := by
  constructor
  · rintro ⟨n', hn', hy⟩
    cases hn : t.get? x with
    | none =>
      obtain ⟨l, rfl⟩ := h.added x n' hn hn'
      cases hy
    | some n =>
      rw [h.kept x n hn] at hn'
      cases hn'
      exact ⟨_, hn, hy⟩
  · rintro ⟨n, hn, hy⟩
    exact ⟨n, h.kept x n hn, hy⟩

theorem reaches_iff (h : t.OnlyGainsLiterals t') : t'.Reaches x y ↔ t.Reaches x y := by
  have hholds : t'.Holds = t.Holds := by
    funext a b
    exact propext h.holds_iff
  rw [Reaches, Reaches, hholds]

/-- No node is exempt: the one that is named is in neither tree. -/
theorem mirrors (h : t.OnlyGainsLiterals t') : t.Mirrors (fun x => x) t'.next t' where
  node y n hn := ⟨n, h.kept y n hn, rfl, (List.map_id _).symm⟩
  parent y n n' hn hn' _ := by
    rw [h.kept y n hn] at hn'
    cases hn'
    exact .inl rfl
  no_declaration n name i hn :=
    absurd (lt_size_of_get? (h.kept _ n hn)) (Nat.lt_irrefl t'.size)
  later y n hn hn' := by
    obtain ⟨l, rfl⟩ := h.added y n hn hn'
    exact .inl ⟨l, rfl⟩
  fixes _ _ _ _ _ := Iff.rfl

/-- Expressions have the values that they had. -/
theorem yields_iff (h : t.OnlyGainsLiterals t') (hc : t.Closed Everywhere)
    (hx : x.index < t.size) :
    (st.evaluator t').Yields x v ↔ (st.evaluator t).Yields x v := by
  have hmissing : ∀ {u : Tree}, u.get? t'.next = none → ∀ v,
      ¬(st.evaluator u).Yields t'.next v := by
    intro u hu v
    refine Evaluator.Yields.not_nothing ?_
    have hshape : ∀ s, u.shape t'.next ≠ .ok s := by
      intro s hs
      obtain ⟨n, hn, -⟩ := shape_eq_ok.1 hs
      rw [hu] at hn
      cases hn
    rw [Evaluator.look]
    cases hs : (st.evaluator u).tree.shape t'.next with
    | ok s => exact absurd hs (hshape s)
    | error e => rfl
  have hnone : ∀ {u : Tree}, u.size ≤ t'.size → u.get? t'.next = none := by
    intro u hu
    refine Option.eq_none_iff_forall_ne_some.2 fun n hn => ?_
    exact absurd (lt_size_of_get? hn) (Nat.not_lt.2 hu)
  have hmirrors : (st.evaluator t).tree.Mirrors (fun x => x) t'.next (st.evaluator t').tree :=
    h.mirrors
  exact hmirrors.yields_iff hc rfl rfl (fun _ _ => rfl)
    (fun v => iff_of_false (hmissing (hnone (Nat.le_refl _)) v) (hmissing (hnone h.size_le) v)) hx

theorem isSubstitutionSite_eq (h : t.OnlyGainsLiterals t') (hc : t.Closed Everywhere)
    (hx : x.index < t.size) : Walk.isSubstitutionSite t' x = Walk.isSubstitutionSite t x := by
  obtain ⟨n, hn⟩ := exists_get? hx
  unfold Walk.isSubstitutionSite
  rw [bind_of_ok _ (parent_of_get? hn), bind_of_ok _ (parent_of_get? (h.kept x n hn))]
  cases hp : n.parent with
  | none => rfl
  | some p =>
    simp only
    rw [h.shape_eq (hc.parents x n p trivial hn hp).2]

theorem folds_iff (h : t.OnlyGainsLiterals t') (hc : t.Closed Everywhere)
    (hx : x.index < t.size) : Folds st t' site x v ↔ Folds st t site x v := by
  rw [Folds, Folds, h.yields_iff hc hx, h.shape_eq hx]

theorem decides_iff (h : t.OnlyGainsLiterals t') (hc : t.Closed Everywhere)
    (hx : x.index < t.size) : Decides st t' x v ↔ Decides st t x v := by
  have hcondition : ∀ {c a b}, t.shape x = .ok (.branch c a b) →
      ((st.evaluator t').Yields c v ↔ (st.evaluator t).Yields c v) := by
    intro c a b hs
    exact h.yields_iff hc (hc.children x c trivial (holds_of_shape hs (by simp))).2
  unfold Decides
  rw [h.shape_eq hx]
  constructor
  · rintro ⟨c, a, b, hs, hy, hon⟩
    exact ⟨c, a, b, hs, (hcondition hs).1 hy, hon⟩
  · rintro ⟨c, a, b, hs, hy, hon⟩
    exact ⟨c, a, b, hs, (hcondition hs).2 hy, hon⟩

theorem owed_iff (h : t.OnlyGainsLiterals t') (hc : t.Closed Everywhere) (hx : x.index < t.size)
    {kind : DiagnosticKind} : Owed st t' x kind ↔ Owed st t x kind := by
  have hsite := h.isSubstitutionSite_eq hc hx
  have hshape := h.shape_eq hx
  constructor <;> intro howed
  · cases howed with
    | folds atSite hfolds =>
      exact .folds (fun name hs => hsite ▸ atSite name (hshape ▸ hs)) ((h.folds_iff hc hx).1 hfolds)
    | decides hdecides => exact .decides ((h.decides_iff hc hx).1 hdecides)
  · cases howed with
    | folds atSite hfolds =>
      exact .folds (fun name hs => hsite ▸ atSite name (hshape ▸ hs)) ((h.folds_iff hc hx).2 hfolds)
    | decides hdecides => exact .decides ((h.decides_iff hc hx).2 hdecides)

end Tree.OnlyGainsLiterals

/-! ## 2. Idle runs -/

/-- A part of a walk that has not set the flag has made no step. -/
theorem Makes.idle (h : Makes st w w') (hchanged : w'.changed = false) :
    w.changed = false ∧ w.tree.OnlyGainsLiterals w'.tree := by
  obtain ⟨changes, hsteps, hflag⟩ := h
  rw [hchanged, eq_comm, Bool.or_eq_false_iff] at hflag
  obtain ⟨hbefore, hnil⟩ := hflag
  obtain rfl : changes = [] := by simpa using hnil
  exact ⟨hbefore, hsteps.onlyGainsLiterals⟩

/-- What is answered for at a node: what is owed for it was reported. -/
def Answered (st : Setting) (t : Tree) (c : Context) (x : NodeId) : Prop :=
  ∀ kind, Owed st t x kind → c.Told kind x

/-- Neither reports nor literals that nothing leads to change that. -/
theorem Answered.mono (h : Answered st t c x) (ht : t.OnlyGainsLiterals t')
    (hclosed : t.Closed Everywhere) (hx : x.index < t.size) (hc : c.Retains c') :
    Answered st t' c' x :=
  fun kind howed => (h kind ((ht.owed_iff hclosed hx).1 howed)).mono hc

namespace Walk.Ongoing

/-- A walk takes no report back. -/
theorem visit_retains {depth : Nat} (h : Ongoing st Everywhere rank t₀ w.tree w.context)
    (hid : w.tree.Inside Everywhere id) (hv : visitWithin depth w id = .ok w') :
    w.context.Retains w'.context := by
  refine (visit_keeps (I := fun t c => Ongoing st Everywhere rank t₀ t c ∧ w.context.Retains c)
    (P := fun t x => t.Inside Everywhere x) ?_ (fun h hid hx => h.1.graded.children _ _ hid.1 hx)
    ⟨h, .refl _⟩ hid hv).1.2
  rintro w₁ w₂ x r ⟨h, hretains⟩ hx hr
  obtain ⟨⟨hon, hgrows⟩, hlow⟩ := h.reduce hx hr
  have htells := reduce_tells hr
  exact ⟨⟨⟨hon, hretains.trans htells.retains⟩, fun y hy => hy.mono hgrows.size⟩,
    fun m hm => (hlow m hm).1⟩

theorem foldlM_retains {f : Walk → NodeId → Except Fault Walk}
    (hf : ∀ {w w' : Walk} {id : NodeId}, Ongoing st Everywhere rank t₀ w.tree w.context →
      w.tree.Inside Everywhere id → f w id = .ok w' →
        Onward st Everywhere rank t₀ w w' ∧ w.context.Retains w'.context) {ids : List NodeId}
    (h : Ongoing st Everywhere rank t₀ w.tree w.context)
    (hids : ∀ x ∈ ids, w.tree.Inside Everywhere x) (hw : ids.foldlM f w = .ok w') :
    w.context.Retains w'.context := by
  refine (foldlM_keeps (I := fun t c => Ongoing st Everywhere rank t₀ t c ∧ w.context.Retains c)
    (P := fun t x => t.Inside Everywhere x) ?_ ⟨h, .refl _⟩ hids hw).1.2
  rintro w₁ w₂ x ⟨h, hretains⟩ hx hv
  obtain ⟨⟨hon, hgrows⟩, hretains'⟩ := hf h hx hv
  exact ⟨⟨hon, hretains.trans hretains'⟩, fun y hy => hy.mono hgrows.size⟩

/-- Along a list of nodes, what one idle walk answers for is still answered for
at the end. -/
theorem foldlM_answered {f : Walk → NodeId → Except Fault Walk}
    (hf : ∀ {w w' : Walk} {id : NodeId}, Ongoing st Everywhere rank t₀ w.tree w.context →
      w.tree.Inside Everywhere id → f w id = .ok w' →
        (Makes st w w' ∧ Onward st Everywhere rank t₀ w w' ∧ w.context.Retains w'.context) ∧
          (w'.changed = false → ∀ x, w'.tree.Reaches id x → Answered st w'.tree w'.context x))
    {ids : List NodeId} : ∀ {w w' : Walk}, Ongoing st Everywhere rank t₀ w.tree w.context →
      (∀ x ∈ ids, w.tree.Inside Everywhere x) → ids.foldlM f w = .ok w' → w'.changed = false →
      ∀ y ∈ ids, ∀ x, w'.tree.Reaches y x → Answered st w'.tree w'.context x := by
  induction ids with
  | nil =>
    intro w w' _ _ _ _ y hy
    cases hy
  | cons z ids ih =>
    intro w w' h hids hw hidle y hy x hx
    obtain ⟨hz, hids⟩ := List.forall_mem_cons.1 hids
    obtain ⟨w₁, h₁, hrest⟩ := foldlM_cons_eq_ok.1 hw
    obtain ⟨⟨-, hon, -⟩, hanswered⟩ := hf h hz h₁
    have hids₁ : ∀ x ∈ ids, w₁.tree.Inside Everywhere x := fun x hx =>
      (hids x hx).mono hon.2.size
    rcases List.mem_cons.1 hy with rfl | hy
    · have hmakes := foldlM_makes (fun h hid hv => ⟨(hf h hid hv).1.1, (hf h hid hv).1.2.1⟩)
        hon.1 hids₁ hrest
      have hretains := hon.1.foldlM_retains (fun h hid hv => (hf h hid hv).1.2) hids₁ hrest
      obtain ⟨hidle₁, hgains⟩ := hmakes.idle hidle
      have hx₁ := hgains.reaches_iff.1 hx
      have hinside := (hz.mono hon.2.size).of_reaches hon.1.graded.toClosed hx₁
      exact (hanswered hidle₁ x hx₁).mono hgains hon.1.graded.toClosed hinside.2 hretains
    · exact ih hon.1 hids₁ hrest hidle y hy x hx

/-- An idle walk answers for all that can be reached from where it starts. -/
theorem visit_answered {depth : Nat} : ∀ {w w' : Walk} {id : NodeId},
    Ongoing st Everywhere rank t₀ w.tree w.context → w.tree.Inside Everywhere id →
      visitWithin depth w id = .ok w' → w'.changed = false →
      ∀ x, w'.tree.Reaches id x → Answered st w'.tree w'.context x := by
  induction depth with
  | zero =>
    intro w w' id _ _ hv
    cases hv
  | succ depth ih =>
    intro w w' id h hid hv hidle x hx
    have hgains := ((h.visit_makes hid hv).idle hidle).2
    cases visit_succ_iff.1 hv with
    | @replaced w₁ _ m reduced onward =>
      -- the flag is set then, and it stays set
      obtain ⟨hon, hlow⟩ := h.reduce hid reduced
      have hmakes := visit_makes (w := { w₁ with changed := true }) hon.1 (hlow m rfl).1 onward
      cases (hmakes.idle hidle).1
    | removed => cases hidle
    | @unchanged w₁ _ n reduced node below =>
      have hon := (h.reduce hid reduced).1
      have hchildren : ∀ x ∈ n.shape.children, w₁.tree.Inside Everywhere x := fun x hx =>
        hon.1.graded.children id x trivial ⟨n, node, hx⟩
      have hparts : ∀ {w w' : Walk} {id : NodeId},
          Ongoing st Everywhere rank t₀ w.tree w.context → w.tree.Inside Everywhere id →
          visitWithin depth w id = .ok w' →
          Makes st w w' ∧ Onward st Everywhere rank t₀ w w' ∧ w.context.Retains w'.context :=
        fun h hid hv => ⟨h.visit_makes hid hv, h.visit hid hv, h.visit_retains hid hv⟩
      have hmakes := foldlM_makes (fun h hid hv => ⟨(hparts h hid hv).1, (hparts h hid hv).2.1⟩)
        hon.1 hchildren below
      rcases ReflTransGen.cases_head hx with rfl | ⟨y, hy, hx⟩
      · -- the node itself was answered for when it was offered
        have hanswered : Answered st w.tree w₁.context id := fun kind howed =>
          (reduce_tells reduced).answers (h.setting ▸ howed)
        exact hanswered.mono hgains h.graded.toClosed hid.2
          (hon.1.foldlM_retains (fun h hid hv => (hparts h hid hv).2) hchildren below)
      · have hmem : y ∈ n.shape.children := by
          obtain ⟨k, hk, hmem⟩ := ((hmakes.idle hidle).2).holds_iff.1 hy
          rw [node] at hk
          cases hk
          exact hmem
        exact foldlM_answered (fun h hid hv => ⟨hparts h hid hv, ih h hid hv⟩) hon.1 hchildren
          below hidle y hmem x hx

/-- An idle run answers for all that can be reached from the root. -/
theorem foldConstants_answered (h : Ongoing st Everywhere rank t₀ t c)
    (hroot : ∀ r, t₀.root = some r → t₀.Inside Everywhere r)
    (hrun : ScriptReduce.foldConstants t c = .ok (false, t', c')) :
    ∀ r x, t'.root = some r → t'.Reaches r x → Answered st t' c' x := by
  intro r x hr hx
  rcases foldConstants_eq_ok.1 hrun with ⟨hnone, -, rfl, rfl⟩ | ⟨r', hroot', hw⟩
  · rw [hnone] at hr
    cases hr
  · have hinside := (hroot r' (h.root ▸ hroot')).mono h.graded.limit_le
    have hgrows := (h.visit (w := ⟨t, c, false⟩) hinside hw).2
    rw [hgrows.root, hroot'] at hr
    cases hr
    exact visit_answered (w := ⟨t, c, false⟩) h hinside hw rfl x hx

end Walk.Ongoing

/-! ## 3. Optimizations -/

/-- What is due at a node that could be reduced and has kept its place: a report
that says what stood in the way. -/
inductive Due (st : Setting) (t : Tree) (x : NodeId) : DiagnosticKind → Prop where
  /-- The condition of an `if` statement has a value. -/
  | branch {condition whenTrue : NodeId} {whenFalse : Option NodeId} {o : Outcome} {v : Value}
    (enabled : st.options.branches = true)
    (shape : t.shape x = .ok (.branch condition whenTrue whenFalse))
    (evaluated : (st.evaluator t).evaluate condition = .ok o) (value : o.value = some v) :
    Due st t x .slotNotFound
  | binary {left right : NodeId} {op : BinaryOperator} {o : Outcome} {v : Value}
    (enabled : st.options.fold = true) (shape : t.shape x = .ok (.binary left op right))
    (evaluated : (st.evaluator t).evaluate x = .ok o) (value : o.value = some v) :
    Due st t x v.obstacle
  | unary {operand : NodeId} {op : UnaryOperator} {o : Outcome} {v : Value}
    (enabled : st.options.fold = true) (shape : t.shape x = .ok (.unary op operand))
    (evaluated : (st.evaluator t).evaluate x = .ok o) (value : o.value = some v) :
    Due st t x v.obstacle
  /-- An identifier stands where a literal may, and resolves to a value. -/
  | identifier {name : String} {o : Outcome} {v : Value} (enabled : st.options.propagate = true)
    (shape : t.shape x = .ok (.identifier name)) (site : Walk.isSubstitutionSite t x = .ok true)
    (resolved : (st.evaluator t).resolve x = .ok o) (value : o.value = some v) :
    Due st t x v.obstacle

/-- What is due is owed. -/
theorem Due.owed {kind : DiagnosticKind} (h : Due st t x kind) : Owed st t x kind := by
  cases h with
  | branch enabled shape evaluated value =>
    have hyields := (Evaluator.evaluate_value_iff evaluated).1 value
    exact .decides ⟨_, _, _, shape, hyields, enabled⟩
  | binary enabled shape evaluated value | unary enabled shape evaluated value =>
    have hfolds : Folds st t false x _ :=
      ⟨(Evaluator.evaluate_value_iff evaluated).1 value, _, shape, enabled⟩
    refine .folds (fun name hs => ?_) hfolds
    rw [shape] at hs
    cases hs
  | identifier enabled shape site resolved value =>
    have hyields := (Evaluator.resolve_value_iff shape resolved).1 value
    exact .folds (fun _ _ => site) ⟨hyields, _, shape, enabled, rfl⟩

/-- What is reported stays distinct through a run. -/
theorem Walk.Ongoing.foldConstants_distinct {changed : Bool}
    (h : Walk.Ongoing st Everywhere rank t₀ t c)
    (hroot : ∀ r, t₀.root = some r → t₀.Inside Everywhere r) (hc : c.Distinct)
    (hrun : ScriptReduce.foldConstants t c = .ok (changed, t', c')) : c'.Distinct := by
  refine (Walk.foldConstants_keeps
    (I := fun t c => Walk.Ongoing st Everywhere rank t₀ t c ∧ c.Distinct)
    (P := fun t x => t.Inside Everywhere x) ?_ (fun h hid hx => h.1.graded.children _ _ hid.1 hx)
    ⟨h, hc⟩ (fun r hr => (hroot r (h.root ▸ hr)).mono h.graded.limit_le) hrun).2
  rintro w w' x r ⟨h, hdistinct⟩ hx hr
  obtain ⟨⟨hon, hgrows⟩, hlow⟩ := h.reduce hx hr
  obtain ⟨site, hsite⟩ := Walk.exists_isSubstitutionSite h.graded.toClosed hx
  refine ⟨⟨⟨hon, ?_⟩, fun y hy => hy.mono hgrows.size⟩, fun m hm => (hlow m hm).1⟩
  cases Walk.reduce_cases hsite hr with
  | kept _ _ _ follows => exact follows.distinct hdistinct
  | made _ _ _ follows => exact follows.distinct hdistinct
  | failed _ _ _ misses => exact misses.distinct hdistinct

/-- Nothing is left unreduced in silence. An optimization never reports a node
twice for the same reason; and if its last iteration reported no change, every
node that can be reached from the root and that could still be reduced has been
reported exactly once with the reason that keeps it in place. There is a result,
unless a symbol names a declaration that is no node of the tree. -/
theorem optimize_reports (ha : t.Acyclic) (hc : t.Closed Everywhere)
    (hroot : ∀ r, t.root = some r → r.index < t.size) (symbolAt : Resolver) (options : Options) :
    (symbolAt.Within t → ∃ t' c', optimize t symbolAt options = .ok (t', c')) ∧
    ∀ t' c', optimize t symbolAt options = .ok (t', c') →
      (c'.diagnostics.map fun d => (d.kind, d.node)).Nodup ∧
      (∃ changed, LastRun t (.start symbolAt options) changed t' c') ∧
      (LastRun t (.start symbolAt options) false t' c' → ∀ r x kind, t'.root = some r →
        t'.Reaches r x → Due ⟨symbolAt, options⟩ t' x kind →
        (c'.diagnostics.countP fun d => d.kind = kind ∧ d.node = x) = 1) := by
  have hg : t.Graded Everywhere t.rank t.size := ha.graded hc
  refine ⟨fun hw => hg.exists_optimize hroot hw options, fun t' c' hopt => ?_⟩
  have hinside : ∀ r, t.root = some r → t.Inside Everywhere r := fun r hr => ⟨trivial, hroot r hr⟩
  have hstart : Walk.Ongoing ⟨symbolAt, options⟩ Everywhere t.rank t t
      (.start symbolAt options) := ⟨hg, rfl, rfl⟩
  have hdistinct : c'.Distinct := by
    obtain ⟨changes, hrun⟩ := optimize_eq_ok.1 hopt
    refine (optimizeIn_keeps
      (I := fun u d => Walk.Ongoing ⟨symbolAt, options⟩ Everywhere t.rank t u d ∧ d.Distinct)
      (fun h hrun => ?_) (fun _ h => ⟨⟨h.1.graded, h.1.root, h.1.setting⟩, h.2⟩)
      ⟨hstart, List.nodup_nil⟩ hrun).2
    exact ⟨h.1.foldConstants hinside hrun, h.1.foldConstants_distinct hinside h.2 hrun⟩
  refine ⟨hdistinct, optimize_lastRun hopt, ?_⟩
  rintro ⟨t₁, c₁, c₂, hruns, hrun, rfl⟩ r x kind hr hx hdue
  have hon₁ := hstart.runs hinside hruns
  have hanswered := hon₁.foldConstants_answered hinside hrun r x hr hx
  exact hdistinct.countP_eq_one (hanswered kind hdue.owed)

namespace Sample

/-- The program `const a = 1 / 0; f(a); !true; if (true) ; 1 < 2;` with the parent
link of the negation missing and that of the `if` statement wrong. -/
def refused : Tree where
  nodes := #[
    ⟨.identifier "a", some ⟨4⟩, none⟩,
    ⟨.literal (.numeric "1"), some ⟨3⟩, none⟩,
    ⟨.literal (.numeric "0"), some ⟨3⟩, none⟩,
    ⟨.binary ⟨1⟩ .divide ⟨2⟩, some ⟨4⟩, none⟩,
    ⟨.declaration ⟨0⟩ (some ⟨3⟩), some ⟨5⟩, none⟩,
    ⟨.declarationList .constant [⟨4⟩], some ⟨6⟩, none⟩,
    ⟨.variableStatement ⟨5⟩, some ⟨21⟩, none⟩,
    ⟨.identifier "f", some ⟨9⟩, none⟩,
    ⟨.identifier "a", some ⟨9⟩, none⟩,
    ⟨.call ⟨7⟩ [⟨8⟩], some ⟨10⟩, none⟩,
    ⟨.expressionStatement ⟨9⟩, some ⟨21⟩, none⟩,
    ⟨.literal (.boolean true), some ⟨12⟩, none⟩,
    ⟨.unary .not ⟨11⟩, none, none⟩,
    ⟨.expressionStatement ⟨12⟩, some ⟨21⟩, none⟩,
    ⟨.literal (.boolean true), some ⟨16⟩, none⟩,
    ⟨.emptyStatement, some ⟨16⟩, none⟩,
    ⟨.branch ⟨14⟩ ⟨15⟩ none, some ⟨13⟩, none⟩,
    ⟨.literal (.numeric "1"), some ⟨19⟩, none⟩,
    ⟨.literal (.numeric "2"), some ⟨19⟩, none⟩,
    ⟨.binary ⟨17⟩ .less ⟨18⟩, some ⟨20⟩, none⟩,
    ⟨.expressionStatement ⟨19⟩, some ⟨21⟩, none⟩,
    ⟨.sourceFile [⟨6⟩, ⟨10⟩, ⟨13⟩, ⟨16⟩, ⟨20⟩], none, none⟩]
  root := some ⟨21⟩

/-- The use of its constant. -/
def refusedSymbols : SymbolTable where
  symbols := #[⟨⟨0⟩, "a", .constant, some ⟨4⟩⟩]
  resolutions := [(⟨8⟩, ⟨0⟩)]

theorem refused_layered : refused.Layered := ⟨by decide +kernel, by decide +kernel⟩

theorem refusedSymbols_within : refusedSymbols.resolve.Within refused := by
  intro x symbol d h hd
  have hmem := SymbolTable.mem_of_resolve h
  simp only [refusedSymbols, Array.mem_singleton] at hmem
  subst hmem
  cases hd
  decide

def refusedSetting : Setting := ⟨refusedSymbols.resolve, options⟩

/-- Why a node keeps its place although a value was found for it. -/
def reason (found : Except Fault Outcome) : Except Fault (Option DiagnosticKind) :=
  found.map fun o => o.value.map Value.obstacle

theorem exists_of_reason {found : Except Fault Outcome} {kind : DiagnosticKind}
    (h : reason found = .ok (some kind)) :
    ∃ o v, found = .ok o ∧ o.value = some v ∧ v.obstacle = kind := by
  obtain ⟨o, ho, hkind⟩ := map_eq_ok.1 h
  obtain ⟨v, hv, hobstacle⟩ := Option.map_eq_some_iff.1 hkind
  exact ⟨o, v, ho, hv, hobstacle⟩

/-- What is left of the program where it could not be reduced. -/
def Refused (t' : Tree) : Prop :=
  (t'.shape ⟨3⟩ = .ok (.binary ⟨1⟩ .divide ⟨2⟩) ∧
    reason ((refusedSetting.evaluator t').evaluate ⟨3⟩) = .ok (some .unmaterializableLiteral)) ∧
  (t'.shape ⟨8⟩ = .ok (.identifier "a") ∧ Walk.isSubstitutionSite t' ⟨8⟩ = .ok true ∧
    reason ((refusedSetting.evaluator t').resolve ⟨8⟩) = .ok (some .unmaterializableLiteral)) ∧
  (t'.shape ⟨12⟩ = .ok (.unary .not ⟨11⟩) ∧
    reason ((refusedSetting.evaluator t').evaluate ⟨12⟩) = .ok (some .slotNotFound)) ∧
  (t'.shape ⟨16⟩ = .ok (.branch ⟨14⟩ ⟨15⟩ none) ∧
    reason ((refusedSetting.evaluator t').evaluate ⟨14⟩) = .ok (some .slotNotFound))

instance (t' : Tree) : Decidable (Refused t') := by
  unfold Refused
  infer_instance

theorem Refused.due (h : Refused t') :
    Due refusedSetting t' ⟨3⟩ .unmaterializableLiteral ∧
      Due refusedSetting t' ⟨8⟩ .unmaterializableLiteral ∧
      Due refusedSetting t' ⟨12⟩ .slotNotFound ∧ Due refusedSetting t' ⟨16⟩ .slotNotFound := by
  obtain ⟨⟨hquotient, hq⟩, ⟨huse, hsite, hu⟩, ⟨hnegation, hn⟩, hif, hi⟩ := h
  obtain ⟨_, _, hqo, hqv, hq⟩ := exists_of_reason hq
  obtain ⟨_, _, huo, huv, hu⟩ := exists_of_reason hu
  obtain ⟨_, _, hno, hnv, hn⟩ := exists_of_reason hn
  obtain ⟨_, _, hio, hiv, -⟩ := exists_of_reason hi
  refine ⟨?_, ?_, ?_, .branch rfl hif hio hiv⟩
  · rw [← hq]
    exact .binary rfl hquotient hqo hqv
  · rw [← hu]
    exact .identifier rfl huse hsite huo huv
  · rw [← hn]
    exact .unary rfl hnegation hno hnv

/-- After the run they are all there and can be reached. No warning but those about
diagnostics was given, though the comparison was folded. -/
theorem refused_left (h : optimize refused refusedSymbols.resolve options = .ok (t', c')) :
    Refused t' ∧ t'.root = some ⟨21⟩ ∧
      (t'.Reaches ⟨21⟩ ⟨3⟩ ∧ t'.Reaches ⟨21⟩ ⟨8⟩ ∧ t'.Reaches ⟨21⟩ ⟨12⟩ ∧ t'.Reaches ⟨21⟩ ⟨16⟩) ∧
      .unstable "root" Workspace.iterationLimit ∉ c'.warnings ∧
      c'.changes.map Change.node = [⟨19⟩] := by
  have hleft : (optimize refused refusedSymbols.resolve options).map (fun result => decide
      (Refused result.1 ∧ result.1.root = some ⟨21⟩ ∧
        (List.IsChain result.1.Holds [⟨21⟩, ⟨6⟩, ⟨5⟩, ⟨4⟩, ⟨3⟩] ∧
          List.IsChain result.1.Holds [⟨21⟩, ⟨10⟩, ⟨9⟩, ⟨8⟩] ∧
          List.IsChain result.1.Holds [⟨21⟩, ⟨13⟩, ⟨12⟩] ∧
          List.IsChain result.1.Holds [⟨21⟩, ⟨16⟩]) ∧
        .unstable "root" Workspace.iterationLimit ∉ result.2.warnings ∧
        result.2.changes.map Change.node = [⟨19⟩])) = .ok true := by
    decide +kernel
  rw [h] at hleft
  obtain ⟨hrefused, hroot, ⟨h₃, h₈, h₁₂, h₁₆⟩, hend⟩ := of_decide_eq_true (Except.ok.inj hleft)
  exact ⟨hrefused, hroot, ⟨reaches_of_path h₃ (by simp), reaches_of_path h₈ (by simp),
    reaches_of_path h₁₂ (by simp), reaches_of_path h₁₆ (by simp)⟩, hend⟩

end Sample

/-- Two nodes without a literal and two without a slot are each reported once. -/
theorem optimize_reports_refused :
    ∃ t' c', optimize Sample.refused Sample.refusedSymbols.resolve Sample.options = .ok (t', c') ∧
      c'.changes.map Change.node = [⟨19⟩] ∧
      (c'.diagnostics.map fun d => (d.kind, d.node)).Nodup ∧
      LastRun Sample.refused (.start Sample.refusedSymbols.resolve Sample.options) false t' c' ∧
      (c'.diagnostics.countP fun d => d.kind = .unmaterializableLiteral ∧ d.node = ⟨3⟩) = 1 ∧
      (c'.diagnostics.countP fun d => d.kind = .unmaterializableLiteral ∧ d.node = ⟨8⟩) = 1 ∧
      (c'.diagnostics.countP fun d => d.kind = .slotNotFound ∧ d.node = ⟨12⟩) = 1 ∧
      (c'.diagnostics.countP fun d => d.kind = .slotNotFound ∧ d.node = ⟨16⟩) = 1 := by
  obtain ⟨hexists, hall⟩ := optimize_reports Sample.refused_layered.acyclic
    Sample.refused_layered.closed (fun r hr => by cases hr; decide) Sample.refusedSymbols.resolve
    Sample.options
  obtain ⟨t', c', hrun⟩ := hexists Sample.refusedSymbols_within
  obtain ⟨hrefused, hroot, ⟨h₃, h₈, h₁₂, h₁₆⟩, hwarnings, hchanges⟩ := Sample.refused_left hrun
  obtain ⟨hdue₃, hdue₈, hdue₁₂, hdue₁₆⟩ := hrefused.due
  obtain ⟨hnodup, ⟨changed, hlast⟩, hreports⟩ := hall t' c' hrun
  obtain rfl := hlast.idle hwarnings
  exact ⟨t', c', hrun, hchanges, hnodup, hlast, hreports hlast _ _ _ hroot h₃ hdue₃,
    hreports hlast _ _ _ hroot h₈ hdue₈, hreports hlast _ _ _ hroot h₁₂ hdue₁₂,
    hreports hlast _ _ _ hroot h₁₆ hdue₁₆⟩

end ScriptReduce
