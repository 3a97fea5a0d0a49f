/-
ScriptReduce.Proofs.Reduce.Quiet: a run that does not look through identifiers.

With propagation off a run asks for no symbol, so it cannot depend on the
answers. It does what a run does that asks and is never told a symbol: nothing
has a value by a constant, so an identifier has none, and what both runs find of
any other expression is the same.

The proof compares the two runs function by function. `quiet` takes all that has
to do with symbols out of an evaluator, of a context or of a walk: the switch is
off, any resolver is put in, and no lookup is counted. When a function gives a
result in a run that is never told a symbol, the same function gives the same
result, but quiet, in the quiet run.
-/
import ScriptReduce.Proofs.Reduce.Contained

namespace ScriptReduce

open ScriptReduce.Tree

variable {st : Setting} {rank : NodeId → Nat} {t t' t₀ : Tree} {c c' : Context} {id : NodeId}
  {r : Reduction} {changed : Bool}

/-! ## 1. Evaluation -/

/-- A resolver that never answers with a symbol. -/
def Resolver.Silent (symbolAt : Resolver) : Prop := ∀ x, symbolAt x = none

theorem SymbolTable.silent_empty : SymbolTable.empty.resolve.Silent := fun _ => rfl

theorem Resolver.Silent.within {symbolAt : Resolver} (h : symbolAt.Silent) (t : Tree) :
    symbolAt.Within t := by
  intro x symbol d hx _
  rw [h x] at hx
  cases hx

namespace Evaluator

variable {ev : Evaluator} {depth : Nat} {marked : List NodeId} {o : Outcome}

/-- The evaluator of the same tree that asks for no symbol. -/
def quiet (symbolAt : Resolver) (ev : Evaluator) : Evaluator := ⟨ev.tree, symbolAt, false⟩

/-- Without symbols, no identifier has a value. -/
theorem value_of_silent (h : ev.symbolAt.Silent)
    {eval : List NodeId → NodeId → Except Fault Outcome}
    (ho : ev.resolveWith eval marked id = .ok o) : o.value = none := by
  obtain ⟨use, _, ho⟩ := bind_eq_ok.1 ho
  cases use with
  | false =>
    cases ho
    rfl
  | true =>
    rw [if_pos rfl] at ho
    simp only [constant?, h id] at ho
    cases ho
    rfl

theorem resolveWith_quiet (symbolAt : Resolver) (ev : Evaluator)
    (eval : List NodeId → NodeId → Except Fault Outcome) (marked : List NodeId) (id : NodeId) :
    (ev.quiet symbolAt).resolveWith eval marked id = .ok .nothing := rfl

/-- Without symbols an expression has the value that it has when none is asked
for. -/
theorem evalWithin_quiet (symbolAt : Resolver) (h : ev.symbolAt.Silent)
    (ho : ev.evalWithin depth marked id = .ok o) :
    (ev.quiet symbolAt).evalWithin depth marked id = .ok ⟨o.value, []⟩ := by
  induction depth generalizing marked id o with
  | zero => cases ho
  | succ depth ih =>
    rw [evalWithin] at ho ⊢
    obtain ⟨s, hs, ho⟩ := bind_eq_ok.1 ho
    refine (bind_of_ok _ hs).trans ?_
    cases s with
    | literal l =>
      cases ho
      rfl
    | unary op a =>
      cases op with
      | not =>
        obtain ⟨o', ho', ho⟩ := bind_eq_ok.1 ho
        cases ho
        simp only
        rw [bind_of_ok _ (ih ho')]
        rfl
      | _ =>
        cases ho
        rfl
    | binary a op b =>
      obtain ⟨l, hl, ho⟩ := bind_eq_ok.1 ho
      simp only
      rw [bind_of_ok _ (ih hl)]
      cases hv : l.value with
      | none =>
        rw [hv] at ho
        cases ho
        rw [hv]
        rfl
      | some v =>
        rw [hv] at ho
        simp only at ho ⊢
        by_cases hset : op.isSettledBy v = true
        · rw [if_pos hset] at ho ⊢
          cases ho
          rw [hv]
          rfl
        · rw [if_neg hset] at ho ⊢
          obtain ⟨o', ho', ho⟩ := bind_eq_ok.1 ho
          cases ho
          rw [bind_of_ok _ (ih ho')]
          rfl
    | identifier name =>
      simp only at ho ⊢
      rw [resolveWith_quiet, value_of_silent h ho]
      rfl
    | _ =>
      cases ho
      rfl

end Evaluator

/-! ## 2. Contexts and walks -/

namespace Context

variable {v : Option Value}

/-- The context of a run that asks for no symbol. -/
def quiet (symbolAt : Resolver) (c : Context) : Context :=
  { c with symbolAt, options := { c.options with propagate := false }, lookups := 0 }

theorem evaluate_quiet (symbolAt : Resolver) (h : c.symbolAt.Silent)
    (hv : c.evaluate t id = .ok (v, c')) :
    (c.quiet symbolAt).evaluate t id = .ok (v, c'.quiet symbolAt) := by
  obtain ⟨o, ho, rfl, rfl⟩ := evaluate_eq_ok.1 hv
  exact evaluate_eq_ok.2 ⟨⟨o.value, []⟩, Evaluator.evalWithin_quiet symbolAt h ho, rfl, rfl⟩

theorem report_quiet (symbolAt : Resolver) (c : Context) (d : Diagnostic) :
    (c.quiet symbolAt).report d = (c.report d).quiet symbolAt := by
  unfold report
  rw [show (c.quiet symbolAt).hasReported d = c.hasReported d from rfl]
  split <;> rfl

theorem replace_quiet (symbolAt : Resolver) {old m : NodeId} {done : Bool}
    (h : c.replace t old m = .ok (done, t', c')) :
    (c.quiet symbolAt).replace t old m = .ok (done, t', c'.quiet symbolAt) := by
  obtain ⟨res, hres, h⟩ := bind_eq_ok.1 h
  rw [replace, bind_of_ok _ hres]
  cases res with
  | ok u =>
    cases h
    rfl
  | error e =>
    obtain ⟨d, hd, h⟩ := bind_eq_ok.1 h
    cases h
    simp only
    rw [bind_of_ok _ hd, report_quiet]
    rfl

end Context

namespace Walk

variable {w w' : Walk}

/-- A walk of a run that asks for no symbol. -/
def quiet (symbolAt : Resolver) (w : Walk) : Walk :=
  { w with context := w.context.quiet symbolAt }

theorem install_quiet (symbolAt : Resolver) {v : Value} (h : w.install id v = .ok (r, w')) :
    (w.quiet symbolAt).install id v = .ok (r, w'.quiet symbolAt) := by
  refine install_iff.2 ?_
  cases install_iff.1 h with
  | @inexpressible d literal diagnosed =>
    have hquiet := Installs.inexpressible (w := w.quiet symbolAt) literal diagnosed
    rw [show (w.quiet symbolAt).context.report d = _ from Context.report_quiet _ _ _] at hquiet
    exact hquiet
  | placed literal replaced =>
    have hquiet := Context.replace_quiet symbolAt replaced
    exact Installs.placed (w := w.quiet symbolAt) literal hquiet
  | refused literal replaced =>
    have hquiet := Context.replace_quiet symbolAt replaced
    exact Installs.refused (w := w.quiet symbolAt) literal hquiet

theorem installIfKnown_quiet (symbolAt : Resolver) {v : Option Value}
    (h : w.installIfKnown id v = .ok (r, w')) :
    (w.quiet symbolAt).installIfKnown id v = .ok (r, w'.quiet symbolAt) := by
  cases v with
  | none =>
    cases h
    rfl
  | some v => exact install_quiet symbolAt h

theorem drop_quiet (symbolAt : Resolver) (h : w.drop id = .ok (r, w')) :
    (w.quiet symbolAt).drop id = .ok (r, w'.quiet symbolAt) := by
  obtain ⟨res, hres, h⟩ := bind_eq_ok.1 h
  unfold drop
  refine (bind_of_ok _ hres).trans ?_
  cases res with
  | ok res =>
    cases h
    rfl
  | error e =>
    obtain ⟨d, hd, h⟩ := bind_eq_ok.1 h
    cases h
    simp only
    refine (bind_of_ok _ hd).trans ?_
    simp only [quiet, Context.report_quiet]
    rfl

theorem select_quiet (symbolAt : Resolver) {selected : NodeId}
    (h : w.select id selected = .ok (r, w')) :
    (w.quiet symbolAt).select id selected = .ok (r, w'.quiet symbolAt) := by
  obtain ⟨⟨done, t', c'⟩, hc, h⟩ := bind_eq_ok.1 h
  unfold select
  refine (bind_of_ok _ (Context.replace_quiet symbolAt hc)).trans ?_
  cases done <;>
    · cases h
      rfl

theorem decideBranch_quiet (symbolAt : Resolver) (hw : w.context.symbolAt.Silent)
    {condition whenTrue : NodeId} {whenFalse : Option NodeId}
    (h : w.decideBranch id condition whenTrue whenFalse = .ok (r, w')) :
    (w.quiet symbolAt).decideBranch id condition whenTrue whenFalse
      = .ok (r, w'.quiet symbolAt) := by
  obtain ⟨⟨v, c⟩, hv, h⟩ := bind_eq_ok.1 h
  unfold decideBranch
  refine (bind_of_ok _ (Context.evaluate_quiet symbolAt hw hv)).trans ?_
  cases v with
  | none =>
    cases h
    rfl
  | some v =>
    simp only at h ⊢
    split at h
    · exact select_quiet symbolAt h
    · exact drop_quiet symbolAt h

theorem foldOperator_quiet (symbolAt : Resolver) (hw : w.context.symbolAt.Silent)
    (h : w.foldOperator id = .ok (r, w')) :
    (w.quiet symbolAt).foldOperator id = .ok (r, w'.quiet symbolAt) := by
  obtain ⟨⟨v, c⟩, hv, h⟩ := bind_eq_ok.1 h
  unfold foldOperator
  refine (bind_of_ok _ (Context.evaluate_quiet symbolAt hw hv)).trans ?_
  exact installIfKnown_quiet symbolAt h

/-- Without symbols no literal is put in the place of an identifier. -/
theorem substitute_of_silent (symbolAt : Resolver) (hw : w.context.symbolAt.Silent)
    (h : w.substitute id = .ok (r, w')) :
    r = .unchanged ∧ w'.quiet symbolAt = w.quiet symbolAt := by
  obtain ⟨site, _, h⟩ := bind_eq_ok.1 h
  cases site with
  | false =>
    cases h
    exact ⟨rfl, rfl⟩
  | true =>
    rw [if_pos rfl] at h
    obtain ⟨⟨v, c⟩, hv, h⟩ := bind_eq_ok.1 h
    obtain ⟨o, ho, rfl, rfl⟩ := Context.resolve_eq_ok.1 hv
    rw [Evaluator.value_of_silent hw ho] at h
    cases h
    exact ⟨rfl, rfl⟩

/-- A run that is never told a symbol reduces a node as a quiet run does. -/
theorem reduce_quiet (symbolAt : Resolver) (hw : w.context.symbolAt.Silent)
    (h : w.reduce id = .ok (r, w')) :
    (w.quiet symbolAt).reduce id = .ok (r, w'.quiet symbolAt) := by
  obtain ⟨s, hs, h⟩ := bind_eq_ok.1 h
  unfold reduce
  refine (bind_of_ok _ hs).trans ?_
  have hbranches : (w.quiet symbolAt).context.options.branches = w.context.options.branches := rfl
  have hfold : (w.quiet symbolAt).context.options.fold = w.context.options.fold := rfl
  cases s with
  | branch condition whenTrue whenFalse =>
    simp only [hbranches] at h ⊢
    split
    · rename_i hon
      rw [if_pos hon] at h
      exact decideBranch_quiet symbolAt hw h
    · rename_i hoff
      rw [if_neg hoff] at h
      cases h
      rfl
  | binary | unary =>
    simp only [hfold] at h ⊢
    split
    · rename_i hon
      rw [if_pos hon] at h
      exact foldOperator_quiet symbolAt hw h
    · rename_i hoff
      rw [if_neg hoff] at h
      cases h
      rfl
  | identifier name =>
    simp only at h
    split at h
    · obtain ⟨rfl, hquiet⟩ := substitute_of_silent symbolAt hw h
      rw [hquiet]
      rfl
    · cases h
      rfl
  | _ =>
    cases h
    rfl

end Walk

/-! ## 3. Runs -/

namespace Walk.Ongoing

variable {w w' : Walk}

theorem reduce_quiet (h : Ongoing st Everywhere rank t₀ w.tree w.context)
    (hs : st.symbolAt.Silent) (symbolAt : Resolver) (hr : w.reduce id = .ok (r, w')) :
    (w.quiet symbolAt).reduce id = .ok (r, w'.quiet symbolAt) := by
  refine Walk.reduce_quiet symbolAt ?_ hr
  rw [show w.context.symbolAt = st.symbolAt from congrArg Setting.symbolAt h.setting]
  exact hs

theorem foldlM_quiet {f : Walk → NodeId → Except Fault Walk} (symbolAt : Resolver)
    (hf : ∀ {w w' id}, Ongoing st Everywhere rank t₀ w.tree w.context →
      w.tree.Inside Everywhere id → f w id = .ok w' →
      Onward st Everywhere rank t₀ w w' ∧ f (w.quiet symbolAt) id = .ok (w'.quiet symbolAt))
    {ids : List NodeId} : ∀ {w w' : Walk}, Ongoing st Everywhere rank t₀ w.tree w.context →
      (∀ x ∈ ids, w.tree.Inside Everywhere x) → ids.foldlM f w = .ok w' →
      ids.foldlM f (w.quiet symbolAt) = .ok (w'.quiet symbolAt) := by
  induction ids with
  | nil =>
    intro w w' _ _ hw
    cases hw
    rfl
  | cons x ids ih =>
    intro w w' h hids hw
    obtain ⟨hx, hids⟩ := List.forall_mem_cons.1 hids
    obtain ⟨w₁, h₁, hw⟩ := foldlM_cons_eq_ok.1 hw
    obtain ⟨⟨hon, hgrows⟩, hquiet⟩ := hf h hx h₁
    exact foldlM_cons_eq_ok.2 ⟨_, hquiet, ih hon (fun y hy => (hids y hy).mono hgrows.size) hw⟩

theorem visit_quiet (hs : st.symbolAt.Silent) (symbolAt : Resolver) {depth : Nat} :
    ∀ {w w' : Walk} {id : NodeId}, Ongoing st Everywhere rank t₀ w.tree w.context →
      w.tree.Inside Everywhere id → visitWithin depth w id = .ok w' →
      visitWithin depth (w.quiet symbolAt) id = .ok (w'.quiet symbolAt) := by
  induction depth with
  | zero =>
    intro w w' id _ _ hv
    cases hv
  | succ depth ih =>
    intro w w' id h hid hv
    refine visit_succ_iff.2 ?_
    cases visit_succ_iff.1 hv with
    | @replaced w₁ _ m reduced onward =>
      obtain ⟨⟨h₁, _⟩, hlow⟩ := h.reduce hid reduced
      refine .replaced (h.reduce_quiet hs symbolAt reduced) ?_
      exact @ih { w₁ with changed := true } w' m h₁ (hlow m rfl).1 onward
    | removed reduced => exact .removed (h.reduce_quiet hs symbolAt reduced)
    | @unchanged w₁ _ n reduced node below =>
      have h₁ := (h.reduce hid reduced).1.1
      refine .unchanged (h.reduce_quiet hs symbolAt reduced) node ?_
      exact h₁.foldlM_quiet symbolAt (fun h hx hw => ⟨h.visit hx hw, ih h hx hw⟩)
        (fun x hx => h₁.graded.children id x trivial ⟨n, node, hx⟩) below

theorem foldConstants_quiet (h : Ongoing st Everywhere rank t₀ t c)
    (hroot : ∀ r, t₀.root = some r → t₀.Inside Everywhere r) (hs : st.symbolAt.Silent)
    (symbolAt : Resolver) (hrun : ScriptReduce.foldConstants t c = .ok (changed, t', c')) :
    ScriptReduce.foldConstants t (c.quiet symbolAt) = .ok (changed, t', c'.quiet symbolAt) := by
  refine foldConstants_eq_ok.2 ?_
  rcases foldConstants_eq_ok.1 hrun with ⟨hr, rfl, rfl, rfl⟩ | ⟨root, hr, hw⟩
  · exact .inl ⟨hr, rfl, rfl, rfl⟩
  · have hinside := (hroot root (h.root ▸ hr)).mono h.graded.limit_le
    exact .inr ⟨root, hr, visit_quiet (w := ⟨t, c, false⟩) hs symbolAt h hinside hw⟩

end Walk.Ongoing

namespace Workspace

variable {μ : Type} {action : Workspace μ → Except Fault (Bool × Workspace μ)}
  {giveUp : Workspace μ → Workspace μ} {I : Workspace μ → Prop} {f : Workspace μ → Workspace μ}

/-- What each repetition does likewise in another workspace, all of them do. -/
theorem untilStable_likewise
    (hstep : ∀ {ws ws' changed}, I ws → action ws = .ok (changed, ws') →
      I ws' ∧ action (f ws) = .ok (changed, f ws'))
    (hgiveUp : ∀ ws, giveUp (f ws) = f (giveUp ws)) {limit : Nat} {ws ws' : Workspace μ}
    {changed : Bool} (h : I ws) (hrun : untilStable action giveUp limit ws = .ok (changed, ws')) :
    untilStable action giveUp limit (f ws) = .ok (changed, f ws') := by
  induction limit generalizing ws changed with
  | zero =>
    cases hrun
    rw [untilStable, hgiveUp]
  | succ limit ih =>
    rw [untilStable] at hrun ⊢
    obtain ⟨⟨changes, ws₁⟩, h₁, hrun⟩ := bind_eq_ok.1 hrun
    obtain ⟨hI, hlikewise⟩ := hstep h h₁
    rw [bind_of_ok _ hlikewise]
    cases changes with
    | false =>
      cases hrun
      rfl
    | true =>
      obtain ⟨⟨_, ws₂⟩, h₂, hrun⟩ := bind_eq_ok.1 hrun
      cases hrun
      simp only [if_true]
      rw [bind_of_ok _ (ih hI h₂)]
      rfl

/-- The workspace of a run that asks for no symbol. -/
def quiet (symbolAt : Resolver) (ws : Workspace μ) : Workspace μ :=
  { ws with context := ws.context.quiet symbolAt }

end Workspace

/-- An optimization that is never told a symbol does what a quiet one does. -/
theorem Walk.Ongoing.optimizeIn_quiet (h : Walk.Ongoing st Everywhere rank t₀ t c)
    (hroot : ∀ r, t₀.root = some r → t₀.Inside Everywhere r) (hs : st.symbolAt.Silent)
    (symbolAt : Resolver) (hrun : ScriptReduce.optimizeIn t c = .ok (changed, t', c')) :
    ScriptReduce.optimizeIn t (c.quiet symbolAt) = .ok (changed, t', c'.quiet symbolAt) := by
  rw [optimizeIn_eq] at hrun ⊢
  obtain ⟨⟨changes, ws⟩, hws, hrun⟩ := bind_eq_ok.1 hrun
  cases hrun
  have honce : ∀ {ws ws' : Workspace Unit} {changed},
      Walk.Ongoing st Everywhere rank t₀ ws.tree ws.context →
      Workspace.inOrder [foldingPass.run] ws = .ok (changed, ws') →
      Walk.Ongoing st Everywhere rank t₀ ws'.tree ws'.context ∧
        Workspace.inOrder [foldingPass.run] (ws.quiet symbolAt)
          = .ok (changed, ws'.quiet symbolAt) := by
    intro ws ws' changed hon hws
    rw [Workspace.inOrder_folding] at hws ⊢
    obtain ⟨⟨changes, t', c'⟩, hfold, hws⟩ := bind_eq_ok.1 hws
    cases hws
    refine ⟨hon.foldConstants hroot hfold, ?_⟩
    refine (bind_of_ok _ (hon.foldConstants_quiet hroot hs symbolAt hfold)).trans ?_
    rfl
  have hwarn : ∀ ws : Workspace Unit,
      (ws.quiet symbolAt).warnUnstable "root" = (ws.warnUnstable "root").quiet symbolAt :=
    fun _ => rfl
  have hquiet := Workspace.untilStable_likewise
    (I := fun ws => Walk.Ongoing st Everywhere rank t₀ ws.tree ws.context) honce hwarn h hws
  refine (bind_of_ok _ hquiet).trans ?_
  rfl

/-- With propagation off symbols cannot influence an optimization, whatever the
parent links of the tree are and however its nodes are shared. There is one
tree, and there are the diagnostics, that every resolver comes to, and no
resolver is asked. An optimization that looks through identifiers comes to the
same with an empty symbol table. -/
theorem optimize_without_propagation (ha : t.Acyclic) (hc : t.Closed Everywhere)
    (hroot : ∀ r, t.root = some r → r.index < t.size) (options : Options)
    (hoff : options.propagate = false) :
    ∃ t' diagnostics,
      (∀ symbolAt, ∃ c', optimize t symbolAt options = .ok (t', c') ∧
        c'.diagnostics = diagnostics ∧ c'.lookups = 0) ∧
      ∃ c', optimize t SymbolTable.empty.resolve { options with propagate := true } = .ok (t', c') ∧
        c'.diagnostics = diagnostics := by
  have hg : t.Graded Everywhere t.rank t.size := ha.graded hc
  have hsilent := SymbolTable.silent_empty
  obtain ⟨t', c', hrun⟩ :=
    hg.exists_optimize hroot (hsilent.within t) { options with propagate := true }
  refine ⟨t', c'.diagnostics, fun symbolAt => ⟨c'.quiet symbolAt, ?_, rfl, rfl⟩, c', hrun, rfl⟩
  obtain ⟨changed, hrun⟩ := optimize_eq_ok.1 hrun
  have hon : Walk.Ongoing ⟨SymbolTable.empty.resolve, { options with propagate := true }⟩
      Everywhere t.rank t t (.start SymbolTable.empty.resolve { options with propagate := true }) :=
    ⟨hg, rfl, rfl⟩
  refine optimize_eq_ok.2 ⟨changed, ?_⟩
  have hstart : Context.start symbolAt options = (Context.start SymbolTable.empty.resolve
      { options with propagate := true }).quiet symbolAt := by
    simp [Context.start, Context.quiet, ← hoff]
  rw [hstart]
  exact hon.optimizeIn_quiet (fun r hr => ⟨trivial, hroot r hr⟩) hsilent symbolAt hrun

/-- Wrong links and a known constant are no exception. -/
theorem optimize_without_propagation_mislinked :
    (⟨true, true, false⟩ : Options).propagate = false ∧
    ∃ t' diagnostics,
      (∀ symbolAt, ∃ c', optimize Sample.mislinked symbolAt ⟨true, true, false⟩ = .ok (t', c') ∧
        c'.diagnostics = diagnostics ∧ c'.lookups = 0) ∧
      ∃ c', optimize Sample.mislinked SymbolTable.empty.resolve ⟨true, true, true⟩ = .ok (t', c') ∧
        c'.diagnostics = diagnostics :=
  ⟨rfl, optimize_without_propagation Sample.mislinked_unshared.acyclic
    Sample.mislinked_unshared.closed (fun r hr => by cases hr; decide) ⟨true, true, false⟩ rfl⟩

end ScriptReduce
