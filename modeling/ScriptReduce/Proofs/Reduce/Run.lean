/-
ScriptReduce.Proofs.Reduce.Run: runs from the root, one and many.

A run visits what the root holds. `foldConstants_presents` says what it comes to
for a tree that hangs together below its root: the same source file with other
statements, all changes below the root, and each of them in the journal. The
default optimizer repeats such runs. What every run keeps holds at its end
(`optimizeIn_keeps`), and it fails only if a run does
(`failsOnly_optimizeIn`).
-/
import ScriptReduce.Proofs.Reduce.Faithful
import ScriptReduce.Reduce.Pipeline

namespace ScriptReduce

open ScriptReduce.Tree

variable {st : Setting} {t t' t₀ : Tree} {c c' : Context} {changed : Bool}

/-! ## 1. One run -/

/-- What a run from the root of a source file comes to. -/
structure Ran (parent : Option NodeId) (T T' : Term NodeId) (news : List Change) (t : Tree)
    (c : Context) (changed : Bool) (t' : Tree) (c' : Context) : Prop
    extends Local T.label (labelsOf T.shape.spots) (labelsOf T'.shape.spots) news t t' where
  label : T'.label = T.label
  presents : t'.Presents parent T'
  follows : c.Follows news c'
  changed_eq : changed = !news.isEmpty
  course : Course ⟨t, c, false⟩ T.label T.shape.spots T'.shape.spots ⟨t', c', changed⟩

theorem Tree.Presents.exists_file {parent : Option NodeId} {T : Term NodeId}
    (h : t.Presents parent T) :
    ∃ statements, t.shape T.label = .ok (.sourceFile statements) ∧
      T.shape.children.map Term.label = statements := by
  obtain ⟨span, hget⟩ := h.shows.get?
  obtain ⟨statements, hs⟩ := Shape.bare_eq_sourceFile.1 h.file
  refine ⟨statements.map Term.label, ?_, ?_⟩
  · rw [shape_of_get? hget, hs]
    rfl
  · rw [hs, Shape.children_sourceFile]

/-- A source file is left alone. -/
theorem stays_of_file {parent : Option NodeId} {T : Term NodeId} (h : t.Presents parent T)
    (site : Bool) : Stays st t site T.label := by
  obtain ⟨_, hfile, _⟩ := h.exists_file
  constructor
  · rintro v ⟨_, s, hshape, hmay⟩
    rw [hfile] at hshape
    cases hshape
    cases hmay
  · rintro v ⟨_, _, _, hshape, _⟩
    rw [hfile] at hshape
    cases hshape

theorem Walk.reduce_of_file {w : Walk} {r : NodeId} {statements : List NodeId}
    (h : w.tree.shape r = .ok (.sourceFile statements)) : w.reduce r = .ok (.unchanged, w) := by
  rw [Walk.reduce, bind_of_ok _ h]
  rfl

/-- A run from a source file visits its statements. -/
theorem foldConstants_of_file {r : NodeId} {statements : List NodeId} (hr : t.root = some r)
    (hs : t.shape r = .ok (.sourceFile statements))
    (h : foldConstants t c = .ok (changed, t', c')) :
    ∃ depth, statements.foldlM (Walk.visitWithin depth) ⟨t, c, false⟩ = .ok ⟨t', c', changed⟩ := by
  rcases foldConstants_eq_ok.1 h with ⟨hnone, -⟩ | ⟨r', hr', hw⟩
  · rw [hr] at hnone
    cases hnone
  obtain rfl := Option.some.inj (hr.symm.trans hr')
  have hfile := Walk.reduce_of_file (w := ⟨t, c, false⟩) hs
  cases hdepth : Walk.depthLimit t with
  | zero =>
    rw [hdepth] at hw
    cases hw
  | succ depth =>
    rw [hdepth] at hw
    cases Walk.visit_succ_iff.1 hw with
    | replaced reduced | removed reduced =>
      rw [hfile] at reduced
      cases reduced
    | unchanged reduced node below =>
      rw [hfile] at reduced
      cases reduced
      rw [shape_of_get? node] at hs
      rw [Except.ok.inj hs, Shape.children_sourceFile] at below
      exact ⟨depth, below⟩

/-- A run of a tree that presents a term. -/
theorem foldConstants_presents (g : Guide st t₀) {parent : Option NodeId} {T : Term NodeId}
    (hset : c.setting = st) (hsize : t₀.size ≤ t.size) (hT : t.Presents parent T)
    (h : foldConstants t c = .ok (changed, t', c')) :
    ∃ T' news, Ran parent T T' news t c changed t' c' ∧
      (g.Inv t → (∀ change ∈ news, g.Safe change) →
        g.Inv t' ∧ ∀ q : Place, Stays st t₀ q.isSite T.label → Reduces st t₀ q T (some T')) := by
  obtain ⟨_, hfile, rfl⟩ := hT.exists_file
  obtain ⟨depth, hw⟩ := foldConstants_of_file hT.root hfile h
  obtain ⟨s', news, hb, hshows, hnodup', hvisited, hcourse, hguide⟩ :=
    visit_below (w := ⟨t, c, false⟩) (visit_held g) hset hsize hT.shows hT.nodup hw
  refine ⟨.mk T.label s', news, ⟨hvisited.toLocal, rfl, ⟨?_, hb.trans hT.file, hshows, hnodup'⟩,
    hvisited.follows, by simpa using hvisited.changed, hcourse⟩, fun hinv hsafe => ?_⟩
  · exact hvisited.root.trans hT.root
  refine hguide hinv (fun n c' a b hn hbranch => ?_) hsafe
  rw [shape_of_get? hn, hbranch] at hfile
  cases hfile

/-! ## 2. Runs of well-formed trees -/

/-- A run of a well-formed tree leaves what its term reduces to, and is
faithful to it, as long as its changes are safe. -/
theorem Tree.WellFormed.ran (h : t.WellFormed) {parent : Option NodeId} {T : Term NodeId}
    (hT : t.Presents parent T) (hrun : foldConstants t c = .ok (changed, t', c')) :
    ∃ T' news, Ran parent T T' news t c changed t' c' ∧
      ((∀ change ∈ news, change.Safe) →
        Faithful c.setting t t' ∧ ∀ q, Reduces c.setting t q T (some T')) := by
  obtain ⟨T', news, hran, hguide⟩ :=
    foldConstants_presents (faithfulGuide c.setting t) rfl (Nat.le_refl _) hT hrun
  refine ⟨T', news, hran, fun hsafe => ?_⟩
  obtain ⟨hfaithful, hred⟩ := hguide (.refl _ h) hsafe
  exact ⟨hfaithful, fun q => hred q (stays_of_file hT q.isSite)⟩

/-- A faithful tree can be run, if symbols name declarations of the tree at
the start. -/
theorem Faithful.exists_foldConstants (hf : Faithful st t₀ t) (hset : c.setting = st)
    {parent : Option NodeId} {T : Term NodeId} (hT : t₀.Presents parent T)
    (hroot : t.root = t₀.root) (hw : st.symbolAt.Within t₀) : ∃ r, foldConstants t c = .ok r := by
  have hongoing : Walk.Ongoing st Everywhere t₀.rank t₀ t c := ⟨hf.graded, hroot, hset⟩
  refine (hongoing.failsOnly_foldConstants st.symbolAt.keeps_everywhere fun r hr => ?_).exists_ok
    fun e he => he.2 hw
  rw [hT.root] at hr
  cases hr
  exact ⟨trivial, hT.shows.lt_size _ T.label_mem_labels⟩

theorem Tree.WellFormed.exists_foldConstants (h : t.WellFormed) (hw : c.symbolAt.Within t) :
    ∃ r, foldConstants t c = .ok r := by
  obtain ⟨parent, T, hT⟩ := h.exists_presents
  exact (Faithful.refl c.setting h).exists_foldConstants rfl hT rfl hw

/-! ## 3. Runs again and again -/

namespace Workspace

variable {μ : Type} {action : Workspace μ → Except Fault (Bool × Workspace μ)}
  {giveUp : Workspace μ → Workspace μ} {I : Workspace μ → Prop}

/-- What every repetition keeps holds in the end. -/
theorem untilStable_keeps
    (hstep : ∀ {ws ws' changed}, I ws → action ws = .ok (changed, ws') → I ws')
    (hgiveUp : ∀ {ws}, I ws → I (giveUp ws)) {limit : Nat} {ws ws' : Workspace μ}
    {changed : Bool} (h : I ws) (hrun : untilStable action giveUp limit ws = .ok (changed, ws')) :
    I ws' := by
  induction limit generalizing ws changed with
  | zero =>
    cases hrun
    exact hgiveUp h
  | succ limit ih =>
    rw [untilStable] at hrun
    obtain ⟨⟨changes, ws₁⟩, h₁, hrun⟩ := bind_eq_ok.1 hrun
    have hI := hstep h h₁
    cases changes with
    | false =>
      cases hrun
      exact hI
    | true =>
      obtain ⟨⟨_, ws₂⟩, h₂, hrun⟩ := bind_eq_ok.1 hrun
      cases hrun
      exact ih hI h₂

/-- An action that reports no change is done once. -/
theorem untilStable_of_idle {ws : Workspace μ} (h : ∀ result, action ws = .ok result →
    result.1 = false) (limit : Nat) : untilStable action giveUp (limit + 1) ws = action ws := by
  rw [untilStable]
  cases hrun : action ws with
  | error e => rfl
  | ok result =>
    obtain ⟨changes, ws'⟩ := result
    obtain rfl : changes = false := h _ hrun
    rfl

theorem failsOnly_untilStable {P : Fault → Prop}
    (hstep : ∀ {ws ws' changed}, I ws → action ws = .ok (changed, ws') → I ws')
    (hfails : ∀ {ws}, I ws → FailsOnly P (action ws)) {limit : Nat} {ws : Workspace μ} (h : I ws) :
    FailsOnly P (untilStable action giveUp limit ws) := by
  induction limit generalizing ws with
  | zero => exact .ok _
  | succ limit ih =>
    rw [untilStable]
    refine .bind (hfails h) fun ⟨changes, ws₁⟩ h₁ => ?_
    simp only
    split
    · exact .bind (ih (hstep h h₁)) fun _ _ => .ok _
    · exact .ok _

/-- A group of one pass that folds constants folds them once in each
iteration. -/
theorem inOrder_folding (ws : Workspace Unit) :
    inOrder [foldingPass.run] ws = (do
      let (changed, tree, context) ← foldConstants ws.tree ws.context
      return (changed, { ws with tree, context })) := by
  unfold inOrder foldingPass
  simp only [List.foldlM_cons, List.foldlM_nil, bind_assoc, pure_bind, Bool.false_or, bind_pure]

end Workspace

theorem optimizeIn_eq (t : Tree) (c : Context) :
    optimizeIn t c = (do
      let (changed, ws) ← Workspace.untilStable (Workspace.inOrder [foldingPass.run])
        (Workspace.warnUnstable "root")
        Workspace.iterationLimit ⟨t, c, ()⟩
      return (changed, ws.tree, ws.context)) := rfl

theorem inOrder_folding_idle
    (h : ∀ {changed t' c'}, foldConstants t c = .ok (changed, t', c') → changed = false) :
    ∀ result, Workspace.inOrder [foldingPass.run] (⟨t, c, ()⟩ : Workspace Unit) = .ok result →
      result.1 = false := by
  intro result hresult
  rw [Workspace.inOrder_folding] at hresult
  obtain ⟨⟨changed, t', c'⟩, hrun, hresult⟩ := bind_eq_ok.1 hresult
  cases hresult
  exact h hrun

/-- An idle run is the only one. -/
theorem optimizeIn_of_idle
    (h : ∀ {changed t' c'}, foldConstants t c = .ok (changed, t', c') → changed = false) :
    optimizeIn t c = foldConstants t c := by
  rw [optimizeIn_eq, show Workspace.iterationLimit = 9 + 1 from rfl,
    Workspace.untilStable_of_idle (inOrder_folding_idle h), Workspace.inOrder_folding]
  cases foldConstants t c <;> rfl

/-- If the second run is idle, it is the last. -/
theorem optimizeIn_of_idle_second (hrun : foldConstants t c = .ok (changed, t', c'))
    (h : ∀ {changed t'' c''}, foldConstants t' c' = .ok (changed, t'', c'') → changed = false) :
    optimizeIn t c = if changed then do
        let (_, t'', c'') ← foldConstants t' c'
        return (true, t'', c'')
      else return (false, t', c') := by
  have hfirst : Workspace.inOrder [foldingPass.run] (⟨t, c, ()⟩ : Workspace Unit)
      = .ok (changed, ⟨t', c', ()⟩) := by
    rw [Workspace.inOrder_folding, hrun]
    rfl
  rw [optimizeIn_eq, show Workspace.iterationLimit = 8 + 1 + 1 from rfl, Workspace.untilStable,
    bind_of_ok _ hfirst]
  cases changed with
  | false => rfl
  | true =>
    simp only [if_true]
    rw [Workspace.untilStable_of_idle (inOrder_folding_idle h), Workspace.inOrder_folding]
    cases foldConstants t' c' <;> rfl

section

variable {I : Tree → Context → Prop}

theorem inOrder_folding_keeps
    (hstep : ∀ {t t' c c' changed}, I t c → foldConstants t c = .ok (changed, t', c') → I t' c')
    {ws ws' : Workspace Unit} (h : I ws.tree ws.context)
    (hrun : Workspace.inOrder [foldingPass.run] ws = .ok (changed, ws')) :
    I ws'.tree ws'.context := by
  rw [Workspace.inOrder_folding] at hrun
  obtain ⟨⟨changes, t', c'⟩, h', hrun⟩ := bind_eq_ok.1 hrun
  cases hrun
  exact hstep h h'

/-- What every run keeps, the default optimizer keeps. -/
theorem optimizeIn_keeps
    (hstep : ∀ {t t' c c' changed}, I t c → foldConstants t c = .ok (changed, t', c') → I t' c')
    (hwarn : ∀ {t c} warning, I t c → I t (c.warn warning)) (h : I t c)
    (hrun : optimizeIn t c = .ok (changed, t', c')) : I t' c' := by
  rw [optimizeIn_eq] at hrun
  obtain ⟨⟨changes, ws⟩, hws, hrun⟩ := bind_eq_ok.1 hrun
  cases hrun
  have hgiveUp : ∀ {ws : Workspace Unit}, I ws.tree ws.context →
      I (ws.warnUnstable "root").tree (ws.warnUnstable "root").context := fun h => hwarn _ h
  exact Workspace.untilStable_keeps (I := fun ws => I ws.tree ws.context)
    (inOrder_folding_keeps hstep) hgiveUp h hws

/-- The default optimizer fails in the ways in which a run fails. -/
theorem failsOnly_optimizeIn {P : Fault → Prop}
    (hstep : ∀ {t t' c c' changed}, I t c → foldConstants t c = .ok (changed, t', c') → I t' c')
    (hfails : ∀ {t c}, I t c → FailsOnly P (foldConstants t c)) (h : I t c) :
    FailsOnly P (optimizeIn t c) := by
  rw [optimizeIn_eq]
  have honce : ∀ {ws : Workspace Unit}, I ws.tree ws.context →
      FailsOnly P (Workspace.inOrder [foldingPass.run] ws) := by
    intro ws hws
    rw [Workspace.inOrder_folding]
    exact .bind (hfails hws) fun _ _ => .ok _
  refine .bind ?_ fun _ _ => .ok _
  exact Workspace.failsOnly_untilStable (I := fun ws => I ws.tree ws.context)
    (inOrder_folding_keeps hstep) honce h

end

/-- In a graded domain that symbols do not lead out of, the default optimizer
gives a result, unless a symbol names a declaration that is no node of the
tree. -/
theorem Walk.Ongoing.failsOnly_optimizeIn {D : NodeId → Prop} {rank : NodeId → Nat}
    (h : Walk.Ongoing st D rank t₀ t c) (hk : st.symbolAt.Keeps D)
    (hroot : ∀ r, t₀.root = some r → t₀.Inside D r) :
    FailsOnly (Walk.Astray st t₀) (optimizeIn t c) :=
  ScriptReduce.failsOnly_optimizeIn (fun h hrun => h.foldConstants hroot hrun)
    (fun h => h.failsOnly_foldConstants hk hroot) h

theorem optimize_eq_ok {symbolAt : Resolver} {options : Options} :
    optimize t symbolAt options = .ok (t', c') ↔
      ∃ changed, optimizeIn t (Context.start symbolAt options) = .ok (changed, t', c') := by
  unfold optimize
  rw [bind_eq_ok]
  constructor
  · rintro ⟨⟨changed, t₁, c₁⟩, h, h'⟩
    cases h'
    exact ⟨changed, h⟩
  · rintro ⟨changed, h⟩
    exact ⟨_, h, rfl⟩

/-- A graded tree is optimized, if symbols name declarations of the tree. -/
theorem Tree.Graded.exists_optimize {rank : NodeId → Nat} (h : t.Graded Everywhere rank t.size)
    (hroot : ∀ r, t.root = some r → r.index < t.size) (hw : symbolAt.Within t)
    (options : Options) : ∃ t' c', optimize t symbolAt options = .ok (t', c') := by
  have hongoing : Walk.Ongoing ⟨symbolAt, options⟩ Everywhere rank t t
      (.start symbolAt options) := ⟨h, rfl, rfl⟩
  have hfails := hongoing.failsOnly_optimizeIn symbolAt.keeps_everywhere
    fun r hr => ⟨trivial, hroot r hr⟩
  obtain ⟨⟨changed, t', c'⟩, hrun⟩ := hfails.exists_ok fun e he => he.2 hw
  exact ⟨t', c', optimize_eq_ok.2 ⟨changed, hrun⟩⟩

/-- A well-formed tree is optimized, if symbols name declarations of the
tree. -/
theorem Tree.WellFormed.exists_optimize (h : t.WellFormed) (hw : symbolAt.Within t)
    (options : Options) : ∃ t' c', optimize t symbolAt options = .ok (t', c') :=
  h.graded.exists_optimize (fun _ hr => (inside_of_root h.root hr).2) hw options

/-! ## 4. A program with something to reduce -/

namespace Sample

/-- The program `const a = 1 < 2; if (a) f(a);`. -/
def tree : Tree where
  nodes := #[
    ⟨.identifier "a", some ⟨4⟩, none⟩,
    ⟨.literal (.numeric "1"), some ⟨3⟩, none⟩,
    ⟨.literal (.numeric "2"), some ⟨3⟩, none⟩,
    ⟨.binary ⟨1⟩ .less ⟨2⟩, some ⟨4⟩, none⟩,
    ⟨.declaration ⟨0⟩ (some ⟨3⟩), some ⟨5⟩, none⟩,
    ⟨.declarationList .constant [⟨4⟩], some ⟨6⟩, none⟩,
    ⟨.variableStatement ⟨5⟩, some ⟨13⟩, none⟩,
    ⟨.identifier "a", some ⟨12⟩, none⟩,
    ⟨.identifier "f", some ⟨10⟩, none⟩,
    ⟨.identifier "a", some ⟨10⟩, none⟩,
    ⟨.call ⟨8⟩ [⟨9⟩], some ⟨11⟩, none⟩,
    ⟨.expressionStatement ⟨10⟩, some ⟨12⟩, none⟩,
    ⟨.branch ⟨7⟩ ⟨11⟩ none, some ⟨13⟩, none⟩,
    ⟨.sourceFile [⟨6⟩, ⟨12⟩], none, none⟩]
  root := some ⟨13⟩

/-- The uses of its constant. -/
def symbols : SymbolTable where
  symbols := #[⟨⟨0⟩, "a", .constant, some ⟨4⟩⟩]
  resolutions := [(⟨7⟩, ⟨0⟩), (⟨9⟩, ⟨0⟩)]

/-- Everything is allowed. -/
def options : Options := ⟨true, true, true⟩

theorem tree_wellFormed : tree.WellFormed :=
  Built.wellFormed ⟨by decide +kernel, by decide +kernel, by decide +kernel, by decide +kernel,
    by decide +kernel, by decide +kernel⟩

theorem declaration_eq {x d : NodeId} {symbol : Symbol} (h : symbols.resolve x = some symbol)
    (hd : symbol.declaration = some d) : d = ⟨4⟩ := by
  have hmem := SymbolTable.mem_of_resolve h
  simp only [symbols, Array.mem_singleton] at hmem
  rw [hmem] at hd
  exact (Option.some.inj hd).symm

theorem symbols_within_of_lt {t : Tree} (ht : 4 < t.size) : symbols.resolve.Within t := by
  intro x symbol d h hd
  rw [declaration_eq h hd]
  exact ht

theorem symbols_within : symbols.resolve.Within tree := symbols_within_of_lt (by decide)

/-- A run of the program folds no negative zero. -/
theorem foldConstants_safe (h : foldConstants tree (.start symbols.resolve options)
    = .ok (changed, t', c')) : ∀ change ∈ c'.changes, change.Safe := by
  have hsafe : (foldConstants tree (.start symbols.resolve options)).map
      (fun result => decide (∀ change ∈ result.2.2.changes, change.Safe)) = .ok true := by
    decide +kernel
  rw [h] at hsafe
  exact of_decide_eq_true (Except.ok.inj hsafe)

theorem optimize_safe (h : optimize tree symbols.resolve options = .ok (t', c')) :
    ∀ change ∈ c'.changes, change.Safe := by
  have hsafe : (optimize tree symbols.resolve options).map
      (fun result => decide (∀ change ∈ result.2.changes, change.Safe)) = .ok true := by
    decide +kernel
  rw [h] at hsafe
  exact of_decide_eq_true (Except.ok.inj hsafe)

end Sample

end ScriptReduce
