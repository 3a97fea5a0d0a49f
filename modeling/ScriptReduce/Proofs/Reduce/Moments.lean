/-
ScriptReduce.Proofs.Reduce.Moments: what a run goes through.

A run changes the tree while it walks through it. `Comes` describes the walk
from within: its moments are those at which it comes to a node, each with the
tree as it is then. There is one way on for each way in which the walk goes
on: to the next node, to the children of a node that is left alone, and to
what has taken a node's place. A walk has its moments whether or not it comes
to an end. An optimization consists of runs (`Runs`), the last of which tells
whether it ended on its own or was stopped (`LastRun`).

`optimize_terminates` says that it does, for any tree in which no node is
below itself. Nothing is asked of parent links but that they lead to nodes,
nodes may be shared, and constants may refer to themselves. The ranks of the
start serve throughout, so no node is ever below itself, and at every moment
every node can be evaluated.
-/
import ScriptReduce.Proofs.Reduce.Run

namespace ScriptReduce

open ScriptReduce.Tree

variable {t t' t₀ t₁ : Tree} {c c' c₁ : Context}

/-! ## 1. Moments -/

namespace Walk

/-- A walk that goes through a list of nodes comes to a node. -/
inductive Comes : Walk → List NodeId → Walk → NodeId → Prop where
  | here {w : Walk} {x : NodeId} {xs : List NodeId} : Comes w (x :: xs) w x
  /-- The first node has been visited. -/
  | later {w w₁ w' : Walk} {x y : NodeId} {xs : List NodeId} {depth : Nat}
    (visited : visitWithin depth w x = .ok w₁) (comes : Comes w₁ xs w' y) :
    Comes w (x :: xs) w' y
  /-- The first node is left alone. -/
  | downward {w w₁ w' : Walk} {x y : NodeId} {xs children : List NodeId}
    (reduced : w.reduce x = .ok (.unchanged, w₁)) (holds : w₁.tree.children x = .ok children)
    (comes : Comes w₁ children w' y) : Comes w (x :: xs) w' y
  /-- Another node has taken the place of the first. -/
  | onward {w w₁ w' : Walk} {x y new : NodeId} {xs : List NodeId}
    (reduced : w.reduce x = .ok (.replaced new, w₁))
    (comes : Comes { w₁ with changed := true } [new] w' y) : Comes w (x :: xs) w' y

end Walk

/-- The moments of a run of the pass. -/
def Moment (t : Tree) (c : Context) (w : Walk) (x : NodeId) : Prop :=
  ∃ r, t.root = some r ∧ Walk.Comes ⟨t, c, false⟩ [r] w x

/-- What runs of the pass, one after another, make of a tree. -/
inductive Runs (t : Tree) (c : Context) : Tree → Context → Prop where
  | start : Runs t c t c
  | again {t₁ t' : Tree} {c₁ c' : Context} {changed : Bool} (runs : Runs t c t₁ c₁)
    (run : foldConstants t₁ c₁ = .ok (changed, t', c')) : Runs t c t' c'

/-! ## 2. The last run -/

namespace Workspace

variable {μ : Type} {action : Workspace μ → Except Fault (Bool × Workspace μ)}
  {giveUp : Workspace μ → Workspace μ} {I : Workspace μ → Prop}

/-- Repetitions have a last one. What comes before it is given up on if it still
reports a change. -/
theorem untilStable_last
    (hstep : ∀ {ws ws' changed}, I ws → action ws = .ok (changed, ws') → I ws') {limit : Nat}
    {ws ws' : Workspace μ} {changed : Bool} (h : I ws)
    (hrun : untilStable action giveUp (limit + 1) ws = .ok (changed, ws')) :
    ∃ ws₁ last ws₂, I ws₁ ∧ action ws₁ = .ok (last, ws₂) ∧
      ws' = if last then giveUp ws₂ else ws₂ := by
  induction limit generalizing ws changed with
  | zero =>
    rw [untilStable] at hrun
    obtain ⟨⟨last, ws₂⟩, h₂, hrun⟩ := bind_eq_ok.1 hrun
    refine ⟨ws, last, ws₂, h, h₂, ?_⟩
    cases last <;>
      · cases hrun
        rfl
  | succ limit ih =>
    rw [untilStable] at hrun
    obtain ⟨⟨last, ws₂⟩, h₂, hrun⟩ := bind_eq_ok.1 hrun
    cases last with
    | false =>
      cases hrun
      exact ⟨ws, false, _, h, h₂, rfl⟩
    | true =>
      obtain ⟨⟨_, ws₃⟩, h₃, hrun⟩ := bind_eq_ok.1 hrun
      cases hrun
      exact ih (hstep h h₂) h₃

end Workspace

/-- How an optimization ends: with a last iteration and what that reported. If it
reported a change there was no iteration left, and this is warned of. -/
def LastRun (t : Tree) (c : Context) (changed : Bool) (t' : Tree) (c' : Context) : Prop :=
  ∃ t₁ c₁ c₂, Runs t c t₁ c₁ ∧ foldConstants t₁ c₁ = .ok (changed, t', c₂) ∧
    c' = if changed then c₂.warn (.unstable "root" Workspace.iterationLimit) else c₂

theorem optimize_lastRun {symbolAt : Resolver} {options : Options}
    (h : optimize t symbolAt options = .ok (t', c')) :
    ∃ changed, LastRun t (.start symbolAt options) changed t' c' := by
  obtain ⟨changes, hrun⟩ := optimize_eq_ok.1 h
  rw [optimizeIn_eq] at hrun
  obtain ⟨⟨changed, ws⟩, hws, hrun⟩ := bind_eq_ok.1 hrun
  cases hrun
  have hiterate : ∀ {ws ws' : Workspace Unit} {changed : Bool},
      Workspace.inOrder [foldingPass.run] ws = .ok (changed, ws') →
      foldConstants ws.tree ws.context = .ok (changed, ws'.tree, ws'.context) := by
    intro ws ws' changed hiteration
    rw [Workspace.inOrder_folding] at hiteration
    obtain ⟨⟨changes, u, d⟩, hrun, hiteration⟩ := bind_eq_ok.1 hiteration
    cases hiteration
    exact hrun
  obtain ⟨ws₁, last, ws₂, hruns, hlast, hend⟩ := Workspace.untilStable_last
    (I := fun ws => Runs t (.start symbolAt options) ws.tree ws.context)
    (fun hruns hiteration => hruns.again (hiterate hiteration)) .start hws
  refine ⟨last, ws₁.tree, ws₁.context, ws₂.context, hruns, ?_, ?_⟩
  · rw [hiterate hlast, hend]
    cases last <;> rfl
  · rw [hend]
    cases last <;> rfl

/-- Without that warning, the last iteration reported no change. -/
theorem LastRun.idle {changed : Bool} (h : LastRun t c changed t' c')
    (hw : .unstable "root" Workspace.iterationLimit ∉ c'.warnings) : changed = false := by
  obtain ⟨_, _, c₂, _, _, rfl⟩ := h
  cases changed with
  | false => rfl
  | true => exact absurd (List.mem_append_right _ (List.mem_singleton.2 rfl)) hw

/-! ## 3. What holds throughout -/

variable {st : Setting} {D : NodeId → Prop} {rank : NodeId → Nat}

namespace Walk.Ongoing

/-- At every moment of a walk its grades are kept, and its tree has grown. -/
theorem comes {w w' : Walk} {xs : List NodeId} {y : NodeId} (h : Comes w xs w' y) :
    Ongoing st D rank t₀ w.tree w.context → (∀ x ∈ xs, w.tree.Inside D x) →
      Onward st D rank t₀ w w' ∧ w'.tree.Inside D y := by
  induction h with
  | @here w x xs =>
    intro hon hxs
    exact ⟨⟨hon, .refl _⟩, hxs x List.mem_cons_self⟩
  | @later w w₁ w' x y xs depth visited _ ih =>
    intro hon hxs
    have hon₁ := hon.visit (hxs x List.mem_cons_self) visited
    obtain ⟨hon', hy⟩ :=
      ih hon₁.1 fun z hz => (hxs z (List.mem_cons_of_mem x hz)).mono hon₁.2.size
    exact ⟨hon₁.trans hon', hy⟩
  | @downward w w₁ w' x y xs children reduced holds _ ih =>
    intro hon hxs
    have hx := hxs x List.mem_cons_self
    obtain ⟨hon₁, _⟩ := hon.reduce hx reduced
    obtain ⟨n, hn, rfl⟩ := children_eq_ok.1 holds
    obtain ⟨hon', hy⟩ := ih hon₁.1 fun z hz => hon₁.1.graded.children x z hx.1 ⟨n, hn, hz⟩
    exact ⟨hon₁.trans hon', hy⟩
  | @onward w w₁ w' x y new xs reduced _ ih =>
    intro hon hxs
    obtain ⟨hon₁, hlow⟩ := hon.reduce (hxs x List.mem_cons_self) reduced
    obtain ⟨hon', hy⟩ := ih hon₁.1 fun z hz => by
      rw [List.mem_singleton.1 hz]
      exact (hlow new rfl).1
    exact ⟨Onward.trans hon₁ hon', hy⟩

theorem moment (h : Ongoing st D rank t₀ t c) (hroot : ∀ r, t₀.root = some r → t₀.Inside D r)
    {w : Walk} {x : NodeId} (hw : Moment t c w x) :
    Ongoing st D rank t₀ w.tree w.context ∧ t.Grows w.tree := by
  obtain ⟨r, hr, hcomes⟩ := hw
  have hinside := (hroot r (h.root ▸ hr)).mono h.graded.limit_le
  exact (comes hcomes h fun z hz => List.mem_singleton.1 hz ▸ hinside).1

theorem runs (h : Ongoing st D rank t₀ t c) (hroot : ∀ r, t₀.root = some r → t₀.Inside D r)
    (hruns : Runs t c t₁ c₁) : Ongoing st D rank t₀ t₁ c₁ := by
  induction hruns with
  | start => exact h
  | again _ run ih => exact ih.foldConstants hroot run

theorem optimizeIn (h : Ongoing st D rank t₀ t c) (hroot : ∀ r, t₀.root = some r → t₀.Inside D r)
    {changed : Bool} (hrun : optimizeIn t c = .ok (changed, t', c')) :
    Ongoing st D rank t₀ t' c' :=
  optimizeIn_keeps (fun h hrun => h.foldConstants hroot hrun)
    (fun _ h => ⟨h.graded, h.root, h.setting⟩) h hrun

end Walk.Ongoing

/-! ## 4. Termination -/

/-- No node is below itself, and every node can be evaluated and taken as an
identifier, whether or not identifiers are looked through. -/
structure Tree.Tame (t : Tree) (symbolAt : Resolver) : Prop where
  acyclic : t.Acyclic
  evaluates : ∀ x, x.index < t.size → ∀ propagate,
    ∃ o, (⟨t, symbolAt, propagate⟩ : Evaluator).evaluate x = .ok o
  resolves : ∀ x, x.index < t.size → ∀ propagate,
    ∃ o, (⟨t, symbolAt, propagate⟩ : Evaluator).resolve x = .ok o

theorem Tree.Graded.tame {limit : Nat} {symbolAt : Resolver}
    (h : t.Graded Everywhere rank limit) (hw : symbolAt.Within t) : t.Tame symbolAt where
  acyclic := h.acyclic
  evaluates _ hx _ := FailsOnly.exists_ok
    (Evaluator.failsOnly_evaluate h symbolAt.keeps_everywhere ⟨trivial, hx⟩) fun _ he => he.2 hw
  resolves _ hx _ := FailsOnly.exists_ok
    (Evaluator.failsOnly_resolve h symbolAt.keeps_everywhere ⟨trivial, hx⟩) fun _ he => he.2 hw

/-- Where no node is below itself, everything comes to an end: runs of the pass,
each of the evaluations that could be made at any moment of them, and the whole
optimization. No node gets below itself on the way. -/
theorem optimize_terminates (ha : t.Acyclic) (hc : t.Closed Everywhere)
    (hroot : ∀ r, t.root = some r → r.index < t.size) (hw : c.symbolAt.Within t) :
    (∀ t₁ c₁, Runs t c t₁ c₁ → t₁.Tame c.symbolAt ∧
      (∃ result, foldConstants t₁ c₁ = .ok result) ∧
      ∀ w x, Moment t₁ c₁ w x → w.tree.Tame c.symbolAt) ∧
    ∃ t' c', optimize t c.symbolAt c.options = .ok (t', c') ∧ t'.Tame c.symbolAt := by
  have hinside : ∀ r, t.root = some r → t.Inside Everywhere r := fun r hr => ⟨trivial, hroot r hr⟩
  have htame : ∀ {u : Tree} {d : Context},
      Walk.Ongoing c.setting Everywhere t.rank t u d → u.Tame c.symbolAt := fun h =>
    h.graded.tame (hw.mono h.graded.limit_le)
  constructor
  · intro t₁ c₁ hruns
    have hon : Walk.Ongoing c.setting Everywhere t.rank t t c := ⟨ha.graded hc, rfl, rfl⟩
    have hon₁ := hon.runs hinside hruns
    have hfails := hon₁.failsOnly_foldConstants c.symbolAt.keeps_everywhere hinside
    exact ⟨htame hon₁, hfails.exists_ok fun e he => he.2 hw,
      fun w x hmoment => htame (hon₁.moment hinside hmoment).1⟩
  · have hon : Walk.Ongoing c.setting Everywhere t.rank t t (.start c.symbolAt c.options) :=
      ⟨ha.graded hc, rfl, rfl⟩
    have hfails := hon.failsOnly_optimizeIn c.symbolAt.keeps_everywhere hinside
    obtain ⟨⟨changed, t', c'⟩, hrun⟩ := hfails.exists_ok fun e he => he.2 hw
    exact ⟨t', c', optimize_eq_ok.2 ⟨changed, hrun⟩, htame (hon.optimizeIn hinside hrun)⟩

namespace Sample

/-- The program `const a = a + a; if (a) ; if (a) ;` as nobody should build
it: all uses of the constant are one node, both `if` statements are another,
and some parent links are missing or wrong. -/
def shared : Tree where
  nodes := #[
    ⟨.identifier "a", some ⟨6⟩, none⟩,
    ⟨.identifier "a", some ⟨2⟩, none⟩,
    ⟨.binary ⟨1⟩ .plus ⟨1⟩, none, none⟩,
    ⟨.declaration ⟨0⟩ (some ⟨2⟩), some ⟨4⟩, none⟩,
    ⟨.declarationList .constant [⟨3⟩], some ⟨4⟩, none⟩,
    ⟨.emptyStatement, some ⟨6⟩, none⟩,
    ⟨.branch ⟨1⟩ ⟨5⟩ none, some ⟨8⟩, none⟩,
    ⟨.variableStatement ⟨4⟩, none, none⟩,
    ⟨.sourceFile [⟨7⟩, ⟨6⟩, ⟨6⟩], some ⟨1⟩, none⟩]
  root := some ⟨8⟩

/-- The constant refers to itself. -/
def circular : SymbolTable where
  symbols := #[⟨⟨0⟩, "a", .constant, some ⟨3⟩⟩]
  resolutions := [(⟨1⟩, ⟨0⟩)]

theorem shared_layered : shared.Layered := ⟨by decide +kernel, by decide +kernel⟩

theorem circular_within : circular.resolve.Within shared := by
  intro x symbol d h hd
  have hmem := SymbolTable.mem_of_resolve h
  simp only [circular, Array.mem_singleton] at hmem
  rw [hmem] at hd
  cases hd
  decide

end Sample

theorem optimize_terminates_sample :
    (∀ t₁ c₁, Runs Sample.shared (.start Sample.circular.resolve Sample.options) t₁ c₁ →
      t₁.Tame Sample.circular.resolve ∧ (∃ result, foldConstants t₁ c₁ = .ok result) ∧
      ∀ w x, Moment t₁ c₁ w x → w.tree.Tame Sample.circular.resolve) ∧
    ∃ t' c', optimize Sample.shared Sample.circular.resolve Sample.options = .ok (t', c') ∧
      t'.Tame Sample.circular.resolve :=
  optimize_terminates (c := .start Sample.circular.resolve Sample.options)
    Sample.shared_layered.acyclic Sample.shared_layered.closed
    (fun r hr => by cases hr; decide) Sample.circular_within

end ScriptReduce
