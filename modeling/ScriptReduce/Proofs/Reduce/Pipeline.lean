/-
ScriptReduce.Proofs.Reduce.Pipeline: what a pipeline of passes does.

`Performs` says which calls of passes the run of a stage consists of, whatever
the passes are: a group runs all its stages in order, in each of its
iterations; it stops after the first iteration in which no call reported a
change, or after ten; and it warns if even the last one reported a change. The
flags that groups hand on to each other are not mentioned, only the calls of
passes at the leaves. So what an inner group reports, and where its own bound
has cut it off, counts in the outer group as the reports of the calls that were
made in it.

`optimize_performs` says that a pipeline does this and nothing else, after it
has prepared each of its passes once. The proof is an induction on the tree of
stages; for the repetitions of a group it is one on the number of iterations
that are left.
-/
import ScriptReduce.Proofs.Tree.Edit
import ScriptReduce.Reduce.Pipeline

namespace ScriptReduce

variable {μ : Type}

/-! ## 1. Calls of passes -/

/-- A call of a pass: what it found, what it left, and what it reported. -/
structure Call (μ : Type) where
  pass : Pass μ
  found : Workspace μ
  left : Workspace μ
  changed : Bool

/-- Whether any of some calls reported a change. -/
def anyChanged (calls : List (Call μ)) : Bool := calls.any Call.changed

@[simp] theorem anyChanged_append (calls more : List (Call μ)) :
    anyChanged (calls ++ more) = (anyChanged calls || anyChanged more) :=
  List.any_append

theorem anyChanged_flatten (iterations : List (List (Call μ))) :
    anyChanged iterations.flatten = iterations.any anyChanged := by
  induction iterations with
  | nil => rfl
  | cons calls iterations ih => rw [List.flatten_cons, anyChanged_append, ih, List.any_cons]

/-- The number of the first iteration in which no call reported a change; it is
one more than there are iterations if each of them reported one. -/
def firstQuiet (iterations : List (List (Call μ))) : Nat :=
  iterations.findIdx (fun calls => !anyChanged calls) + 1

theorem firstQuiet_cons (calls : List (Call μ)) (iterations : List (List (Call μ))) :
    firstQuiet (calls :: iterations) =
      if anyChanged calls then firstQuiet iterations + 1 else 1 := by
  unfold firstQuiet
  rw [List.findIdx_cons]
  cases anyChanged calls <;> rfl

namespace Stage

/-! ## 2. What a stage does -/

mutual

/-- The passes of a stage, depth first. -/
def passes : Stage μ → List (Pass μ)
  | .pass p => [p]
  | .group _ stages => passesAll stages

def passesAll : List (Stage μ) → List (Pass μ)
  | [] => []
  | stage :: more => stage.passes ++ passesAll more

end

mutual

/-- The calls that the run of a stage consists of, with what it finds and what
it leaves. -/
inductive Performs : Stage μ → Workspace μ → List (Call μ) → Workspace μ → Prop where
  /-- A pass is called once. -/
  | pass {p : Pass μ} {ws ws' : Workspace μ} {changed : Bool}
    (run : p.run ws = .ok (changed, ws')) :
    Performs (.pass p) ws [⟨p, ws, ws', changed⟩] ws'
  /-- A group stops after its first quiet iteration or at its bound. In the end it
  warns if it never was quiet. -/
  | group {name : String} {stages : List (Stage μ)} {ws last : Workspace μ}
    {iterations : List (List (Call μ))} (iterates : Iterates stages ws iterations last)
    (count : iterations.length = min Workspace.iterationLimit (firstQuiet iterations)) :
    Performs (.group name stages) ws iterations.flatten
      (if iterations.all anyChanged then last.warnUnstable name else last)

/-- Iterations of a group, each with its calls. -/
inductive Iterates : List (Stage μ) → Workspace μ → List (List (Call μ)) → Workspace μ → Prop where
  | done {stages : List (Stage μ)} {ws : Workspace μ} : Iterates stages ws [] ws
  | again {stages : List (Stage μ)} {ws ws₁ ws' : Workspace μ} {calls : List (Call μ)}
    {iterations : List (List (Call μ))} (once : PerformsAll stages ws calls ws₁)
    (more : Iterates stages ws₁ iterations ws') : Iterates stages ws (calls :: iterations) ws'

/-- One iteration: all stages run in order, whatever they report. -/
inductive PerformsAll : List (Stage μ) → Workspace μ → List (Call μ) → Workspace μ → Prop where
  | nil {ws : Workspace μ} : PerformsAll [] ws [] ws
  | cons {stage : Stage μ} {stages : List (Stage μ)} {ws ws₁ ws' : Workspace μ}
    {calls more : List (Call μ)} (first : Performs stage ws calls ws₁)
    (rest : PerformsAll stages ws₁ more ws') : PerformsAll (stage :: stages) ws (calls ++ more) ws'

end

/-! ## 3. Preparation -/

mutual

/-- Preparation goes through the passes, depth first, and calls each once. -/
theorem prepare_eq (stage : Stage μ) (c : Context) (m : μ) :
    stage.prepare c m = stage.passes.foldl (fun s p => p.prepare s.1 s.2) (c, m) := by
  cases stage with
  | pass p => rfl
  | group name stages =>
    rw [prepare, passes]
    exact prepareAll_eq stages c m

theorem prepareAll_eq (stages : List (Stage μ)) (c : Context) (m : μ) :
    prepareAll stages c m = (passesAll stages).foldl (fun s p => p.prepare s.1 s.2) (c, m) := by
  cases stages with
  | nil => rfl
  | cons stage more =>
    rw [prepareAll, passesAll, List.foldl_append, prepare_eq stage c m]
    exact prepareAll_eq more _ _

end

/-! ## 4. Runs -/

end Stage

namespace Workspace

variable {action : Workspace μ → Except Fault (Bool × Workspace μ)}
  {actions : List (Workspace μ → Except Fault (Bool × Workspace μ))}
  {giveUp : Workspace μ → Workspace μ} {ws ws' : Workspace μ} {changed : Bool}

/-- The first of some actions is done, and then the others. -/
theorem inOrder_cons (action : Workspace μ → Except Fault (Bool × Workspace μ))
    (actions : List (Workspace μ → Except Fault (Bool × Workspace μ))) (ws : Workspace μ) :
    inOrder (action :: actions) ws = (do
      let (changes, ws₁) ← action ws
      let (others, ws') ← inOrder actions ws₁
      return (changes || others, ws')) := by
  -- the flag that is passed along only adds to what is reported in the end
  have hflag : ∀ (actions : List (Workspace μ → Except Fault (Bool × Workspace μ)))
      (flag : Bool) (ws : Workspace μ),
      actions.foldlM (fun (changed, ws) action => do
        let (changes, ws) ← action ws
        return (changed || changes, ws)) (flag, ws) = (do
      let (others, ws') ← inOrder actions ws
      return (flag || others, ws')) := by
    intro actions
    induction actions with
    | nil =>
      intro flag ws
      simp [inOrder]
    | cons action actions ih =>
      intro flag ws
      unfold inOrder
      simp only [List.foldlM_cons, bind_assoc, pure_bind, Bool.false_or]
      refine bind_congr fun result => ?_
      rw [ih, ih, bind_assoc]
      refine bind_congr fun others => ?_
      simp [Bool.or_assoc]
  rw [inOrder, List.foldlM_cons, bind_assoc]
  refine bind_congr fun result => ?_
  rw [pure_bind, hflag]
  simp

end Workspace

namespace Stage

variable {ws ws' : Workspace μ} {changed : Bool}

/-- Repetitions of a group are iterations that stop after a quiet one or at the
bound. The induction is on the bound. -/
theorem untilStable_iterates {stages : List (Stage μ)}
    (honce : ∀ ws changed ws', Workspace.inOrder (runAll stages) ws = .ok (changed, ws') ↔
      ∃ calls, PerformsAll stages ws calls ws' ∧ changed = anyChanged calls)
    (giveUp : Workspace μ → Workspace μ) (limit : Nat) : ∀ ws changed ws',
    Workspace.untilStable (Workspace.inOrder (runAll stages)) giveUp limit ws
        = .ok (changed, ws') ↔
      ∃ iterations last, Iterates stages ws iterations last ∧
        iterations.length = min limit (firstQuiet iterations) ∧
        ws' = (if iterations.all anyChanged then giveUp last else last) ∧
        changed = iterations.any anyChanged := by
  induction limit with
  | zero =>
    intro ws changed ws'
    constructor
    · intro h
      cases h
      exact ⟨[], ws, .done, by simp, rfl, rfl⟩
    · rintro ⟨iterations, last, hiterates, hcount, rfl, rfl⟩
      obtain rfl : iterations = [] := List.length_eq_zero_iff.1 (by omega)
      cases hiterates
      rfl
  | succ limit ih =>
    intro ws changed ws'
    rw [Workspace.untilStable]
    constructor
    · intro h
      obtain ⟨⟨changes, ws₁⟩, h₁, h⟩ := bind_eq_ok.1 h
      obtain ⟨calls, hcalls, rfl⟩ := (honce _ _ _).1 h₁
      cases hchanged : anyChanged calls with
      | false =>
        rw [hchanged] at h
        cases h
        exact ⟨[calls], ws', .again hcalls .done, by simp [firstQuiet_cons, hchanged],
          by simp [hchanged], by simp [hchanged]⟩
      | true =>
        rw [hchanged] at h
        obtain ⟨⟨others, ws₂⟩, h₂, h⟩ := bind_eq_ok.1 h
        cases h
        obtain ⟨iterations, last, hiterates, hcount, rfl, -⟩ := (ih _ _ _).1 h₂
        refine ⟨calls :: iterations, last, .again hcalls hiterates, ?_, by simp [hchanged],
          by simp [hchanged]⟩
        simp only [List.length_cons, firstQuiet_cons, hchanged, if_true]
        omega
    · rintro ⟨iterations, last, hiterates, hcount, rfl, rfl⟩
      cases hiterates with
      | done => simp [firstQuiet] at hcount
      | @again _ _ ws₁ _ calls iterations hcalls hiterates =>
        rw [bind_of_ok _ ((honce _ _ _).2 ⟨calls, hcalls, rfl⟩)]
        rw [List.length_cons, firstQuiet_cons] at hcount
        cases hchanged : anyChanged calls with
        | false =>
          -- a quiet iteration is the last
          rw [hchanged] at hcount
          simp only [Bool.false_eq_true, if_false] at hcount
          obtain rfl : iterations = [] := List.length_eq_zero_iff.1 (by omega)
          cases hiterates
          simp [hchanged, pure_eq_ok]
        | true =>
          rw [hchanged, if_pos rfl] at hcount
          simp only [if_true]
          rw [bind_of_ok _ ((ih _ _ _).2 ⟨iterations, last, hiterates, by omega, rfl, rfl⟩)]
          simp [hchanged, pure_eq_ok]

mutual

/-- A stage does what is said of it, and reports whether a call did. -/
theorem run_performs (stage : Stage μ) : ∀ ws changed ws', stage.run ws = .ok (changed, ws') ↔
    ∃ calls, stage.Performs ws calls ws' ∧ changed = anyChanged calls := by
  intro ws changed ws'
  cases stage with
  | pass p =>
    rw [run]
    constructor
    · intro h
      exact ⟨_, .pass h, by simp [anyChanged]⟩
    · rintro ⟨calls, h, rfl⟩
      cases h with
      | pass run => simpa [anyChanged] using run
  | group name stages =>
    rw [run, untilStable_iterates (runAll_performs stages)]
    constructor
    · rintro ⟨iterations, last, hiterates, hcount, rfl, rfl⟩
      exact ⟨iterations.flatten, .group hiterates hcount, (anyChanged_flatten iterations).symm⟩
    · rintro ⟨calls, h, rfl⟩
      cases h with
      | group iterates count => exact ⟨_, _, iterates, count, rfl, anyChanged_flatten _⟩

theorem runAll_performs (stages : List (Stage μ)) : ∀ ws changed ws',
    Workspace.inOrder (runAll stages) ws = .ok (changed, ws') ↔
      ∃ calls, PerformsAll stages ws calls ws' ∧ changed = anyChanged calls := by
  intro ws changed ws'
  cases stages with
  | nil =>
    constructor
    · intro h
      cases h
      exact ⟨[], .nil, rfl⟩
    · rintro ⟨calls, h, rfl⟩
      cases h
      rfl
  | cons stage more =>
    rw [runAll, Workspace.inOrder_cons, bind_eq_ok]
    constructor
    · rintro ⟨⟨changes, ws₁⟩, h₁, h⟩
      obtain ⟨⟨others, ws₂⟩, h₂, h⟩ := bind_eq_ok.1 h
      cases h
      obtain ⟨calls, hcalls, rfl⟩ := (run_performs stage _ _ _).1 h₁
      obtain ⟨rest, hrest, rfl⟩ := (runAll_performs more _ _ _).1 h₂
      exact ⟨calls ++ rest, .cons hcalls hrest, (anyChanged_append calls rest).symm⟩
    · rintro ⟨calls, h, rfl⟩
      cases h with
      | @cons _ _ _ ws₁ _ calls rest hcalls hrest =>
        refine ⟨(anyChanged calls, ws₁), (run_performs stage _ _ _).2 ⟨calls, hcalls, rfl⟩, ?_⟩
        simp only
        rw [bind_of_ok _ ((runAll_performs more _ _ _).2 ⟨rest, hrest, rfl⟩), anyChanged_append]
        rfl

end

/-! ## 5. One execution -/

/-- The iterations of a group, as far as they go, are always the same. -/
theorem Iterates.prefix_of {stages : List (Stage μ)}
    (honce : ∀ {ws calls calls' ws₁ ws₂}, PerformsAll stages ws calls ws₁ →
      PerformsAll stages ws calls' ws₂ → calls = calls' ∧ ws₁ = ws₂)
    {iterations : List (List (Call μ))} : ∀ {iterations' ws last last'},
    Iterates stages ws iterations last → Iterates stages ws iterations' last' →
    iterations.length ≤ iterations'.length →
    ∃ rest, iterations' = iterations ++ rest ∧ (rest = [] → last = last') := by
  induction iterations with
  | nil =>
    intro iterations' ws last last' h h' _
    refine ⟨iterations', rfl, ?_⟩
    rintro rfl
    cases h
    cases h'
    rfl
  | cons calls iterations ih =>
    intro iterations' ws last last' h h' hle
    cases h with
    | again once more =>
      cases h' with
      | done => simp at hle
      | again once' more' =>
        obtain ⟨rfl, rfl⟩ := honce once once'
        obtain ⟨rest, rfl, hlast⟩ := ih more more' (by simpa using hle)
        exact ⟨rest, rfl, hlast⟩

/-- A group that has stopped does not go on. -/
theorem eq_nil_of_count {iterations rest : List (List (Call μ))}
    (h : iterations.length = min Workspace.iterationLimit (firstQuiet iterations))
    (h' : (iterations ++ rest).length
      = min Workspace.iterationLimit (firstQuiet (iterations ++ rest))) : rest = [] := by
  refine List.length_eq_zero_iff.1 ?_
  rw [List.length_append] at h'
  by_cases hquiet : iterations.findIdx (fun calls => !anyChanged calls) < iterations.length
  · have hsame : firstQuiet (iterations ++ rest) = firstQuiet iterations := by
      unfold firstQuiet
      rw [List.findIdx_append, if_pos hquiet]
    rw [hsame] at h'
    omega
  · unfold firstQuiet at h
    omega

mutual

/-- What a stage does is determined by what it finds. -/
theorem Performs.unique (stage : Stage μ) {ws ws₁ ws₂ : Workspace μ} {calls calls' : List (Call μ)}
    (h : stage.Performs ws calls ws₁) (h' : stage.Performs ws calls' ws₂) :
    calls = calls' ∧ ws₁ = ws₂ := by
  cases stage with
  | pass p =>
    cases h with
    | pass run =>
      cases h' with
      | pass run' =>
        rw [run] at run'
        cases run'
        exact ⟨rfl, rfl⟩
  | group name stages =>
    have hunique : ∀ {iterations iterations' last last'},
        Iterates stages ws iterations last → Iterates stages ws iterations' last' →
        iterations.length = min Workspace.iterationLimit (firstQuiet iterations) →
        iterations'.length = min Workspace.iterationLimit (firstQuiet iterations') →
        iterations.length ≤ iterations'.length → iterations = iterations' ∧ last = last' := by
      intro iterations iterations' last last' h h' hcount hcount' hle
      obtain ⟨rest, rfl, hlast⟩ := Iterates.prefix_of (PerformsAll.unique stages) h h' hle
      obtain rfl := eq_nil_of_count hcount hcount'
      exact ⟨(List.append_nil _).symm, hlast rfl⟩
    cases h with
    | @group _ _ _ last iterations iterates count =>
      cases h' with
      | @group _ _ _ last' iterations' iterates' count' =>
        have hsame : iterations = iterations' ∧ last = last' := by
          rcases Nat.le_total iterations.length iterations'.length with hle | hle
          · exact hunique iterates iterates' count count' hle
          · obtain ⟨heq, hlast⟩ := hunique iterates' iterates count' count hle
            exact ⟨heq.symm, hlast.symm⟩
        obtain ⟨rfl, rfl⟩ := hsame
        exact ⟨rfl, rfl⟩

theorem PerformsAll.unique (stages : List (Stage μ)) {ws ws₁ ws₂ : Workspace μ}
    {calls calls' : List (Call μ)} (h : PerformsAll stages ws calls ws₁)
    (h' : PerformsAll stages ws calls' ws₂) : calls = calls' ∧ ws₁ = ws₂ := by
  cases stages with
  | nil =>
    cases h
    cases h'
    exact ⟨rfl, rfl⟩
  | cons stage more =>
    cases h with
    | cons first rest =>
      cases h' with
      | cons first' rest' =>
        obtain ⟨rfl, rfl⟩ := Performs.unique stage first first'
        obtain ⟨rfl, rfl⟩ := PerformsAll.unique more rest rest'
        exact ⟨rfl, rfl⟩

end

theorem exists_untilStable {action : Workspace μ → Except Fault (Bool × Workspace μ)}
    (honce : ∀ ws, ∃ result, action ws = .ok result) (giveUp : Workspace μ → Workspace μ)
    (limit : Nat) : ∀ ws, ∃ result, Workspace.untilStable action giveUp limit ws = .ok result := by
  induction limit with
  | zero => exact fun ws => ⟨_, rfl⟩
  | succ limit ih =>
    intro ws
    obtain ⟨⟨changed, ws₁⟩, h₁⟩ := honce ws
    obtain ⟨⟨_, ws₂⟩, h₂⟩ := ih ws₁
    rw [Workspace.untilStable, bind_of_ok _ h₁]
    cases changed with
    | false => exact ⟨_, rfl⟩
    | true =>
      simp only [if_true]
      rw [bind_of_ok _ h₂]
      exact ⟨_, rfl⟩

mutual

/-- A stage comes to an end if all its passes do. -/
theorem exists_run (stage : Stage μ)
    (h : ∀ p ∈ stage.passes, ∀ ws, ∃ result, p.run ws = .ok result) (ws : Workspace μ) :
    ∃ result, stage.run ws = .ok result := by
  cases stage with
  | pass p => exact h p (by simp [passes]) ws
  | group name stages => exact exists_untilStable (exists_runAll stages h) _ _ ws

theorem exists_runAll (stages : List (Stage μ))
    (h : ∀ p ∈ passesAll stages, ∀ ws, ∃ result, p.run ws = .ok result) (ws : Workspace μ) :
    ∃ result, Workspace.inOrder (runAll stages) ws = .ok result := by
  cases stages with
  | nil => exact ⟨_, rfl⟩
  | cons stage more =>
    simp only [passesAll, List.mem_append] at h
    obtain ⟨⟨changes, ws₁⟩, h₁⟩ := exists_run stage (fun p hp => h p (.inl hp)) ws
    obtain ⟨⟨others, ws₂⟩, h₂⟩ := exists_runAll more (fun p hp => h p (.inr hp)) ws₁
    rw [runAll, Workspace.inOrder_cons, bind_of_ok _ h₁]
    simp only
    rw [bind_of_ok _ h₂]
    exact ⟨_, rfl⟩

end

/-! ## 6. Pipelines -/

/-- A workspace once the passes of a stage have been prepared in it, one after
another and each once. -/
def prepared (stage : Stage μ) (ws : Workspace μ) : Workspace μ :=
  let (context, memory) :=
    stage.passes.foldl (fun s p => p.prepare s.1 s.2) (ws.context, ws.memory)
  { ws with context, memory }

/-- A pipeline prepares each of its passes once, depth first, and runs then.
Each run of a stage, be it the outermost or one of the groups in it, makes the
calls that are said of it and reports whether any of them did. There is one such
execution. It comes to an end if all passes do. -/
theorem optimize_performs (stage : Stage μ) (ws : Workspace μ) :
    stage.optimize ws = stage.run (stage.prepared ws) ∧
    (∀ (inner : Stage μ) found changed left, inner.run found = .ok (changed, left) ↔
      ∃ calls, inner.Performs found calls left ∧ changed = anyChanged calls) ∧
    (∀ (inner : Stage μ) found calls calls' left left', inner.Performs found calls left →
      inner.Performs found calls' left' → calls = calls' ∧ left = left') ∧
    ((∀ p ∈ stage.passes, ∀ found, ∃ result, p.run found = .ok result) →
      ∃ result, stage.optimize ws = .ok result) := by
  have hrun : stage.optimize ws = stage.run (stage.prepared ws) := by
    rw [optimize, prepare_eq]
    rfl
  refine ⟨hrun, run_performs, fun inner _ _ _ _ _ => Performs.unique inner, fun h => ?_⟩
  rw [hrun]
  exact exists_run stage h _

end Stage

namespace Sample

/-- How often a pass was prepared and run. -/
structure Tally where
  prepared : Nat
  ran : Nat
deriving DecidableEq

/-- A pass that reports a change in its first runs, without making one. What is
done with it is counted at its place among the tallies. -/
def flaky (changes place : Nat) : Pass (List Tally) where
  prepare c tallies :=
    (c, tallies.modify place fun tally => { tally with prepared := tally.prepared + 1 })
  run ws :=
    let memory := ws.memory.modify place fun tally => { tally with ran := tally.ran + 1 }
    let run := (memory[place]?.map Tally.ran).getD 0
    .ok (decide (run ≤ changes), { ws with memory })

/-- A pass that reports a change twice, and a group with one that does so twelve
times. -/
def nested : Stage (List Tally) :=
  rootGroup [.pass (flaky 2 0), .group "inner" [.pass (flaky 12 1), .group "empty" []]]

/-- Nothing has been done yet. -/
def idle : Workspace (List Tally) :=
  ⟨Tree.empty, .start (fun _ => none) .default, [⟨0, 0⟩, ⟨0, 0⟩]⟩

end Sample

/-- The inner group is cut off in the first iteration of the outer one, which goes
on all the same. In the second it is quiet after three iterations of its own, and
in the third at once. -/
theorem Stage.optimize_performs_nested :
    ∃ ws' calls, Sample.nested.optimize Sample.idle = .ok (true, ws') ∧
      Sample.nested.Performs (Sample.nested.prepared Sample.idle) calls ws' ∧
      anyChanged calls = true ∧ ws'.memory = [⟨1, 3⟩, ⟨1, 14⟩] ∧
      ws'.context.warnings = [.unstable "inner" 10] := by
  obtain ⟨hprepared, hruns, -, hends⟩ := Stage.optimize_performs Sample.nested Sample.idle
  have hpasses : ∀ p ∈ Sample.nested.passes, ∀ found, ∃ result, p.run found = .ok result := by
    intro p hp found
    simp only [Sample.nested, rootGroup, Stage.passes, Stage.passesAll, List.append_nil,
      List.cons_append, List.nil_append, List.mem_cons, List.not_mem_nil, or_false] at hp
    rcases hp with rfl | rfl <;> exact ⟨_, rfl⟩
  obtain ⟨⟨changed, ws'⟩, hrun⟩ := hends hpasses
  have hleft : (Sample.nested.optimize Sample.idle).map (fun result => decide (result.1 = true ∧
      result.2.memory = [⟨1, 3⟩, ⟨1, 14⟩] ∧
      result.2.context.warnings = [.unstable "inner" 10])) = .ok true := by
    decide +kernel
  rw [hrun] at hleft
  obtain ⟨rfl, hmemory, hwarnings⟩ := of_decide_eq_true (Except.ok.inj hleft)
  rw [hprepared] at hrun
  obtain ⟨calls, hcalls, hchanged⟩ := (hruns _ _ _ _).1 hrun
  exact ⟨ws', calls, hprepared.trans hrun, hcalls, hchanged.symm, hmemory, hwarnings⟩

end ScriptReduce
