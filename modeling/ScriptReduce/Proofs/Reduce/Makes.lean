/-
ScriptReduce.Proofs.Reduce.Makes: every part of a run makes steps.

A walk makes steps, and sets its flag when it has made one (`Makes`). That goes for
the part of it that leads to one of its moments (`Walk.Ongoing.comes_makes`) and for
the part that is left after the reduction made then (`Walk.Ongoing.comes_rest`). So
steps lead from a tree to any moment of the runs that start with it, and from there
to the tree that these runs end with (`Along.before`, `Along.after`).
-/
import ScriptReduce.Proofs.Reduce.Steps

namespace ScriptReduce

open ScriptReduce.Tree Relation

variable {st : Setting} {D : NodeId → Prop} {rank : NodeId → Nat} {t t₀ t₁ t' u : Tree}
  {c c₁ c' : Context} {changes : List Change} {w : Walk} {x : NodeId}

/-! ## 1. Walks make steps -/

theorem Steps.trans {changes' : List Change} (h : Steps st D t changes u)
    (h' : Steps st D u changes' t') : Steps st D t (changes' ++ changes) t' := by
  induction h' with
  | start => exact h
  | vain l _ ih => exact .vain l ih
  | next _ inside step ih => exact .next ih inside step

/-- Whether a part of a walk made a sequence of steps, and set the flag if
there was any. -/
def Makes (st : Setting) (w w' : Walk) : Prop :=
  ∃ changes, Steps st Everywhere w.tree changes w'.tree ∧
    w'.changed = (w.changed || !changes.isEmpty)

namespace Makes

variable {w w₁ w' : Walk}

theorem refl (w : Walk) : Makes st w w := ⟨[], .start, by simp⟩

theorem trans (h : Makes st w w₁) (h' : Makes st w₁ w') : Makes st w w' := by
  obtain ⟨changes, hsteps, hchanged⟩ := h
  obtain ⟨changes', hsteps', hchanged'⟩ := h'
  refine ⟨changes' ++ changes, hsteps.trans hsteps', ?_⟩
  rw [hchanged', hchanged]
  cases changes <;> cases changes' <;> simp

end Makes

namespace Walk.Ongoing

variable {w w' : Walk} {id : NodeId} {r : Reduction}

/-- A node that is left alone does not set the flag. Any other has made a step,
after which the flag is set. -/
theorem reduce_makes (h : Ongoing st Everywhere rank t₀ w.tree w.context)
    (hid : w.tree.Inside Everywhere id) (hr : w.reduce id = .ok (r, w')) :
    (r = .unchanged → Makes st w w') ∧
      (r ≠ .unchanged → Makes st w { w' with changed := true }) := by
  obtain ⟨site, hsite⟩ := Walk.exists_isSubstitutionSite h.graded.toClosed hid
  cases Walk.reduce_cases hsite hr with
  | kept stays tree changed follows =>
    refine ⟨fun _ => ⟨[], ?_, by simp [changed]⟩, fun hne => absurd rfl hne⟩
    rw [tree]
    exact .start
  | @made _ change step node changed follows =>
    rw [h.setting] at step
    exact ⟨fun heq => absurd heq change.reduction_ne_unchanged,
      fun _ => ⟨[change], .next .start trivial step, by simp⟩⟩
  | failed unlinked tree changed misses =>
    refine ⟨fun _ => ⟨[], ?_, by simp [changed]⟩, fun hne => absurd rfl hne⟩
    rcases tree with tree | ⟨l, tree⟩
    · rw [tree]
      exact .start
    · rw [tree]
      exact .vain l .start

theorem foldlM_makes {f : Walk → NodeId → Except Fault Walk}
    (hf : ∀ {w w' : Walk} {id : NodeId}, Ongoing st Everywhere rank t₀ w.tree w.context →
      w.tree.Inside Everywhere id → f w id = .ok w' →
        Makes st w w' ∧ Onward st Everywhere rank t₀ w w') {ids : List NodeId} :
    ∀ {w w' : Walk}, Ongoing st Everywhere rank t₀ w.tree w.context →
      (∀ x ∈ ids, w.tree.Inside Everywhere x) → ids.foldlM f w = .ok w' → Makes st w w' := by
  induction ids with
  | nil =>
    intro w w' _ _ hw
    cases hw
    exact .refl w
  | cons x ids ih =>
    intro w w' h hids hw
    obtain ⟨hx, hids⟩ := List.forall_mem_cons.1 hids
    obtain ⟨w₁, h₁, hw⟩ := foldlM_cons_eq_ok.1 hw
    obtain ⟨hmakes, hon⟩ := hf h hx h₁
    exact hmakes.trans (ih hon.1 (fun y hy => (hids y hy).mono hon.2.size) hw)

/-- A walk makes steps, and its flag tells whether it made one. -/
theorem visit_makes {depth : Nat} : ∀ {w w' : Walk} {id : NodeId},
    Ongoing st Everywhere rank t₀ w.tree w.context → w.tree.Inside Everywhere id →
      visitWithin depth w id = .ok w' → Makes st w w' := by
  induction depth with
  | zero =>
    intro w w' id _ _ hv
    cases hv
  | succ depth ih =>
    intro w w' id h hid hv
    cases visit_succ_iff.1 hv with
    | @replaced w₁ _ m reduced onward =>
      obtain ⟨hon, hlow⟩ := h.reduce hid reduced
      refine ((h.reduce_makes hid reduced).2 (by simp)).trans ?_
      exact @ih { w₁ with changed := true } w' m hon.1 (hlow m rfl).1 onward
    | removed reduced => exact (h.reduce_makes hid reduced).2 (by simp)
    | @unchanged w₁ _ n reduced node below =>
      have hon := (h.reduce hid reduced).1
      have hchildren : ∀ x ∈ n.shape.children, w₁.tree.Inside Everywhere x := fun x hx =>
        hon.1.graded.children id x trivial ⟨n, node, hx⟩
      exact ((h.reduce_makes hid reduced).1 rfl).trans
        (foldlM_makes (fun h hid hv => ⟨ih h hid hv, h.visit hid hv⟩) hon.1 hchildren below)

/-- So does a walk along a list of nodes. -/
theorem visits_makes {depth : Nat} {xs : List NodeId}
    (h : Ongoing st Everywhere rank t₀ w.tree w.context)
    (hxs : ∀ x ∈ xs, w.tree.Inside Everywhere x)
    (hw : xs.foldlM (visitWithin depth) w = .ok w') : Makes st w w' :=
  foldlM_makes (fun h hx hv => ⟨h.visit_makes hx hv, h.visit hx hv⟩) h hxs hw

/-- What a walk has made when it comes to a node is a sequence of steps. -/
theorem comes_makes {xs : List NodeId} {y : NodeId}
    (h : Ongoing st Everywhere rank t₀ w.tree w.context) (hcomes : Comes w xs w' y)
    (hxs : ∀ x ∈ xs, w.tree.Inside Everywhere x) : Makes st w w' := by
  induction hcomes with
  | here => exact .refl _
  | @later w w₁ w' x y xs depth visited _ ih =>
    obtain ⟨hx, hxs⟩ := List.forall_mem_cons.1 hxs
    have hon₁ := h.visit hx visited
    exact (h.visit_makes hx visited).trans
      (ih hon₁.1 fun z hz => (hxs z hz).mono hon₁.2.size)
  | @downward w w₁ w' x y xs children reduced holds _ ih =>
    have hx := hxs x List.mem_cons_self
    obtain ⟨hon₁, -⟩ := h.reduce hx reduced
    obtain ⟨n, hn, rfl⟩ := children_eq_ok.1 holds
    refine ((h.reduce_makes hx reduced).1 rfl).trans (ih hon₁.1 fun z hz => ?_)
    exact hon₁.1.graded.children x z trivial ⟨n, hn, hz⟩
  | @onward w w₁ w' x y new xs reduced _ ih =>
    have hx := hxs x List.mem_cons_self
    obtain ⟨hon₁, hlow⟩ := h.reduce hx reduced
    refine ((h.reduce_makes hx reduced).2 (by simp)).trans (ih hon₁.1 fun z hz => ?_)
    rw [List.mem_singleton.1 hz]
    exact (hlow new rfl).1

/-- What a visit makes after the reduction that it begins with. -/
theorem visit_rest {depth : Nat} {w₁ : Walk} (h : Ongoing st Everywhere rank t₀ w.tree w.context)
    (hid : w.tree.Inside Everywhere id) (hr : w.reduce id = .ok (r, w₁))
    (hv : visitWithin depth w id = .ok w') :
    ∃ changes, Steps st Everywhere w₁.tree changes w'.tree := by
  obtain ⟨hon₁, hlow⟩ := h.reduce hid hr
  cases depth with
  | zero => cases hv
  | succ depth =>
    cases visit_succ_iff.1 hv with
    | @replaced _ _ m reduced onward =>
      cases hr.symm.trans reduced
      obtain ⟨changes, hsteps, -⟩ :=
        visit_makes (w := { w₁ with changed := true }) hon₁.1 (hlow m rfl).1 onward
      exact ⟨changes, hsteps⟩
    | removed reduced =>
      cases hr.symm.trans reduced
      exact ⟨[], .start⟩
    | @unchanged _ _ n reduced node below =>
      cases hr.symm.trans reduced
      obtain ⟨changes, hsteps, -⟩ := hon₁.1.visits_makes
        (fun x hx => hon₁.1.graded.children id x trivial ⟨n, node, hx⟩) below
      exact ⟨changes, hsteps⟩

/-- What a walk makes after it came to a node, and the reduction there, is a
sequence of steps. -/
theorem comes_rest {xs : List NodeId} {y : NodeId} {w₀ w₁ : Walk} (hcomes : Comes w xs w₀ y)
    (hr : w₀.reduce y = .ok (r, w₁)) : ∀ {depth : Nat} {w' : Walk},
      Ongoing st Everywhere rank t₀ w.tree w.context → (∀ x ∈ xs, w.tree.Inside Everywhere x) →
      xs.foldlM (visitWithin depth) w = .ok w' →
        ∃ changes, Steps st Everywhere w₁.tree changes w'.tree := by
  -- what follows on the visit of the first node of the list
  have hrest : ∀ {w w₂ w' : Walk} {x : NodeId} {xs : List NodeId} {depth : Nat}
      {changes : List Change}, Ongoing st Everywhere rank t₀ w.tree w.context →
      (∀ y ∈ x :: xs, w.tree.Inside Everywhere y) → visitWithin depth w x = .ok w₂ →
      Steps st Everywhere w₁.tree changes w₂.tree →
      xs.foldlM (visitWithin depth) w₂ = .ok w' →
        ∃ changes, Steps st Everywhere w₁.tree changes w'.tree := by
    intro w w₂ w' x xs depth changes h hxs hv hsteps hw
    obtain ⟨hx, hxs⟩ := List.forall_mem_cons.1 hxs
    have hon₂ := h.visit hx hv
    obtain ⟨changes', hsteps', -⟩ :=
      hon₂.1.visits_makes (fun y hy => (hxs y hy).mono hon₂.2.size) hw
    exact ⟨_, hsteps.trans hsteps'⟩
  induction hcomes with
  | @here w x xs =>
    intro depth w' h hxs hw
    obtain ⟨w₂, hv, hw⟩ := foldlM_cons_eq_ok.1 hw
    obtain ⟨changes, hsteps⟩ := h.visit_rest (hxs x List.mem_cons_self) hr hv
    exact hrest h hxs hv hsteps hw
  | @later w w₂ w₀ x y xs depth visited _ ih =>
    intro depth' w' h hxs hw
    obtain ⟨w₃, hv, hw⟩ := foldlM_cons_eq_ok.1 hw
    cases visit_unique visited hv
    obtain ⟨hx, hxs⟩ := List.forall_mem_cons.1 hxs
    have hon₂ := h.visit hx visited
    exact ih hr hon₂.1 (fun y hy => (hxs y hy).mono hon₂.2.size) hw
  | @downward w w₂ w₀ x y xs children reduced holds _ ih =>
    intro depth w' h hxs hw
    obtain ⟨w₃, hv, hw⟩ := foldlM_cons_eq_ok.1 hw
    obtain ⟨hon₂, -⟩ := h.reduce (hxs x List.mem_cons_self) reduced
    obtain ⟨n, hn, rfl⟩ := children_eq_ok.1 holds
    obtain ⟨_, hbelow⟩ := visit_below hv reduced hn
    obtain ⟨changes, hsteps⟩ :=
      ih hr hon₂.1 (fun z hz => hon₂.1.graded.children x z trivial ⟨n, hn, hz⟩) hbelow
    exact hrest h hxs hv hsteps hw
  | @onward w w₂ w₀ x y new xs reduced _ ih =>
    intro depth w' h hxs hw
    obtain ⟨w₃, hv, hw⟩ := foldlM_cons_eq_ok.1 hw
    obtain ⟨hon₂, hlow⟩ := h.reduce (hxs x List.mem_cons_self) reduced
    obtain ⟨_, honward⟩ := visit_onward hv reduced
    obtain ⟨changes, hsteps⟩ := ih hr hon₂.1
      (fun z hz => List.mem_singleton.1 hz ▸ (hlow new rfl).1)
      (foldlM_cons_eq_ok.2 ⟨w₃, honward, rfl⟩)
    exact hrest h hxs hv hsteps hw

theorem moment_makes (h : Ongoing st Everywhere rank t₀ t c)
    (hroot : ∀ r, t₀.root = some r → t₀.Inside Everywhere r) (hmoment : Moment t c w x) :
    ∃ changes, Steps st Everywhere t changes w.tree := by
  obtain ⟨root, hr, hcomes⟩ := hmoment
  have hinside := (hroot root (h.root ▸ hr)).mono h.graded.limit_le
  obtain ⟨changes, hsteps, -⟩ := h.comes_makes (w := ⟨t, c, false⟩) hcomes fun y hy =>
    List.mem_singleton.1 hy ▸ hinside
  exact ⟨changes, hsteps⟩

theorem moment_rest {w₁ : Walk} {changed : Bool} (h : Ongoing st Everywhere rank t₀ t c)
    (hroot : ∀ r, t₀.root = some r → t₀.Inside Everywhere r) (hmoment : Moment t c w x)
    (hr : w.reduce x = .ok (r, w₁))
    (hrun : ScriptReduce.foldConstants t c = .ok (changed, t', c')) :
    ∃ changes, Steps st Everywhere w₁.tree changes t' := by
  obtain ⟨root, hroot₁, hcomes⟩ := hmoment
  rcases foldConstants_eq_ok.1 hrun with ⟨hnone, -⟩ | ⟨root', hroot₂, hvisit⟩
  · cases hroot₁.symm.trans hnone
  · cases hroot₁.symm.trans hroot₂
    have hinside := (hroot root (h.root ▸ hroot₁)).mono h.graded.limit_le
    exact comes_rest (w := ⟨t, c, false⟩) hcomes hr h
      (fun y hy => List.mem_singleton.1 hy ▸ hinside) (foldlM_cons_eq_ok.2 ⟨_, hvisit, rfl⟩)

end Walk.Ongoing

/-- A run makes steps, and its flag tells whether it made one. -/
theorem foldConstants_makes (ha : t.Acyclic) (hc : t.Closed Everywhere)
    (hroot : ∀ r, t.root = some r → r.index < t.size) {changed : Bool}
    (hrun : foldConstants t c = .ok (changed, t', c')) :
    ∃ changes, Steps c.setting Everywhere t changes t' ∧ changed = !changes.isEmpty := by
  rcases foldConstants_eq_ok.1 hrun with ⟨-, rfl, rfl, rfl⟩ | ⟨r, hr, hw⟩
  · exact ⟨[], .start, rfl⟩
  · have hon : Walk.Ongoing c.setting Everywhere t.rank t t c := ⟨ha.graded hc, rfl, rfl⟩
    have hmakes := hon.visit_makes (w := ⟨t, c, false⟩) ⟨trivial, hroot r hr⟩ hw
    simpa [Makes] using hmakes

/-! ## 2. Moments of several runs -/

/-- The moments of the runs that lead from a tree to another. -/
def Along (t : Tree) (c : Context) (t' : Tree) (c' : Context) (w : Walk) (x : NodeId) : Prop :=
  ∃ t₁ c₁ changed t₂ c₂, Runs t c t₁ c₁ ∧ Moment t₁ c₁ w x ∧
    foldConstants t₁ c₁ = .ok (changed, t₂, c₂) ∧ Runs t₂ c₂ t' c'

/-- Runs make steps. -/
theorem Walk.Ongoing.runs_makes (h : Walk.Ongoing st Everywhere rank t₀ t c)
    (hroot : ∀ r, t₀.root = some r → t₀.Inside Everywhere r) (hruns : Runs t c t₁ c₁) :
    ∃ changes, Steps st Everywhere t changes t₁ := by
  induction hruns with
  | start => exact ⟨[], .start⟩
  | @again t₁ t₂ c₁ c₂ changed runs run ih =>
    obtain ⟨changes, hsteps⟩ := ih
    have hon := h.runs hroot runs
    obtain ⟨changes', hsteps', -⟩ := foldConstants_makes hon.graded.acyclic hon.graded.toClosed
      (fun r hr => ((hroot r (hon.root ▸ hr)).mono hon.graded.limit_le).2) run
    rw [hon.setting] at hsteps'
    exact ⟨_, hsteps.trans hsteps'⟩

/-- Steps lead to a moment on the way from a tree to another. -/
theorem Along.before (h : Along t c t' c' w x) (hon : Walk.Ongoing st Everywhere rank t₀ t c)
    (hroot : ∀ r, t₀.root = some r → t₀.Inside Everywhere r) :
    Walk.Ongoing st Everywhere rank t₀ w.tree w.context ∧
      ∃ changes, Steps st Everywhere t changes w.tree := by
  obtain ⟨t₁, c₁, _, _, _, hruns, hmoment, -⟩ := h
  have hon₁ := hon.runs hroot hruns
  obtain ⟨earlier, hearlier⟩ := hon.runs_makes hroot hruns
  obtain ⟨changes, hsteps⟩ := hon₁.moment_makes hroot hmoment
  exact ⟨(hon₁.moment hroot hmoment).1, _, hearlier.trans hsteps⟩

/-- Steps lead on after the reduction that is made then. -/
theorem Along.after {r : Reduction} {w₁ : Walk} (h : Along t c t' c' w x)
    (hon : Walk.Ongoing st Everywhere rank t₀ t c)
    (hroot : ∀ r, t₀.root = some r → t₀.Inside Everywhere r) (hr : w.reduce x = .ok (r, w₁)) :
    ∃ changes, Steps st Everywhere w₁.tree changes t' := by
  obtain ⟨t₁, c₁, changed, t₂, c₂, hruns, hmoment, hrun, hruns'⟩ := h
  have hon₁ := hon.runs hroot hruns
  obtain ⟨changes, hsteps⟩ := hon₁.moment_rest hroot hmoment hr hrun
  obtain ⟨later, hlater⟩ := (hon₁.foldConstants hroot hrun).runs_makes hroot hruns'
  exact ⟨_, hsteps.trans hlater⟩

end ScriptReduce
