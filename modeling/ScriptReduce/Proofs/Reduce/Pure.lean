/-
ScriptReduce.Proofs.Reduce.Pure: a run rewrites the term of the tree.

A run goes through a store that changes under it. What it comes to can be said
without any store but the one it starts with: `Term.reduced` is a recursion
over the term that was read out before, and makes each evaluation in the tree
as it was then. A decided `if` statement becomes what its branch becomes, an
operator or an identifier whose value has a literal becomes that literal, and
any other node stays, with its children rewritten or left out.

`Reduces.reduced_eq` relates the rules to this function. With the theorem
about walks it says that one run of a well-formed tree leaves the rewritten
term (`foldConstants_reduced`), unless it folds a negative zero.
-/
import ScriptReduce.Proofs.Reduce.Run

namespace ScriptReduce

open ScriptReduce.Tree

variable {st : Setting} {t t' : Tree} {c c' : Context} {changed : Bool} {id n : NodeId}
  {v : Value} {q : Place}

/-! ## 1. Rewriting a term -/

/-- The value that an evaluation found, if it came to an end. -/
def Evaluator.found (r : Except Fault Outcome) : Option Value :=
  match r with
  | .ok o => o.value
  | .error _ => none

section

variable (st : Setting) (t : Tree)

/-- The literal that a node gives way to. -/
def Setting.literalFor {α : Type} (site : Bool) (id : NodeId) : Shape α → Option Literal
  | .binary _ _ _ | .unary _ _ =>
    if st.options.fold then
      (Evaluator.found ((st.evaluator t).evaluate id)).bind Value.toLiteral?
    else none
  | .identifier _ =>
    if st.options.propagate && site then
      (Evaluator.found ((st.evaluator t).resolve id)).bind Value.toLiteral?
    else none
  | _ => none

/-- The value of a condition by which its `if` statement is decided. -/
def Setting.verdict (condition : NodeId) : Option Value :=
  if st.options.branches then Evaluator.found ((st.evaluator t).evaluate condition) else none

/-- What becomes of a term at a place. Nodes that are new have no identifier. -/
abbrev Rewriting := Place → Option (Term (Option NodeId))

/-- Rewrites a node, given the identifier and the rewriting of each child. -/
def Setting.rewrite (n : NodeId) (s : Shape (NodeId × Rewriting)) : Rewriting := fun q =>
  let kept := (s.sieve fun q child => child.2 q).map (Term.mk (some n))
  match s with
  | .branch condition whenTrue whenFalse =>
    match st.verdict t condition.1 with
    | none => kept
    | some v =>
      match chosen v whenTrue whenFalse with
      | some selected => selected.2 q
      | none => if q.isRequired then some (.mk none .emptyStatement) else none
  | s =>
    match st.literalFor t q.isSite n s with
    | none => kept
    | some l => some (.mk none (.literal l))

/-- What a term becomes, with every evaluation made in one tree. -/
def Term.reduced (T : Term NodeId) : Rewriting := (T.fold fun n s => (n, st.rewrite t n s)).2

end

/-- The identifier of a node, if the tree has it. -/
def Tree.origin (t : Tree) (id : NodeId) : Option NodeId :=
  if id.index < t.size then some id else none

/-! ## 2. The function, node by node -/

/-- Whether a node has a literal does not depend on what its children are. -/
theorem Setting.literalFor_map {α β : Type} (f : α → β) (site : Bool) (s : Shape α) :
    st.literalFor t site n (s.map f) = st.literalFor t site n s := by
  cases s <;> rfl

namespace Term

theorem reduced_mk (n : NodeId) (s : Shape (Term NodeId)) :
    (mk n s).reduced st t = st.rewrite t n (s.map fun c => (c.label, c.reduced st t)) := by
  have hfold : ∀ c : Term NodeId,
      c.fold (fun n s => (n, st.rewrite t n s)) = (c.label, c.reduced st t) := by
    intro c
    obtain ⟨n, s⟩ := c
    rw [Prod.ext_iff]
    exact ⟨by rw [fold_mk]; rfl, rfl⟩
  rw [reduced, fold_mk]
  simp only [Shape.map_congr fun c _ => hfold c]

theorem sieve_reduced (s : Shape (Term NodeId)) :
    (s.map fun c => (c.label, c.reduced st t)).sieve (fun q child => child.2 q) =
      s.sieve fun q c => c.reduced st t q :=
  Shape.sieve_map _ _ s

/-- A node that neither has a literal nor is decided stays. -/
theorem reduced_kept {s : Shape (Term NodeId)} (hl : st.literalFor t q.isSite n s = none)
    (hv : ∀ c a b, s = .branch c a b → st.verdict t c.label = none) :
    (mk n s).reduced st t q
      = (s.sieve fun q c => c.reduced st t q).map (.mk (some n)) := by
  rw [reduced_mk, ← sieve_reduced]
  rw [← Setting.literalFor_map fun c => (c.label, c.reduced st t)] at hl
  unfold Setting.rewrite
  cases s with
  | branch c a b => simp [Shape.map, hv c a b rfl]
  | _ => simp only [Shape.map] at hl ⊢; rw [hl]

theorem reduced_literal {s : Shape (Term NodeId)} {l : Literal}
    (hl : st.literalFor t q.isSite n s = some l) :
    (mk n s).reduced st t q = some (.mk none (.literal l)) := by
  rw [← Setting.literalFor_map fun c => (c.label, c.reduced st t)] at hl
  rw [reduced_mk]
  unfold Setting.rewrite
  cases s with
  | branch _ _ _ => cases hl
  | _ => simp only [Shape.map] at hl ⊢; rw [hl]

theorem reduced_branch {c a : Term NodeId} {b : Option (Term NodeId)}
    (hv : st.verdict t c.label = some v) :
    (mk n (.branch c a b)).reduced st t q = match chosen v a b with
      | some selected => selected.reduced st t q
      | none => if q.isRequired then some (.mk none .emptyStatement) else none := by
  rw [reduced_mk]
  unfold Setting.rewrite
  simp only [Shape.map, hv]
  rw [chosen_map fun c : Term NodeId => (c.label, c.reduced st t)]
  cases chosen v a b <;> rfl

end Term

/-! ## 3. The function and the rules -/

namespace Evaluator

variable {ev : Evaluator} {rank : NodeId → Nat} {limit : Nat}

/-- Evaluation in a tree that descents come to the end of finds every value,
wherever symbols may lead. -/
theorem found_evaluate_iff (hg : ev.tree.Graded Everywhere rank limit)
    (hid : id.index < ev.tree.size) : found (ev.evaluate id) = some v ↔ ev.Yields id v := by
  cases h : ev.evaluate id with
  | ok o => exact evaluate_value_iff h
  | error e =>
    have hne := (failsOnly_evaluate hg ev.symbolAt.keeps_everywhere ⟨trivial, hid⟩ e h).1
    constructor
    · rintro ⟨⟩
    · exact fun hy => absurd ((hy.found ev.depthLimit).error_eq h) hne

theorem found_resolve_iff (hg : ev.tree.Graded Everywhere rank limit) {name : String}
    (hs : ev.tree.shape id = .ok (.identifier name)) :
    found (ev.resolve id) = some v ↔ ev.Yields id v := by
  obtain ⟨k, hk, _⟩ := shape_eq_ok.1 hs
  cases h : ev.resolve id with
  | ok o => exact resolve_value_iff hs h
  | error e =>
    have hne := (failsOnly_resolve hg ev.symbolAt.keeps_everywhere
      ⟨trivial, lt_size_of_get? hk⟩ e h).1
    have heval : ev.evalWithin (ev.depthLimit + 1) [] id = .error e := by
      rw [evalWithin, bind_of_ok _ hs]
      exact h
    constructor
    · rintro ⟨⟩
    · exact fun hy => absurd ((hy.found (ev.depthLimit + 1)).error_eq heval) hne

end Evaluator

section

variable {rank : NodeId → Nat} {limit : Nat} {site : Bool} {T : Term NodeId}
  {p : Option NodeId} {s : Shape (Term NodeId)}

/-- A node gives way to a literal if it folds to a value that has one. -/
theorem literalFor_eq_some_iff (hg : t.Graded Everywhere rank limit)
    (hT : t.Shows p (.mk n s)) {l : Literal} :
    st.literalFor t site n s = some l ↔ ∃ v, Folds st t site n v ∧ v.toLiteral? = some l := by
  obtain ⟨span, hget⟩ := hT.get?
  have hs : t.shape n = .ok (s.map Term.label) := shape_of_get? hget
  have hfolds : ∀ v, Folds st t site n v ↔
      (st.evaluator t).Yields n v ∧ st.MayFold site s := by
    intro v
    have hmay : st.MayFold site (s.map Term.label) ↔ st.MayFold site s := by
      rw [← st.mayFold_bare, Shape.bare_map, st.mayFold_bare]
    constructor
    · rintro ⟨hy, s', hs', hm⟩
      rw [hs] at hs'
      cases hs'
      exact ⟨hy, hmay.1 hm⟩
    · rintro ⟨hy, hm⟩
      exact ⟨hy, _, hs, hmay.2 hm⟩
  have hevaluate : ∀ v, Evaluator.found ((st.evaluator t).evaluate n) = some v ↔
      (st.evaluator t).Yields n v := fun v =>
    Evaluator.found_evaluate_iff hg (lt_size_of_get? hget)
  simp only [hfolds]
  cases s with
  | binary _ _ _ | unary _ _ =>
    by_cases hon : st.options.fold = true
    · simp [Setting.literalFor, Setting.MayFold, hon, Option.bind_eq_some_iff, hevaluate]
    · simp [Setting.literalFor, Setting.MayFold, hon]
  | identifier name =>
    have hresolve : ∀ v, Evaluator.found ((st.evaluator t).resolve n) = some v ↔
        (st.evaluator t).Yields n v := fun v =>
      Evaluator.found_resolve_iff hg hs
    by_cases hon : st.options.propagate = true ∧ site = true
    · simp [Setting.literalFor, Setting.MayFold, hon, Option.bind_eq_some_iff, hresolve]
    · simp [Setting.literalFor, Setting.MayFold, hon]
  | _ => simp [Setting.literalFor, Setting.MayFold]

/-- An `if` statement is decided by the value of its condition. -/
theorem verdict_eq_some_iff (hg : t.Graded Everywhere rank limit) {c a : Term NodeId}
    {b : Option (Term NodeId)} (hT : t.Shows p (.mk n (.branch c a b))) :
    st.verdict t c.label = some v ↔ Decides st t n v := by
  obtain ⟨span, hget⟩ := hT.get?
  obtain ⟨_, hc⟩ := (hT.child (c := c) (by simp)).get?
  have hs : t.shape n = .ok (.branch c.label a.label (b.map Term.label)) := shape_of_get? hget
  have hfound : Evaluator.found ((st.evaluator t).evaluate c.label) = some v ↔
      (st.evaluator t).Yields c.label v :=
    Evaluator.found_evaluate_iff hg (lt_size_of_get? hc)
  unfold Setting.verdict
  constructor
  · intro hv
    split at hv
    · rename_i hon
      exact ⟨_, _, _, hs, hfound.1 hv, hon⟩
    · cases hv
  · rintro ⟨_, _, _, hs', hy, hon⟩
    rw [hs] at hs'
    cases hs'
    rw [if_pos hon]
    exact hfound.2 hy

/-- What a term reduces to by the rules is what the function makes of it. -/
theorem Reduces.reduced_eq (hg : t.Graded Everywhere rank limit) {U : Option (Term NodeId)}
    (h : Reduces st t q T U) : ∀ {p}, t.Shows p T →
      T.reduced st t q = U.map (Term.relabel t.origin) := by
  have hnew : ∀ {m : NodeId}, t.size ≤ m.index → t.origin m = none := fun hm =>
    if_neg (Nat.not_lt.2 hm)
  induction h with
  | @folded q T m v l folds literal fresh =>
    intro p hT
    rw [← Term.eta T] at hT ⊢
    rw [Term.reduced_literal ((literalFor_eq_some_iff hg hT).2 ⟨v, folds, literal⟩)]
    simp [hnew fresh, Shape.map]
  | @selected q n c a V b U v decides chosen rest ih =>
    intro p hT
    have hV : V ∈ (Term.mk n (.branch c a b)).shape.children :=
      Shape.mem_children_branch (chosen_mem chosen)
    rw [Term.reduced_branch ((verdict_eq_some_iff hg hT).2 decides), chosen]
    exact ih (hT.child hV)
  | dropped decides chosen optional =>
    intro p hT
    rw [Term.reduced_branch ((verdict_eq_some_iff hg hT).2 decides), chosen]
    simp [optional]
  | filled decides chosen required fresh =>
    intro p hT
    rw [Term.reduced_branch ((verdict_eq_some_iff hg hT).2 decides), chosen]
    simp [required, hnew fresh, Shape.map]
  | @kept q n s s' G stays below sieved ih =>
    intro p hT
    have hl : st.literalFor t q.isSite n s = none := by
      refine Option.eq_none_iff_forall_ne_some.2 fun l hl => ?_
      obtain ⟨v, hfolds, hliteral⟩ := (literalFor_eq_some_iff hg hT).1 hl
      rw [stays.1 v hfolds] at hliteral
      cases hliteral
    have hv : ∀ c a b, s = .branch c a b → st.verdict t c.label = none := by
      rintro c a b rfl
      refine Option.eq_none_iff_forall_ne_some.2 fun v hv => ?_
      exact stays.2 v ((verdict_eq_some_iff hg hT).1 hv)
    have hchildren : ∀ place c, (place, c) ∈ s.spots →
        c.reduced st t place = (G c.label).map (Term.relabel t.origin) := fun place c hc =>
      ih (place, c) hc (hT.child (Shape.mem_children_of_mem_spots hc))
    obtain ⟨span, hget⟩ := hT.get?
    have horigin : t.origin n = some n := if_pos (lt_size_of_get? hget)
    rw [Term.reduced_kept hl hv, Shape.sieve_congr hchildren,
      ← Shape.map_sieve (fun _ c => G c.label) (Term.relabel t.origin) s, sieved]
    simp [horigin]

end

/-! ## 4. One run -/

/-- One run of a well-formed tree leaves the rewritten term at the root, if
none of the literals that it installs stands for negative zero. There is a
result whenever symbols name declarations of the tree. -/
theorem foldConstants_reduced (h : t.WellFormed) (c : Context) :
    ∃ r T, t.root = some r ∧ t.term r = .ok T ∧
      (c.symbolAt.Within t → ∃ result, foldConstants t c = .ok result) ∧
      ∀ changed t' c', foldConstants t c = .ok (changed, t', c') →
        ∃ T' news, t'.root = some r ∧ t'.term r = .ok T' ∧ c'.changes = news ++ c.changes ∧
          ((∀ change ∈ news, change.Safe) →
            T.reduced c.setting t .statement = some (T'.relabel t.origin)) := by
  obtain ⟨parent, T, hT⟩ := h.exists_presents
  refine ⟨T.label, T, hT.root, hT.term_eq, h.exists_foldConstants, fun changed t' c' hrun => ?_⟩
  obtain ⟨T', news, hran, hguide⟩ := h.ran hT hrun
  have hroot : t'.root = some T.label := hran.root.trans hT.root
  have hterm : t'.term T.label = .ok T' := hran.label ▸ hran.presents.term_eq
  refine ⟨T', news, hroot, hterm, hran.follows.changes, fun hsafe => ?_⟩
  exact ((hguide hsafe).2 .statement).reduced_eq h.graded hT.shows

theorem foldConstants_reduced_sample :
    ∃ T t' c' T', Sample.tree.term ⟨13⟩ = .ok T ∧
      foldConstants Sample.tree (.start Sample.symbols.resolve Sample.options)
        = .ok (true, t', c') ∧ t'.term ⟨13⟩ = .ok T' ∧
      T.reduced ⟨Sample.symbols.resolve, Sample.options⟩ Sample.tree .statement
        = some (T'.relabel Sample.tree.origin) := by
  obtain ⟨r, T, hr, hT, hexists, hall⟩ := foldConstants_reduced Sample.tree_wellFormed
    (.start Sample.symbols.resolve Sample.options)
  obtain rfl : r = ⟨13⟩ := (Option.some.inj hr).symm
  obtain ⟨⟨changed, t', c'⟩, hrun⟩ := hexists Sample.symbols_within
  obtain ⟨T', news, _, hT', hchanges, hred⟩ := hall changed t' c' hrun
  have hsafe : ∀ change ∈ news, change.Safe := fun change hchange =>
    Sample.foldConstants_safe hrun change (hchanges ▸ List.mem_append_left _ hchange)
  have hchanged : changed = true := by
    have h : (foldConstants Sample.tree (.start Sample.symbols.resolve Sample.options)).map Prod.fst
        = .ok true := by decide +kernel
    rw [hrun] at h
    exact Except.ok.inj h
  exact ⟨T, t', c', T', hT, hchanged ▸ hrun, hT', hred hsafe⟩

end ScriptReduce
