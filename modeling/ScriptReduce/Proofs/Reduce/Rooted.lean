/-
ScriptReduce.Proofs.Reduce.Rooted: an optimized tree hangs together.

A decided `if` statement keeps holding the branch that was moved out of it, so
no run can keep the whole store in order. It keeps the part in order that can
be reached from the root. `Intact` is the invariant: the root shows a term
without repetitions, and each node that gave way is out of that term and has
no parent. It holds at the start of a rooted tree, every run keeps it, and a
rooted tree can be read off from it at the end.
-/
import ScriptReduce.Proofs.Reduce.Run
import ScriptReduce.Proofs.Tree.Rooted

namespace ScriptReduce

open ScriptReduce.Tree

variable {t t' : Tree} {c c' : Context} {changed : Bool} {r : NodeId}

/-! ## 1. The invariant -/

/-- The part of a tree below a root hangs together, what gave way is out of
it, and no slot was missed. -/
structure Intact (r : NodeId) (t : Tree) (c : Context) : Prop where
  term : ∃ T, T.label = r ∧ t.Presents none T ∧ ∀ change ∈ c.changes, change.node ∉ T.labels
  gone : ∀ change ∈ c.changes, ∃ n, t.get? change.node = some n ∧ n.parent = none
  slots : ∀ d ∈ c.diagnostics, d.kind ≠ .slotNotFound

namespace Intact

/-- A rooted tree is intact at the start of a run. -/
theorem of_rooted (hr : t.Rooted r) (symbolAt : Resolver) (options : Options) :
    Intact r t (.start symbolAt options) where
  term := by
    obtain ⟨T, hT, hl⟩ := hr.exists_presents
    exact ⟨T, hl, hT, by simp [Context.start]⟩
  gone _ h := by cases h
  slots _ h := by cases h

theorem rooted (h : Intact r t c) : t.Rooted r := by
  obtain ⟨T, rfl, hT, _⟩ := h.term
  exact hT.rooted

/-- What gave way cannot be reached. -/
theorem not_reaches (h : Intact r t c) {change : Change} (hchange : change ∈ c.changes) :
    ¬t.Reaches r change.node := by
  obtain ⟨T, rfl, hT, hout⟩ := h.term
  exact fun hreach => hout change hchange (hT.shows.mem_of_reaches hreach)

theorem warn (h : Intact r t c) (warning : Warning) : Intact r t (c.warn warning) :=
  ⟨h.term, h.gone, h.slots⟩

/-- A run keeps a tree intact. -/
theorem foldConstants (h : Intact r t c) (hrun : foldConstants t c = .ok (changed, t', c')) :
    Intact r t' c' := by
  obtain ⟨T, rfl, hT, hout⟩ := h.term
  obtain ⟨T', news, hran, _⟩ :=
    foldConstants_presents (.blind c.setting t) rfl (Nat.le_refl _) hT hrun
  have hnodup := hT.nodup
  have hlabels : T.labels = T.label :: labelsOf T.shape.spots := by
    rw [labelsOf_spots, ← Term.labels_eq]
  have hlabels' : T'.labels = T.label :: labelsOf T'.shape.spots := by
    rw [labelsOf_spots, ← hran.label, ← Term.labels_eq]
  have hold : ∀ change ∈ c.changes, change.node ∉ T'.labels ∧
      t'.get? change.node = t.get? change.node := by
    intro change hchange
    have hnot := hout change hchange
    rw [hlabels, List.mem_cons, not_or] at hnot
    obtain ⟨n, hn, _⟩ := h.gone change hchange
    refine ⟨?_, hran.frame _ (lt_size_of_get? hn) hnot.1 hnot.2⟩
    rw [hlabels', List.mem_cons, not_or]
    refine ⟨hnot.1, fun hin => ?_⟩
    rcases hran.result_from _ hin with hin | hle
    · exact hnot.2 hin
    · exact absurd (lt_size_of_get? hn) (by omega)
  refine ⟨⟨T', hran.label, hran.presents, ?_⟩, ?_, ?_⟩
  · intro change hchange
    rw [hran.follows.changes] at hchange
    rcases List.mem_append.1 hchange with hnew | hchange
    · obtain ⟨hin, hnot, _⟩ := hran.gone change hnew
      rw [hlabels', List.mem_cons, not_or]
      refine ⟨?_, hnot⟩
      rintro heq
      rw [hlabels, List.nodup_cons, ← heq] at hnodup
      exact hnodup.1 hin
    · exact (hold change hchange).1
  · intro change hchange
    rw [hran.follows.changes] at hchange
    rcases List.mem_append.1 hchange with hnew | hchange
    · exact (hran.gone change hnew).2.2
    · rw [(hold change hchange).2]
      exact h.gone change hchange
  · intro d hd
    rcases hran.follows.diagnostics d hd with hd | hd
    · exact h.slots d hd
    · rw [hd]
      decide

theorem optimizeIn (h : Intact r t c) (hrun : optimizeIn t c = .ok (changed, t', c')) :
    Intact r t' c' :=
  optimizeIn_keeps (fun h => h.foldConstants) (fun warning h => h.warn warning) h hrun

end Intact

/-! ## 2. Optimized trees -/

theorem Tree.Rooted.lt_size (hr : t.Rooted r) {x : NodeId} (hx : t.Reaches r x) :
    x.index < t.size := by
  by_cases hxr : x = r
  · obtain ⟨n, _, hn, _⟩ := hr.top
    exact hxr ▸ lt_size_of_get? hn
  · obtain ⟨_, _, k, _, _, _, hk, _⟩ := hr.held x hx hxr
    exact lt_size_of_get? hk

/-- A rooted tree is optimized, if symbols name declarations that can be
reached from its root. -/
theorem Tree.Rooted.exists_optimize (hr : t.Rooted r) {symbolAt : Resolver}
    (hw : ∀ x symbol d, symbolAt x = some symbol → symbol.declaration = some d → t.Reaches r d)
    (options : Options) : ∃ t' c', optimize t symbolAt options = .ok (t', c') := by
  have hongoing : Walk.Ongoing ⟨symbolAt, options⟩ (t.Below r) t.rank t t
      (.start symbolAt options) := ⟨hr.graded, rfl, rfl⟩
  have hkeeps : symbolAt.Keeps (t.Below r) := fun x symbol d hs hd => Or.inl (hw x symbol d hs hd)
  have hfails := hongoing.failsOnly_optimizeIn hkeeps fun x hx => by
    rw [hr.root] at hx
    cases hx
    exact ⟨Or.inl .refl, hr.lt_size .refl⟩
  obtain ⟨⟨changed, t', c'⟩, h⟩ := hfails.exists_ok fun e he =>
    he.2 fun x symbol d hs hd => hr.lt_size (hw x symbol d hs hd)
  exact ⟨t', c', optimize_eq_ok.2 ⟨changed, h⟩⟩

/-- Optimizing a rooted tree leaves a rooted tree with the same root. What was
replaced or removed can no longer be reached and has no parent, and no slot
was missed. There is such a result whenever symbols name declarations that can
be reached. -/
theorem optimize_rooted (hr : t.Rooted r) (symbolAt : Resolver) (options : Options) :
    ((∀ x symbol d, symbolAt x = some symbol → symbol.declaration = some d → t.Reaches r d) →
      ∃ t' c', optimize t symbolAt options = .ok (t', c')) ∧
    ∀ t' c', optimize t symbolAt options = .ok (t', c') →
      t'.Rooted r ∧
      (∀ change ∈ c'.changes, ¬t'.Reaches r change.node ∧
        ∃ n, t'.get? change.node = some n ∧ n.parent = none) ∧
      ∀ d ∈ c'.diagnostics, d.kind ≠ .slotNotFound := by
  constructor
  · exact fun hw => hr.exists_optimize hw options
  · intro t' c' h
    obtain ⟨changed, h⟩ := optimize_eq_ok.1 h
    have hintact := (Intact.of_rooted hr symbolAt options).optimizeIn h
    exact ⟨hintact.rooted, fun change hchange => ⟨hintact.not_reaches hchange,
      hintact.gone change hchange⟩, hintact.slots⟩

theorem optimize_rooted_sample :
    ∃ t' c', optimize Sample.tree Sample.symbols.resolve Sample.options = .ok (t', c') ∧
      t'.Rooted ⟨13⟩ ∧
      (∀ change ∈ c'.changes, ¬t'.Reaches ⟨13⟩ change.node ∧
        ∃ n, t'.get? change.node = some n ∧ n.parent = none) ∧
      ∀ d ∈ c'.diagnostics, d.kind ≠ .slotNotFound := by
  obtain ⟨hexists, hall⟩ := optimize_rooted (Sample.tree_wellFormed.rooted (r := ⟨13⟩) rfl rfl)
    Sample.symbols.resolve Sample.options
  obtain ⟨t', c', h⟩ := hexists fun x symbol d hs hd => by
    rw [Sample.declaration_eq hs hd]
    have h₁ : Sample.tree.Holds ⟨13⟩ ⟨6⟩ := ⟨_, rfl, by decide⟩
    have h₂ : Sample.tree.Holds ⟨6⟩ ⟨5⟩ := ⟨_, rfl, by decide⟩
    have h₃ : Sample.tree.Holds ⟨5⟩ ⟨4⟩ := ⟨_, rfl, by decide⟩
    exact ((Relation.ReflTransGen.single h₁).tail h₂).tail h₃
  exact ⟨t', c', h, hall t' c' h⟩

end ScriptReduce
