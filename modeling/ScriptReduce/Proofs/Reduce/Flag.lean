/-
ScriptReduce.Proofs.Reduce.Flag: the flag of a run is exact.

A run sets its flag when it has made a step (`foldConstants_makes`). Without a
step nothing has happened to the tree, but that literals for which there was no
slot were added to the store. With a step something has: slots are only ever
given to nodes of lower rank, or emptied. So what a node holds, counted by
rank, never gets more, and it gets less at the holder of the last step
(`Steps.lightens`). No later step can undo an earlier one, also where nodes are
shared and one slot is given away several times.
-/
import ScriptReduce.Proofs.Reduce.Makes
import ScriptReduce.Proofs.Tree.InPlace
import Mathlib.Algebra.GroupWithZero.Nat

namespace ScriptReduce

open ScriptReduce.Tree Relation

variable {st : Setting} {D : NodeId → Prop} {rank : NodeId → Nat} {limit : Nat}
  {t t₀ t' u : Tree} {c c' : Context} {change : Change} {changes : List Change}

/-! ## 1. Slots get lighter -/

/-- What a shape holds, counted by rank. -/
def Shape.load (rank : NodeId → Nat) (s : Shape NodeId) : Nat :=
  (s.children.map fun x => rank x + 1).sum

/-- A slot given to a node of lower rank, or emptied, makes a shape lighter. -/
theorem Shape.FirstExchanged.load_lt {old : NodeId} {new : Option NodeId} {s s' : Shape NodeId}
    (h : s.FirstExchanged old new s') (hlow : ∀ m, new = some m → rank m < rank old) :
    s'.load rank < s.load rank := by
  obtain ⟨before, after, hs, _, hs'⟩ := h.children
  unfold Shape.load
  rw [hs, hs']
  cases new with
  | none => simp
  | some m =>
    have := hlow m rfl
    simp
    omega

/-- A step makes its holder lighter and leaves the shapes of all other nodes. -/
theorem Step.lightens (h : Step st t change t') (hg : t.Graded Everywhere rank limit) :
    ∃ holder, (∃ n, t.get? holder = some n ∧ change.node ∈ n.shape.children) ∧
      ∀ y n n', t.get? y = some n → t'.get? y = some n' →
        (y ≠ holder → n'.shape = n.shape) ∧
          (y = holder → n'.shape.load rank < n.shape.load rank) := by
  obtain ⟨holder, hl, hm⟩ := h.moves
  refine ⟨holder, hl.1, fun y n n' hn hn' => ?_⟩
  rw [hm.get?_of_some hn] at hn'
  cases hn'
  constructor
  · intro hy
    simp [relink, hy]
  · intro hy
    subst hy
    have hexchanged := Shape.firstExchanged_exchange ((holds_iff hn).1 hl.1) (hm.exchanges hn)
    simp only [relink, if_true]
    exact hexchanged.load_lt fun m hm => ((h.graded hg trivial).2.2 m hm).2

namespace Steps

/-- No node gets heavier, whatever steps are made. -/
theorem load_le (h : Steps st D t changes t') (hg : t.Graded Everywhere rank limit) :
    ∀ y n n', t.get? y = some n → t'.get? y = some n' → n'.shape.load rank ≤ n.shape.load rank := by
  induction h with
  | start =>
    intro y n n' hn hn'
    rw [hn] at hn'
    cases hn'
    exact Nat.le_refl _
  | vain l steps ih =>
    intro y n n' hn hn'
    obtain ⟨k, hk, _⟩ := steps.grows.kept y n hn
    rw [Tree.withLiteral, get?_push_of_ne (ne_next_of_get? hk)] at hn'
    exact ih y n n' hn hn'
  | @next _ _ u t' steps _ step ih =>
    intro y n n' hn hn'
    obtain ⟨k, hk, _⟩ := steps.grows.kept y n hn
    refine Nat.le_trans ?_ (ih y n k hn hk)
    obtain ⟨holder, _, hlight⟩ := step.lightens (steps.graded hg)
    obtain ⟨hother, hholder⟩ := hlight y k n' hk hn'
    by_cases hy : y = holder
    · exact Nat.le_of_lt (hholder hy)
    · rw [hother hy]

/-- If there was a step, some node got lighter that was there before. -/
theorem exists_lighter (h : Steps st D t changes t') (hg : t.Graded Everywhere rank t.size)
    (hne : changes ≠ []) : ∃ y n n', t.get? y = some n ∧ t'.get? y = some n' ∧
      n'.shape.load rank < n.shape.load rank := by
  induction h with
  | start => exact absurd rfl hne
  | vain l _ ih =>
    -- a literal that was added moves no other node
    obtain ⟨y, n, k, hn, hk, hlt⟩ := ih hne
    exact ⟨y, n, k, hn, by rw [Tree.withLiteral, get?_push_of_ne (ne_next_of_get? hk), hk], hlt⟩
  | @next _ _ u t' steps _ step =>
    have hgu := steps.graded hg
    obtain ⟨holder, ⟨k, hk, hmem⟩, hlight⟩ := step.lightens hgu
    -- what holds something is no leaf, so it is none of the nodes added on the way
    have hleaf : ¬k.shape.IsLeaf := by
      intro hleaf
      rw [hleaf.children] at hmem
      cases hmem
    obtain ⟨n, hn⟩ := exists_get? (hgu.lt_limit_of_not_leaf (shape_of_get? hk) hleaf)
    obtain ⟨n', hn', _⟩ := step.grows.kept holder k hk
    have hlt := (hlight holder k n' hk hn').2 rfl
    exact ⟨holder, n, n', hn, hn', Nat.lt_of_lt_of_le hlt (steps.load_le hg holder n k hn hk)⟩

end Steps

/-! ## 2. The flag is exact -/

/-- Whether a tree is another one with literals added to the store that nothing
leads to and that have no parent. -/
structure Tree.OnlyGainsLiterals (t t' : Tree) : Prop where
  root : t'.root = t.root
  kept : ∀ y n, t.get? y = some n → t'.get? y = some n
  added : ∀ y n, t.get? y = none → t'.get? y = some n → ∃ l, n = ⟨.literal l, none, none⟩

theorem Steps.onlyGainsLiterals (h : Steps st D t [] t') : t.OnlyGainsLiterals t' := by
  generalize hchanges : ([] : List Change) = changes at h
  induction h with
  | start =>
    refine ⟨rfl, fun y n hn => hn, fun y n hn hn' => ?_⟩
    rw [hn] at hn'
    cases hn'
  | vain l _ ih =>
    obtain ⟨hroot, hkept, hadded⟩ := ih hchanges
    refine ⟨hroot, fun y n hn => ?_, fun y n hn hn' => ?_⟩
    · rw [Tree.withLiteral, get?_push_of_ne (ne_next_of_get? (hkept y n hn))]
      exact hkept y n hn
    · rw [Tree.withLiteral, get?_push] at hn'
      split at hn'
      · exact ⟨l, (Option.some.inj hn').symm⟩
      · exact hadded y n hn hn'
  | next => cases hchanges

/-- A run that says it changed nothing has changed no node that was there, and
one that says it did has changed the slots of one. -/
theorem foldConstants_flag (ha : t.Acyclic) (hc : t.Closed Everywhere)
    (hroot : ∀ r, t.root = some r → r.index < t.size) (c : Context) :
    (c.symbolAt.Within t → ∃ changed t' c', foldConstants t c = .ok (changed, t', c')) ∧
    ∀ changed t' c', foldConstants t c = .ok (changed, t', c') →
      (changed = false → t.OnlyGainsLiterals t') ∧
      (changed = true → ∃ y n n', t.get? y = some n ∧ t'.get? y = some n' ∧
        n'.shape.slots ≠ n.shape.slots) := by
  constructor
  · intro hw
    have hon : Walk.Ongoing c.setting Everywhere t.rank t t c := ⟨ha.graded hc, rfl, rfl⟩
    have hfails := hon.failsOnly_foldConstants c.symbolAt.keeps_everywhere
      fun r hr => ⟨trivial, hroot r hr⟩
    obtain ⟨⟨changed, t', c'⟩, hrun⟩ := hfails.exists_ok fun e he => he.2 hw
    exact ⟨changed, t', c', hrun⟩
  · intro changed t' c' hrun
    obtain ⟨changes, hsteps, hchanged⟩ := foldConstants_makes ha hc hroot hrun
    constructor
    · intro hfalse
      have hnil : changes = [] := by simpa [hfalse] using hchanged
      subst hnil
      exact hsteps.onlyGainsLiterals
    · intro htrue
      have hne : changes ≠ [] := by simpa [htrue] using hchanged
      obtain ⟨y, n, n', hn, hn', hlt⟩ := hsteps.exists_lighter (ha.graded hc) hne
      refine ⟨y, n, n', hn, hn', fun hslots => ?_⟩
      -- the load is read off the slots, so equal slots weigh the same
      unfold Shape.load Shape.children at hlt
      rw [hslots] at hlt
      exact Nat.lt_irrefl _ hlt

namespace Sample

/-- The program `!true; !true;` with one node for both statements. -/
def doubled : Tree where
  nodes := #[
    ⟨.literal (.boolean true), some ⟨1⟩, none⟩,
    ⟨.unary .not ⟨0⟩, some ⟨2⟩, none⟩,
    ⟨.expressionStatement ⟨1⟩, some ⟨3⟩, none⟩,
    ⟨.sourceFile [⟨2⟩, ⟨2⟩], none, none⟩]
  root := some ⟨3⟩

/-- The same with the parent link of the expression missing. -/
def unlinked : Tree where
  nodes := #[
    ⟨.literal (.boolean true), some ⟨1⟩, none⟩,
    ⟨.unary .not ⟨0⟩, none, none⟩,
    ⟨.expressionStatement ⟨1⟩, some ⟨3⟩, none⟩,
    ⟨.sourceFile [⟨2⟩, ⟨2⟩], none, none⟩]
  root := some ⟨3⟩

/-- The flag of a run that gives a result. -/
def flag? (t : Tree) : Option Bool :=
  (foldConstants t (.start (fun _ => none) options)).toOption.map Prod.fst

end Sample

/-- Folding the shared expression is a change. Where it has no parent it is
evaluated twice in vain, and two literals are left in the store. -/
theorem foldConstants_flag_doubled :
    (∃ t' c', foldConstants Sample.doubled (.start (fun _ => none) Sample.options)
        = .ok (true, t', c') ∧ ∃ y n n', Sample.doubled.get? y = some n ∧ t'.get? y = some n' ∧
      n'.shape.slots ≠ n.shape.slots) ∧
    ∃ t' c', foldConstants Sample.unlinked (.start (fun _ => none) Sample.options)
      = .ok (false, t', c') ∧ Sample.unlinked.OnlyGainsLiterals t' := by
  have hwithin : ∀ t : Tree, Resolver.Within (fun _ => none) t := by
    intro t x symbol d h
    cases h
  constructor
  · have hlayered : Sample.doubled.Layered := ⟨by decide +kernel, by decide +kernel⟩
    obtain ⟨hrun, hflag⟩ := foldConstants_flag hlayered.acyclic hlayered.closed
      (fun r hr => by cases hr; decide) (.start (fun _ => none) Sample.options)
    obtain ⟨changed, t', c', hrun⟩ := hrun (hwithin _)
    have hchanged : Sample.flag? Sample.doubled = some true := by decide +kernel
    rw [Sample.flag?, hrun] at hchanged
    cases hchanged
    exact ⟨t', c', hrun, (hflag _ _ _ hrun).2 rfl⟩
  · have hlayered : Sample.unlinked.Layered := ⟨by decide +kernel, by decide +kernel⟩
    obtain ⟨hrun, hflag⟩ := foldConstants_flag hlayered.acyclic hlayered.closed
      (fun r hr => by cases hr; decide) (.start (fun _ => none) Sample.options)
    obtain ⟨changed, t', c', hrun⟩ := hrun (hwithin _)
    have hchanged : Sample.flag? Sample.unlinked = some false := by decide +kernel
    rw [Sample.flag?, hrun] at hchanged
    cases hchanged
    exact ⟨t', c', hrun, (hflag _ _ _ hrun).1 rfl⟩

end ScriptReduce
