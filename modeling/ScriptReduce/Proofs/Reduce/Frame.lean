/-
ScriptReduce.Proofs.Reduce.Frame: what an optimization does not change.

The store only grows. A node keeps its span, its kind and all that is written
in it but its slots, and what is added is a literal or an empty statement
without a span. A slot loses an occupant only to a reduction that the options
allow, so only an `if` statement, an operator or an identifier ever loses its
place. All of this is asked of each slot and each occurrence in it, as nodes may
be shared and parent links may lead anywhere.
-/
import ScriptReduce.Proofs.Reduce.Steps

namespace ScriptReduce

open ScriptReduce.Tree

variable {st : Setting} {D : NodeId → Prop} {rank : NodeId → Nat} {t t' : Tree}
  {changes : List Change} {holder old : NodeId} {new : Option NodeId}

/-! ## 1. What a slot loses -/

section

variable {α : Type} [DecidableEq α] {P Q : α → Prop}

/-- Every occupant that stands in a slot less often than before is of some
kind. -/
def Slot.LosesOnly (P : α → Prop) (before after : Slot α) : Prop :=
  ∀ x, after.children.count x < before.children.count x → P x

namespace Slot.LosesOnly

variable {a b c : Slot α}

theorem refl (P : α → Prop) (a : Slot α) : LosesOnly P a a := fun _ h => absurd h (Nat.lt_irrefl _)

theorem trans (h : LosesOnly P a b) (h' : LosesOnly P b c) : LosesOnly P a c := by
  intro x hx
  by_cases hlost : b.children.count x < a.children.count x
  · exact h x hlost
  · exact h' x (by omega)

theorem mono (hPQ : ∀ x, P x → Q x) (h : LosesOnly P a b) : LosesOnly Q a b :=
  fun x hx => hPQ x (h x hx)

end Slot.LosesOnly

/-- The same slot by slot, for shapes of the same kind. -/
def Shape.LosesOnly (P : α → Prop) (before after : Shape α) : Prop :=
  List.Forall₂ (Slot.LosesOnly P) before.slots after.slots

namespace Shape.LosesOnly

variable {a b c : Shape α}

theorem refl (P : α → Prop) (a : Shape α) : LosesOnly P a a :=
  List.forall₂_same.2 fun σ _ => .refl P σ

theorem trans (h : LosesOnly P a b) (h' : LosesOnly P b c) : LosesOnly P a c := by
  obtain ⟨hlen, hget⟩ := List.forall₂_iff_get.1 h
  obtain ⟨hlen', hget'⟩ := List.forall₂_iff_get.1 h'
  refine List.forall₂_iff_get.2 ⟨hlen.trans hlen', fun i ha hc => ?_⟩
  exact (hget i ha (hlen ▸ ha)).trans (hget' i (hlen ▸ ha) hc)

theorem mono (hPQ : ∀ x, P x → Q x) (h : LosesOnly P a b) : LosesOnly Q a b :=
  h.imp fun _ _ => .mono hPQ

end Shape.LosesOnly

/-- Putting something in the place of another loses nothing else. -/
theorem count_le_count_replace {x old new : α} (h : x ≠ old) (as : List α) :
    as.count x ≤ (as.replace old new).count x := by
  induction as with
  | nil => simp
  | cons a as ih =>
    rw [Shape.replace_cons_eq]
    split
    · rename_i ha
      rw [ha, List.count_cons_of_ne (Ne.symm h)]
      exact List.count_le_count_cons
    · rw [List.count_cons, List.count_cons]
      omega

namespace Slot

variable {old : α} {before after : Slot α}

theorem losesOnly_of_replace {new : α} (h : after.children = before.children.replace old new) :
    LosesOnly (· = old) before after := by
  intro x hx
  by_contra hne
  have hkept : before.children.count x ≤ (before.children.replace old new).count x :=
    count_le_count_replace hne before.children
  rw [h] at hx
  omega

theorem losesOnly_of_erase (h : after.children = before.children.erase old) :
    LosesOnly (· = old) before after := by
  intro x hx
  by_contra hne
  rw [h, List.count_erase_of_ne hne] at hx
  exact absurd hx (Nat.lt_irrefl _)

end Slot

namespace Shape

variable {old : α}

theorem losesOnly_replace (old new : α) (s : Shape α) :
    LosesOnly (· = old) s (s.replace old new) := by
  have hkeep : ∀ σ : Slot α, Slot.LosesOnly (· = old) σ σ := .refl _
  have hsingle : ∀ a, Slot.LosesOnly (· = old) (.single a) (.single (swap old new a)) := fun a =>
    Slot.losesOnly_of_replace (singleton_swap old new a)
  have hoption : ∀ a : Option α,
      Slot.LosesOnly (· = old) (.optional a) (.optional (a.map (swap old new))) := fun a =>
    Slot.losesOnly_of_replace (toList_map_swap old new a)
  have hsequence : ∀ as : List α,
      Slot.LosesOnly (· = old) (.sequence as) (.sequence (as.replace old new)) := fun as =>
    Slot.losesOnly_of_replace rfl
  have hfirst : Slot.LosesOnly (· = old) (.single old) (.single new) := by
    simpa [swap] using hsingle old
  cases s with
  | binary left op right =>
    by_cases h : left = old <;> simp [LosesOnly, replace, slots, h, hkeep, hsingle, hfirst]
  | call callee arguments =>
    by_cases h : callee = old <;> simp [LosesOnly, replace, slots, h, hkeep, hsequence, hfirst]
  | branch condition whenTrue whenFalse =>
    by_cases h : condition = old <;> by_cases h' : whenTrue = old <;>
      simp [LosesOnly, replace, slots, h, h', hkeep, hoption, hfirst]
  | declaration name initializer =>
    by_cases h : name = old <;> simp [LosesOnly, replace, slots, h, hkeep, hoption, hfirst]
  | _ => simp [LosesOnly, replace, slots, hsingle, hsequence]

theorem losesOnly_vacate {s rest : Shape α} (h : s.vacate old = some rest) :
    LosesOnly (· = old) s rest := by
  have hkeep : ∀ σ : Slot α, Slot.LosesOnly (· = old) σ σ := .refl _
  have hoption : ∀ a : Option α,
      Slot.LosesOnly (· = old) (.optional a) (.optional (clear old a)) := fun a =>
    Slot.losesOnly_of_erase (toList_clear old a)
  have hsequence : ∀ as : List α,
      Slot.LosesOnly (· = old) (.sequence as) (.sequence (as.erase old)) := fun as =>
    Slot.losesOnly_of_erase rfl
  cases s with
  | call callee arguments =>
    by_cases hc : callee = old
    · simp [vacate, hc] at h
    · simp only [vacate, hc, if_false, Option.some.injEq] at h
      subst h
      simp [LosesOnly, slots, hkeep, hsequence]
  | branch condition whenTrue whenFalse =>
    by_cases hc : condition = old ∨ whenTrue = old
    · simp [vacate, hc] at h
    · simp only [vacate, hc, if_false, Option.some.injEq] at h
      subst h
      simp [LosesOnly, slots, hkeep, hoption]
  | declaration name initializer =>
    by_cases hc : name = old
    · simp [vacate, hc] at h
    · simp only [vacate, hc, if_false, Option.some.injEq] at h
      subst h
      simp [LosesOnly, slots, hkeep, hoption]
  | sourceFile | block | declarationList | other =>
    simp only [vacate, Option.some.injEq] at h
    subst h
    simp [LosesOnly, slots, hsequence]
  | _ => simp [vacate] at h

end Shape

end

/-- Giving a slot away loses one occupant. -/
theorem Shape.losesOnly_exchange (old : NodeId) (new : Option NodeId) (s : Shape NodeId) :
    LosesOnly (· = old) s (s.exchange old new) := by
  cases new with
  | some m => exact losesOnly_replace old m s
  | none =>
    cases hv : s.vacate old with
    | none =>
      rw [exchange, hv]
      exact .refl _ s
    | some rest =>
      rw [exchange, hv]
      exact losesOnly_vacate hv

theorem Shape.IsLeaf.of_bare {s s' : Shape NodeId} (hs : s.IsLeaf) (hb : s'.bare = s.bare) :
    s'.IsLeaf := by
  rcases hs with ⟨l, rfl⟩ | rfl
  · cases s' <;> simp [bare] at hb
    exact Or.inl ⟨_, rfl⟩
  · cases s' <;> simp [bare] at hb
    exact Or.inr rfl

/-! ## 2. The frame of a run -/

/-- A tree grows out of another, and its slots have lost only occupants of some
kind. What was added are leaves. -/
structure Tree.Frames (t : Tree) (P : NodeId → Prop) (t' : Tree) : Prop extends t.Grows t' where
  slots : ∀ x n n', t.get? x = some n → t'.get? x = some n' → n.shape.LosesOnly P n'.shape
  added : ∀ x n', t.size ≤ x.index → t'.get? x = some n' → n'.shape.IsLeaf ∧ n'.span = none

namespace Tree.Frames

variable {P Q : NodeId → Prop} {u : Tree}

theorem refl (P : NodeId → Prop) (t : Tree) : t.Frames P t where
  toGrows := .refl t
  slots x n n' hn hn' := by
    rw [hn] at hn'
    cases hn'
    exact .refl P n.shape
  added x n' hx hn' := absurd (lt_size_of_get? hn') (by omega)

theorem trans (h : t.Frames P u) (h' : u.Frames P t') : t.Frames P t' where
  toGrows := h.toGrows.trans h'.toGrows
  slots x n n' hn hn' := by
    obtain ⟨k, hk, _⟩ := h.kept x n hn
    exact (h.slots x n k hn hk).trans (h'.slots x k n' hk hn')
  added x n' hx hn' := by
    by_cases hlater : u.size ≤ x.index
    · exact h'.added x n' hlater hn'
    · -- a leaf that was added before keeps its kind
      obtain ⟨k, hk⟩ := exists_get? (Nat.lt_of_not_le hlater)
      obtain ⟨hleaf, hspan⟩ := h.added x k hx hk
      obtain ⟨k', hk', hb, hs⟩ := h'.kept x k hk
      rw [hn'] at hk'
      cases hk'
      exact ⟨hleaf.of_bare hb, hs.trans hspan⟩

theorem mono (hPQ : ∀ x, P x → Q x) (h : t.Frames P t') : t.Frames Q t' where
  toGrows := h.toGrows
  slots x n n' hn hn' := (h.slots x n n' hn hn').mono hPQ
  added := h.added

theorem push {s : Shape NodeId} (hs : s.IsLeaf) : t.Frames P (t.push ⟨s, none, none⟩) where
  toGrows := .push t _
  slots x n n' hn hn' := by
    rw [get?_push_of_ne (ne_next_of_get? hn), hn] at hn'
    cases hn'
    exact .refl P n.shape
  added x n' hx hn' := by
    rw [get?_push] at hn'
    split at hn'
    · cases hn'
      exact ⟨hs, rfl⟩
    · exact absurd (lt_size_of_get? hn') (by omega)

theorem relinked (h : t.Relinked holder old new t') : t.Frames (· = old) t' where
  toGrows := .relinked h
  slots x n n' hn hn' := by
    rw [h.get, hn] at hn'
    cases hn'
    simp only [relink]
    split
    · exact Shape.losesOnly_exchange old new n.shape
    · exact .refl _ n.shape
  added x n' hx hn' := by
    have := lt_size_of_get? hn'
    have := h.size
    omega

end Tree.Frames

/-- A step takes one occupant out of its slot. -/
theorem Step.frames {change : Change} (h : Step st t change t') :
    t.Frames (· = change.node) t' := by
  obtain ⟨holder, _, hm⟩ := h.moves
  generalize change.replacement = new at hm
  cases hm with
  | leaf leaf relinked => exact (Frames.push leaf).trans (.relinked relinked)
  | branch _ _ relinked => exact .relinked relinked
  | vacated _ _ relinked => exact .relinked relinked

/-- Steps take the nodes out of their slots that give way. -/
theorem Steps.frames (h : Steps st D t changes t') :
    t.Frames (fun x => ∃ change ∈ changes, x = change.node) t' := by
  induction h with
  | start => exact .refl _ t
  | vain l _ ih => exact ih.trans (.push (.inl ⟨l, rfl⟩))
  | @next changes change u t' _ _ step ih =>
    refine (ih.mono ?_).trans (step.frames.mono ?_)
    · rintro x ⟨earlier, hearlier, rfl⟩
      exact ⟨earlier, List.mem_cons_of_mem change hearlier, rfl⟩
    · rintro x rfl
      exact ⟨change, List.mem_cons_self, rfl⟩

/-- The frame of an optimization, whatever the parent links of the tree are and
however its nodes are shared. The root stays, and every node keeps its span and
its kind, with all that is written in it but its slots. What is added is a
literal or an empty statement without a span. A slot loses an occupant only if
that is an `if` statement, an operator or an identifier and the options allow to
reduce it. There is a result, unless a symbol names a declaration that is no
node of the tree. -/
theorem optimize_frames (ha : t.Acyclic) (hc : t.Closed Everywhere)
    (hroot : ∀ r, t.root = some r → r.index < t.size) (symbolAt : Resolver) (options : Options) :
    (symbolAt.Within t → ∃ t' c', optimize t symbolAt options = .ok (t', c')) ∧
    ∀ t' c', optimize t symbolAt options = .ok (t', c') → t.Frames (t.GivesWay options) t' := by
  have hg : t.Graded Everywhere t.rank t.size := ha.graded hc
  refine ⟨fun hw => hg.exists_optimize hroot hw options, fun t' c' hrun => ?_⟩
  have hsteps : Steps ⟨symbolAt, options⟩ Everywhere t c'.changes t' :=
    optimize_steps hg t.encloses_everywhere (fun r hr => ⟨trivial, hroot r hr⟩) hrun
  refine hsteps.frames.mono ?_
  rintro x ⟨change, hchange, rfl⟩
  exact hsteps.givesWay hg change hchange

namespace Sample

theorem mislinked_file {c' : Context}
    (h : optimize mislinked symbols.resolve options = .ok (t', c')) :
    t'.shape ⟨13⟩ = .ok (.sourceFile [⟨6⟩, ⟨11⟩]) := by
  have hfile : (optimize mislinked symbols.resolve options).map
      (fun result => result.1.shape ⟨13⟩) = .ok (.ok (.sourceFile [⟨6⟩, ⟨11⟩])) := by
    decide +kernel
  rw [h] at hfile
  exact Except.ok.inj hfile

end Sample

/-- The source file loses its `if` statement, though links are wrong. -/
theorem optimize_frames_mislinked :
    ∃ t' c', optimize Sample.mislinked Sample.symbols.resolve Sample.options = .ok (t', c') ∧
      Sample.mislinked.Frames (Sample.mislinked.GivesWay Sample.options) t' ∧
      t'.shape ⟨13⟩ = .ok (.sourceFile [⟨6⟩, ⟨11⟩]) := by
  obtain ⟨hexists, hall⟩ := optimize_frames Sample.mislinked_unshared.acyclic
    Sample.mislinked_unshared.closed (fun r hr => by cases hr; decide) Sample.symbols.resolve
    Sample.options
  obtain ⟨t', c', hrun⟩ := hexists Sample.symbols_within_mislinked
  exact ⟨t', c', hrun, hall t' c' hrun, Sample.mislinked_file hrun⟩

end ScriptReduce
