/-
ScriptReduce.Proofs.Reduce.Dangling: an `else` stays with its `if`.

The text of a tree gives an `else` to the last `if` before it that has none. A
statement is open if there is such an `if` at its end, so the statement before an
`else` must not be open (`Tree.Dangling`). A reduction may empty the `else` of an
`if` statement, or put a statement in the place of another, and both may happen
at the end of a chain of any length.

A step opens no statement that was closed, in a part of a tree without
dangling `else` (`Step.open_of_open`): an `if` statement that leaves its slot
empty was open itself, and one that gives way to an open branch was open too,
for a branch before an `else` is closed. So the step makes no `else` dangle.
-/
import ScriptReduce.Proofs.Reduce.Steps

namespace ScriptReduce

open ScriptReduce.Tree Relation

variable {st : Setting} {D : NodeId → Prop} {rank : NodeId → Nat} {limit : Nat}
  {t t' : Tree} {change : Change} {changes : List Change} {old x : NodeId} {new : Option NodeId}

/-! ## 1. Open statements -/

/-- A statement that ends in an `if` statement without `else`. -/
inductive Tree.Open (t : Tree) : NodeId → Prop where
  | bare {x c a : NodeId} (shape : t.shape x = .ok (.branch c a none)) : Open t x
  | behind {x c a b : NodeId} (shape : t.shape x = .ok (.branch c a (some b)))
    (rest : Open t b) : Open t x

/-- An `if` statement whose `else` stands behind an open statement. -/
def Tree.Dangling (t : Tree) (x : NodeId) : Prop :=
  ∃ c a b, t.shape x = .ok (.branch c a (some b)) ∧ t.Open a

/-- A tree whose text gives the `else` of some `if` statement to another. -/
def Tree.Ambiguous (t : Tree) : Prop :=
  ∃ r x, t.root = some r ∧ t.Reaches r x ∧ t.Dangling x

theorem Tree.Open.isBranch (h : t.Open x) : t.IsBranch x := by
  cases h with
  | bare shape => exact ⟨_, _, _, shape⟩
  | behind shape _ => exact ⟨_, _, _, shape⟩

/-- A statement is open only by the `if` statements of its tree. -/
theorem Tree.Open.of_shapes (hshapes : ∀ x c a b, t'.shape x = .ok (.branch c a b) →
    t.shape x = .ok (.branch c a b)) (h : t'.Open x) : t.Open x := by
  induction h with
  | bare shape => exact .bare (hshapes _ _ _ _ shape)
  | behind shape _ ih => exact .behind (hshapes _ _ _ _ shape) ih

theorem Tree.shape_withLiteral {l : Literal} {c a : NodeId} {b : Option NodeId}
    (h : (t.withLiteral l).shape x = .ok (.branch c a b)) : t.shape x = .ok (.branch c a b) := by
  obtain ⟨n, hn, hs⟩ := shape_eq_ok.1 h
  rw [withLiteral, get?_push] at hn
  split at hn
  · cases hn
    cases hs
  · exact shape_eq_ok.2 ⟨n, hn, hs⟩

/-! ## 2. What a step does to `if` statements -/

theorem Shape.map_swap_cases (old m : NodeId) (b : Option NodeId) :
    b.map (swap old m) = b ∨ b = some old ∧ b.map (swap old m) = some m := by
  cases b with
  | none => exact Or.inl rfl
  | some b =>
    by_cases hb : b = old
    · exact Or.inr ⟨by rw [hb], by simp [swap, hb]⟩
    · exact Or.inl (by simp [swap, hb])

theorem Shape.clear_cases (old : NodeId) (b : Option NodeId) :
    clear old b = b ∨ b = some old ∧ clear old b = none := by
  cases b with
  | none => exact Or.inl rfl
  | some b =>
    by_cases hb : b = old
    · exact Or.inr ⟨by rw [hb], by simp [clear, hb]⟩
    · exact Or.inl (by simp [clear, hb])

/-- A slot given away in an `if` statement is one of its branches, or something
else. -/
theorem Shape.branch_exchange {c a c' a' : NodeId} {b b' : Option NodeId}
    (h : (Shape.branch c a b).exchange old new = .branch c' a' b') :
    (b' = b ∨ b = some old ∧ b' = new) ∧ (a' = a ∨ a = old ∧ new = some a' ∧ b' = b) := by
  cases new with
  | some m =>
    simp only [exchange, replace] at h
    split at h
    · cases h
      exact ⟨Or.inl rfl, Or.inl rfl⟩
    · split at h
      · rename_i ha
        cases h
        exact ⟨Or.inl rfl, Or.inr ⟨ha, rfl, rfl⟩⟩
      · cases h
        exact ⟨map_swap_cases old m b, Or.inl rfl⟩
  | none =>
    simp only [exchange, vacate] at h
    split at h
    · cases h
      exact ⟨Or.inl rfl, Or.inl rfl⟩
    · cases h
      exact ⟨clear_cases old b, Or.inl rfl⟩

theorem Tree.Relinked.branch_cases {holder c' a' : NodeId} {b' : Option NodeId}
    (hr : t.Relinked holder old new t') (h : t'.shape x = .ok (.branch c' a' b')) :
    ∃ c a b, t.shape x = .ok (.branch c a b) ∧ (b' = b ∨ b = some old ∧ b' = new) ∧
      (a' = a ∨ a = old ∧ new = some a' ∧ b' = b) := by
  obtain ⟨n', hn', hs⟩ := shape_eq_ok.1 h
  rw [hr.get] at hn'
  obtain ⟨n, hn, rfl⟩ := Option.map_eq_some_iff.1 hn'
  rw [shape_of_get? hn]
  simp only [relink] at hs
  split at hs
  · obtain ⟨c, a, b, hbranch⟩ : ∃ c a b, n.shape = .branch c a b := by
      rw [← Shape.bare_eq_branch, ← Shape.bare_exchange old new, hs]
      rfl
    rw [hbranch] at hs ⊢
    exact ⟨c, a, b, rfl, Shape.branch_exchange hs⟩
  · exact ⟨c', a', b', by rw [hs], Or.inl rfl, Or.inl rfl⟩

/-- After a step an `if` statement has the branches that it had, but for the
one that gave way. -/
theorem Step.branch_cases {c' a' : NodeId} {b' : Option NodeId} (h : Step st t change t')
    (hs : t'.shape x = .ok (.branch c' a' b')) (hx : x.index < t.size) :
    ∃ c a b, t.shape x = .ok (.branch c a b) ∧
      (b' = b ∨ b = some change.node ∧ b' = change.replacement) ∧
      (a' = a ∨ a = change.node ∧ change.replacement = some a' ∧ b' = b) := by
  obtain ⟨holder, _, hm⟩ := h.moves
  generalize change.replacement = new at hm
  cases hm with
  | leaf _ relinked =>
    obtain ⟨c, a, b, hs, hcases⟩ := relinked.branch_cases hs
    obtain ⟨n, hn, hshape⟩ := shape_eq_ok.1 hs
    rw [get?_push_of_ne (ne_next hx)] at hn
    exact ⟨c, a, b, shape_eq_ok.2 ⟨n, hn, hshape⟩, hcases⟩
  | branch _ _ relinked => exact relinked.branch_cases hs
  | vacated _ _ relinked => exact relinked.branch_cases hs

/-- A node that gives way to an open statement is open, or its `else` dangles.
So is a node that leaves its slot empty. -/
theorem Step.open_node (h : Step st t change t') (hclear : ¬t.Dangling change.node)
    (hopen : ∀ m, change.replacement = some m → t.Open m) : t.Open change.node := by
  have hnone : ∀ {v : Value} {c a : NodeId} {b : Option NodeId},
      t.shape change.node = .ok (.branch c a b) → chosen v a b = none → t.Open change.node := by
    intro v c a b hs hchosen
    unfold chosen at hchosen
    split at hchosen
    · cases hchosen
    · rw [hchosen] at hs
      exact .bare hs
  cases h with
  | folded | filled =>
    -- a new node has no shape yet
    obtain ⟨_, _, _, hs⟩ := (hopen t.next rfl).isBranch
    exact absurd (lt_size_of_shape hs) (Nat.lt_irrefl _)
  | @selected _ old c a s b _ _ _ shape _ chosen _ =>
    have hs : t.Open s := hopen s rfl
    cases b with
    | none => exact .bare shape
    | some b =>
      rcases chosen_mem chosen with rfl | hb
      · exact absurd ⟨c, s, b, shape, hs⟩ hclear
      · cases hb
        exact .behind shape hs
  | dropped _ shape _ chosen _ _ _ => exact hnone shape chosen

/-! ## 3. No `else` begins to dangle -/

/-- A step opens no statement. -/
theorem Step.open_of_open (h : Step st t change t') (hg : t'.Graded Everywhere rank limit)
    (hlimit : limit ≤ t.size) (hD : t'.Encloses D) (hnode : D change.node)
    (hclear : ∀ y, D y → ¬t.Dangling y) (hopen : t'.Open x) : D x → t.Open x := by
  induction hopen with
  | @bare x c' a' shape =>
    intro hx
    have hlt := Nat.lt_of_lt_of_le (IsBranch.lt_limit ⟨_, _, _, shape⟩ hg) hlimit
    obtain ⟨c, a, b, hs, hb | ⟨hb, hreplacement⟩, _⟩ := h.branch_cases shape hlt
    · exact .bare (hb ▸ hs)
    · rw [hb] at hs
      refine .behind hs (h.open_node (hclear _ hnode) ?_)
      simp [← hreplacement]
  | @behind x c' a' b' shape rest ih =>
    intro hx
    have hlt := Nat.lt_of_lt_of_le (IsBranch.lt_limit ⟨_, _, _, shape⟩ hg) hlimit
    have hrest : t.Open b' := ih (hD.down x b' hx (holds_of_branch shape (Or.inr rfl)))
    obtain ⟨c, a, b, hs, hb | ⟨hb, hreplacement⟩, _⟩ := h.branch_cases shape hlt
    · exact .behind (hb ▸ hs) hrest
    · rw [hb] at hs
      refine .behind hs (h.open_node (hclear _ hnode) fun m hm => ?_)
      rw [hm] at hreplacement
      cases hreplacement
      exact hrest

/-- A step makes no `else` dangle. -/
theorem Step.clear (h : Step st t change t') (hg : t'.Graded Everywhere rank limit)
    (hlimit : limit ≤ t.size) (hD : t'.Encloses D) (hnode : D change.node)
    (hclear : ∀ y, D y → ¬t.Dangling y) : ∀ y, D y → ¬t'.Dangling y := by
  rintro x hx ⟨c', a', b', shape, hopen⟩
  have hlt := Nat.lt_of_lt_of_le (IsBranch.lt_limit ⟨_, _, _, shape⟩ hg) hlimit
  have hthen : t.Open a' :=
    h.open_of_open hg hlimit hD hnode hclear hopen
      (hD.down x a' hx (holds_of_branch shape (Or.inl rfl)))
  obtain ⟨c, a, b, hs, hb, ha | ⟨ha, hreplacement, hkept⟩⟩ := h.branch_cases shape hlt
  · -- the branch is the same, and there was an `else` before
    cases b with
    | none => rcases hb with hb | ⟨hb, _⟩ <;> cases hb
    | some b => exact hclear x hx ⟨c, a, b, hs, ha ▸ hthen⟩
  · rw [← hkept, ha] at hs
    refine hclear x hx ⟨c, _, b', hs, h.open_node (hclear _ hnode) fun m hm => ?_⟩
    rw [hreplacement] at hm
    cases hm
    exact hthen

theorem Steps.clear (h : Steps st D t changes t') (hg : t.Graded Everywhere rank t.size)
    (hD : t.Encloses D) (hclear : ∀ y, D y → ¬t.Dangling y) : ∀ y, D y → ¬t'.Dangling y := by
  induction h with
  | start => exact hclear
  | vain l _ ih =>
    rintro x hx ⟨c, a, b, hs, hopen⟩
    exact ih x hx ⟨c, a, b, shape_withLiteral hs, hopen.of_shapes fun _ _ _ _ => shape_withLiteral⟩
  | next steps inside step ih =>
    have hsteps := steps.next inside step
    exact step.clear (hsteps.graded hg) steps.grows.size (hsteps.encloses hD) inside ih

/-- An optimization makes no tree ambiguous. There is a result, unless a symbol
names a declaration that is no node of the tree. -/
theorem optimize_unambiguous (ha : t.Acyclic) (hc : t.Closed Everywhere)
    (hroot : ∀ r, t.root = some r → r.index < t.size) (hclear : ¬t.Ambiguous)
    (symbolAt : Resolver) (options : Options) :
    (symbolAt.Within t → ∃ t' c', optimize t symbolAt options = .ok (t', c')) ∧
    ∀ t' c', optimize t symbolAt options = .ok (t', c') → ¬t'.Ambiguous := by
  have hg : t.Graded Everywhere t.rank t.size := ha.graded hc
  refine ⟨fun hw => hg.exists_optimize hroot hw options, ?_⟩
  rintro t' c' hrun ⟨r, x, hr', hx, hdangling⟩
  have hgrows : t.Grows t' :=
    (optimize_steps hg t.encloses_everywhere (fun r hr => ⟨trivial, hroot r hr⟩) hrun).grows
  have hr : t.root = some r := hgrows.root ▸ hr'
  -- no `else` dangles in what is below the root, now or later
  have hsteps : Steps ⟨symbolAt, options⟩ (t.Below r) t c'.changes t' := by
    refine optimize_steps hg (t.encloses_below r) (fun r₀ hr₀ => ?_) hrun
    rw [hr] at hr₀
    cases hr₀
    exact ⟨Or.inl .refl, hroot r hr⟩
  have hstart : ∀ y, t.Below r y → ¬t.Dangling y := by
    rintro y (hy | hlater) hd
    · exact hclear ⟨r, y, hr, hy, hd⟩
    · obtain ⟨_, _, _, hs, _⟩ := hd
      exact absurd (lt_size_of_shape hs) (Nat.not_lt.2 hlater)
  have hin : t.Below r x :=
    (hsteps.encloses (t.encloses_below r)).of_reaches (Or.inl .refl) hx
  exact hsteps.clear hg (t.encloses_below r) hstart x hin hdangling

namespace Sample

/-- The program `if (a) if (false) ; else if (true) ; else ; else ;`. -/
def chain : Tree where
  nodes := #[
    ⟨.identifier "a", some ⟨9⟩, none⟩,
    ⟨.literal (.boolean false), some ⟨7⟩, none⟩,
    ⟨.emptyStatement, some ⟨7⟩, none⟩,
    ⟨.literal (.boolean true), some ⟨6⟩, none⟩,
    ⟨.emptyStatement, some ⟨6⟩, none⟩,
    ⟨.emptyStatement, some ⟨6⟩, none⟩,
    ⟨.branch ⟨3⟩ ⟨4⟩ (some ⟨5⟩), some ⟨7⟩, none⟩,
    ⟨.branch ⟨1⟩ ⟨2⟩ (some ⟨6⟩), some ⟨9⟩, none⟩,
    ⟨.emptyStatement, some ⟨9⟩, none⟩,
    ⟨.branch ⟨0⟩ ⟨7⟩ (some ⟨8⟩), some ⟨10⟩, none⟩,
    ⟨.sourceFile [⟨9⟩], none, none⟩]
  root := some ⟨10⟩

theorem chain_layered : chain.Layered := ⟨by decide +kernel, by decide +kernel⟩

/-- Each of its `if` statements has an `else`. -/
theorem chain_unambiguous : ¬chain.Ambiguous := by
  have helse : ∀ i : Fin chain.nodes.size, (chain.nodeAt i).shape.bare = .branch () () none →
      (chain.nodeAt i).shape.children.length = 3 := by
    decide +kernel
  have hclosed : ∀ {x}, ¬chain.Open x := by
    intro x hopen
    induction hopen with
    | bare shape =>
      obtain ⟨n, hn, hs⟩ := shape_eq_ok.1 shape
      obtain ⟨i, rfl, rfl⟩ := exists_fin hn
      have hlength := helse i (by rw [hs]; rfl)
      rw [hs] at hlength
      cases hlength
    | behind _ _ ih => exact ih
  rintro ⟨_, _, _, _, _, _, _, _, hopen⟩
  exact hclosed hopen

theorem symbols_within_chain : symbols.resolve.Within chain := symbols_within_of_lt (by decide)

theorem chain_branches {c' : Context}
    (h : optimize chain symbols.resolve options = .ok (t', c')) :
    t'.shape ⟨9⟩ = .ok (.branch ⟨0⟩ ⟨4⟩ (some ⟨8⟩)) := by
  have hbranches : (optimize chain symbols.resolve options).map
      (fun result => result.1.shape ⟨9⟩) = .ok (.ok (.branch ⟨0⟩ ⟨4⟩ (some ⟨8⟩))) := by
    decide +kernel
  rw [h] at hbranches
  exact Except.ok.inj hbranches

end Sample

/-- The inner `if` statements give way to an empty statement. -/
theorem optimize_unambiguous_chain :
    ∃ t' c', optimize Sample.chain Sample.symbols.resolve Sample.options = .ok (t', c') ∧
      ¬t'.Ambiguous ∧ t'.shape ⟨9⟩ = .ok (.branch ⟨0⟩ ⟨4⟩ (some ⟨8⟩)) := by
  obtain ⟨hexists, hall⟩ := optimize_unambiguous Sample.chain_layered.acyclic
    Sample.chain_layered.closed (fun r hr => by cases hr; decide) Sample.chain_unambiguous
    Sample.symbols.resolve Sample.options
  obtain ⟨t', c', hrun⟩ := hexists Sample.symbols_within_chain
  exact ⟨t', c', hrun, hall t' c' hrun, Sample.chain_branches hrun⟩

end ScriptReduce
