/-
ScriptReduce.Proofs.Tree.History: what holds of every tree made by operations.

Whoever builds a tree adds nodes, puts nodes in each other's places and takes
nodes out, in any order and with any nodes at hand: one may stand in several
slots, take its own place, or be put below itself. Such a tree can be a
tangle. Its parent links can still be relied on: each leads to a node that
holds the one it comes from (`BackLinked`). So an edit fails only for a node
without a parent, and never because the parent does not hold it
(`History.backLinked`). The links of a tree can only be wrong if somebody sets
them by hand.

Each operation is described by what becomes of the slots and links of the
tree. `Tree.add` is a `push` after which some links lead to the new node, and
a successful edit is `Relinked`.
-/
import ScriptReduce.Proofs.Tree.Graded

namespace ScriptReduce

open ScriptReduce.Tree

variable {t t' u : Tree} {id x y : NodeId} {holder old : NodeId} {new : Option NodeId}

/-! ## 1. Links that lead back -/

/-- Slots hold nodes of the tree, and every parent link leads to a node that
holds the one it comes from. -/
structure Tree.BackLinked (t : Tree) : Prop where
  children : ∀ h x, t.Holds h x → x.index < t.size
  up : ∀ x p, t.Up x p → t.Holds p x

namespace Tree.BackLinked

theorem empty : Tree.empty.BackLinked where
  children h x := by
    rintro ⟨n, hn, _⟩
    cases hn
  up x p := by
    rintro ⟨n, hn, _⟩
    cases hn

theorem closed (h : t.BackLinked) : t.Closed Everywhere where
  children g x _ hx := ⟨trivial, h.children g x hx⟩
  parents x n p _ hn hp := ⟨trivial, lt_size_of_holds (h.up x p ⟨n, hn, hp⟩)⟩

/-- A node with a parent is linked to it. -/
theorem linked (h : t.BackLinked) {n : Node} (hn : t.get? x = some n)
    (hp : n.parent = some holder) : t.Linked holder x :=
  ⟨h.up x holder ⟨n, hn, hp⟩, n, hn, hp⟩

end Tree.BackLinked

/-! ## 2. Adding -/

namespace Tree

/-- A node added to a tree is the parent of its children, and it has none. -/
theorem adopt_cases (p : NodeId) (cs : List NodeId) : ∀ {t : Tree}, (∀ c ∈ cs, c.index < t.size) →
    ∃ u, t.adopt p cs = .ok u ∧ u.size = t.size ∧ u.root = t.root ∧
      ∀ y, u.get? y = (t.get? y).map fun n =>
        { n with parent := if y ∈ cs then some p else n.parent } := by
  induction cs with
  | nil => exact fun {t} _ => ⟨t, rfl, rfl, rfl, fun y => by cases t.get? y <;> rfl⟩
  | cons c cs ih =>
    intro t hcs
    obtain ⟨v, hv, hsize⟩ := exists_setParent (hcs c List.mem_cons_self) (some p)
    obtain ⟨u, hu, hsize', hroot, hget⟩ :=
      ih fun d hd => hsize ▸ hcs d (List.mem_cons_of_mem c hd)
    refine ⟨u, ?_, hsize'.trans hsize, hroot.trans (root_modify hv), fun y => ?_⟩
    · rw [adopt, List.foldlM_cons, bind_of_ok _ hv]
      exact hu
    · rw [hget, get?_setParent hv]
      cases t.get? y with
      | none => rfl
      | some n =>
        by_cases hy : y ∈ cs <;> by_cases hyc : y = c <;> simp [hy, hyc]

/-- What a tree is after a node was added whose children were there before. -/
theorem add_cases {s : Shape NodeId} (hs : ∀ c ∈ s.children, c.index < t.size) :
    ∃ u, t.add s = .ok (t.next, u) ∧ u.size = t.size + 1 ∧ u.root = t.root ∧
      ∀ y, u.get? y = ((t.push ⟨s, none, none⟩).get? y).map fun n =>
        { n with parent := if y ∈ s.children then some t.next else n.parent } := by
  obtain ⟨u, hu, hsize, hroot, hget⟩ := adopt_cases t.next s.children
    (t := t.push ⟨s, none, none⟩) fun c hc => by
      rw [size_push]
      exact Nat.lt_succ_of_lt (hs c hc)
  refine ⟨u, ?_, hsize.trans (size_push t _), hroot, hget⟩
  unfold add
  exact bind_of_ok _ hu

/-- Adding a node leads all its children back to it, wherever else they stand. -/
theorem BackLinked.add (h : t.BackLinked) {s : Shape NodeId} {new : NodeId}
    (hs : ∀ c ∈ s.children, c.index < t.size) (hadd : t.add s = .ok (new, u)) : u.BackLinked := by
  obtain ⟨u', hu, hsize, _, hget⟩ := add_cases hs
  rw [hu] at hadd
  cases hadd
  -- the slots are those of before and those of the new node
  have hholds : ∀ g x, u.Holds g x ↔ t.Holds g x ∨ g = t.next ∧ x ∈ s.children := by
    intro g x
    constructor
    · rintro ⟨n, hn, hx⟩
      rw [hget, get?_push] at hn
      obtain ⟨k, hk, rfl⟩ := Option.map_eq_some_iff.1 hn
      split at hk
      · cases hk
        exact Or.inr ⟨‹_›, hx⟩
      · exact Or.inl ⟨k, hk, hx⟩
    · rintro (⟨n, hn, hx⟩ | ⟨rfl, hx⟩)
      · have hg := hget g
        rw [get?_push_of_ne (ne_next_of_get? hn), hn] at hg
        exact ⟨_, hg, hx⟩
      · have hg := hget t.next
        rw [get?_push_next] at hg
        exact ⟨_, hg, hx⟩
  constructor
  · intro g x hx
    rcases (hholds g x).1 hx with hx | ⟨_, hx⟩
    · exact Nat.lt_of_lt_of_le (h.children g x hx) (by omega)
    · exact Nat.lt_of_lt_of_le (hs x hx) (by omega)
  · rintro x p ⟨n, hn, hp⟩
    rw [hget, get?_push] at hn
    obtain ⟨k, hk, rfl⟩ := Option.map_eq_some_iff.1 hn
    rw [hholds]
    by_cases hx : x ∈ s.children
    · simp only [hx, if_true, Option.some.injEq] at hp
      exact Or.inr ⟨hp.symm, hx⟩
    · simp only [hx, if_false] at hp
      split at hk
      · cases hk
        cases hp
      · exact Or.inl (h.up x p ⟨k, hk, hp⟩)

/-! ## 3. Editing -/

/-- Giving a slot away keeps links leading back: the node that leaves has no
parent any more, even if it stands in further slots. -/
theorem BackLinked.relinked (h : t.BackLinked) (hl : t.Holds holder old)
    (hr : t.Relinked holder old new t') (hnew : ∀ m, new = some m → m.index < t.size) :
    t'.BackLinked := by
  obtain ⟨hkept, htaken⟩ := hr.holds_of hl
  constructor
  · intro g y hy
    rw [hr.size]
    rcases hr.holds hy with hy | ⟨_, hy, _⟩
    · exact h.children g y hy
    · exact hnew y hy.symm
  · rintro y p ⟨k, hk, hp⟩
    rcases hr.parent_cases hk hp with ⟨hy, ⟨hy', rfl⟩ | ⟨n, hn, hp⟩⟩
    · exact htaken y hy'
    · exact hkept p y (h.up y p ⟨n, hn, hp⟩) hy

/-- A node with a parent is replaced, and a node without one is not. -/
theorem BackLinked.replace_cases (h : t.BackLinked) {n : Node} {m : NodeId}
    (hn : t.get? old = some n) (hm : m.index < t.size) :
    (n.parent = none ∧ t.replace old m = .ok (.error (.detached old))) ∨
      ∃ t', t.replace old m = .ok (.ok t') ∧ t'.BackLinked := by
  cases hp : n.parent with
  | none =>
    refine Or.inl ⟨rfl, ?_⟩
    unfold replace
    rw [bind_of_ok _ (parent_of_get? hn), hp]
    rfl
  | some holder =>
    have hl := h.linked hn hp
    rcases replace_total hn (fun p hp => (h.closed.parents old n p trivial hn hp).2) hm with
      ⟨t', ht'⟩ | ⟨_, _, _, hnot⟩
    · obtain ⟨_, _, hl', hr⟩ := relinked_of_replace ht'
      exact Or.inr ⟨t', ht', h.relinked hl'.1 hr fun k hk => by cases hk; exact hm⟩
    · exact absurd hl (hnot holder)

/-- A node with a parent is removed, and a node without one is not. -/
theorem BackLinked.remove_cases (h : t.BackLinked) {n : Node} (hn : t.get? old = some n) :
    (n.parent = none ∧ t.remove old = .ok (.error (.detached old))) ∨
      ∃ placeholder t', t.remove old = .ok (.ok (placeholder, t')) ∧ t'.BackLinked := by
  cases hp : n.parent with
  | none =>
    refine Or.inl ⟨rfl, ?_⟩
    unfold remove
    rw [bind_of_ok _ (parent_of_get? hn), hp]
    rfl
  | some holder =>
    have hl := h.linked hn hp
    rcases remove_total hn (fun p hp => (h.closed.parents old n p trivial hn hp).2) with
      ⟨⟨placeholder, t'⟩, ht'⟩ | ⟨_, _, _, hnot⟩
    · refine Or.inr ⟨placeholder, t', ht', ?_⟩
      obtain ⟨g, _, hl', _, ⟨_, _, hr⟩ | ⟨_, _, hr⟩⟩ := relinked_of_remove ht'
      · exact h.relinked hl'.1 hr (by simp)
      · -- the slot has to be filled, and an empty statement was added for it
        refine (h.add (s := .emptyStatement) (by simp) (add_leaf rfl)).relinked
          (hl'.push _).1 hr fun k hk => ?_
        cases hk
        rw [size_push]
        exact Nat.lt_succ_self _
    · exact absurd hl (hnot holder)

/-- Spans have nothing to do with slots and links. -/
theorem BackLinked.setSpan (h : t.BackLinked) {span : Span} (hu : t.setSpan id span = .ok u) :
    u.BackLinked := by
  have hget : ∀ y, u.get? y = (t.get? y).map fun n =>
      { n with span := if y = id then some span else n.span } := by
    intro y
    rw [get?_modify hu]
    by_cases hy : y = id <;> simp [hy]
  have hholds : ∀ {g y}, u.Holds g y ↔ t.Holds g y := by
    intro g y
    unfold Holds
    rw [hget]
    cases t.get? g <;> simp
  constructor
  · intro g y hy
    rw [size_modify hu]
    exact h.children g y (hholds.1 hy)
  · rintro y p ⟨n, hn, hp⟩
    rw [hget] at hn
    obtain ⟨k, hk, rfl⟩ := Option.map_eq_some_iff.1 hn
    exact hholds.2 (h.up y p ⟨k, hk, hp⟩)

end Tree

/-! ## 4. Operations -/

/-- What can be done to a tree, short of setting parent links by hand. -/
inductive Operation where
  | add (shape : Shape NodeId)
  | replace (old new : NodeId)
  | remove (old : NodeId)
  | setRoot (root : NodeId)
  | setSpan (node : NodeId) (span : Span)

namespace Operation

/-- The nodes that an operation names. -/
def operands : Operation → List NodeId
  | .add shape => shape.children
  | .replace old new => [old, new]
  | .remove old => [old]
  | .setRoot root => [root]
  | .setSpan node _ => [node]

/-- Does an operation, which may refuse. -/
def run (t : Tree) : Operation → Except Fault (Except EditError Tree)
  | .add shape => do
    let (_, t) ← t.add shape
    return .ok t
  | .replace old new => t.replace old new
  | .remove old => do
    match ← t.remove old with
    | .ok (_, t) => return .ok t
    | .error e => return .error e
  | .setRoot root => .ok (.ok (t.setRoot root))
  | .setSpan node span => do
    let t ← t.setSpan node span
    return .ok t

/-- Whether all nodes that an operation names are in a tree. -/
def Applies (op : Operation) (t : Tree) : Prop := ∀ x ∈ op.operands, x.index < t.size

instance (op : Operation) (t : Tree) : Decidable (op.Applies t) :=
  inferInstanceAs (Decidable (∀ x ∈ op.operands, x.index < t.size))

end Operation

/-- An operation on nodes of the tree is done and links still lead back, or it
is refused for a node without a parent. -/
theorem Tree.BackLinked.run (h : t.BackLinked) {op : Operation} (hop : op.Applies t) :
    (∃ t', op.run t = .ok (.ok t') ∧ t'.BackLinked) ∨
      ∃ x, op.run t = .ok (.error (.detached x)) ∧ t.parent x = .ok none := by
  cases op with
  | add s =>
    obtain ⟨u, hu, _⟩ := add_cases hop
    refine Or.inl ⟨u, ?_, h.add hop hu⟩
    rw [Operation.run, bind_of_ok _ hu]
    rfl
  | replace old new =>
    obtain ⟨n, hn⟩ := exists_get? (hop old (by simp [Operation.operands]))
    have hnew := hop new (by simp [Operation.operands])
    rcases h.replace_cases hn hnew with ⟨hp, he⟩ | hok
    · exact Or.inr ⟨old, he, by rw [parent_of_get? hn, hp]⟩
    · exact Or.inl hok
  | remove old =>
    obtain ⟨n, hn⟩ := exists_get? (hop old (by simp [Operation.operands]))
    rw [Operation.run]
    rcases h.remove_cases hn with ⟨hp, he⟩ | ⟨placeholder, t', ht', hlinked⟩
    · rw [bind_of_ok _ he]
      exact Or.inr ⟨old, rfl, by rw [parent_of_get? hn, hp]⟩
    · rw [bind_of_ok _ ht']
      exact Or.inl ⟨t', rfl, hlinked⟩
  | setRoot root => exact Or.inl ⟨t.setRoot root, rfl, h.children, h.up⟩
  | setSpan node span =>
    obtain ⟨u, hu⟩ := exists_modify (hop node (by simp [Operation.operands]))
      fun n => { n with span := some span }
    refine Or.inl ⟨u, ?_, h.setSpan hu⟩
    rw [Operation.run, bind_of_ok (x := t.setSpan node span) _ hu]
    rfl

/-! ## 5. Histories -/

/-- The trees that operations lead to from the empty tree, each with the
errors of those that were refused. An operation may name any nodes that are in
the tree when it is done, and it changes nothing if it is refused. -/
inductive History : Tree → List EditError → Prop where
  | start : History .empty []
  | done {t t' : Tree} {errors : List EditError} (op : Operation) (before : History t errors)
    (applies : op.Applies t) (run : op.run t = .ok (.ok t')) : History t' errors
  | refused {t : Tree} {errors : List EditError} {e : EditError} (op : Operation)
    (before : History t errors) (applies : op.Applies t) (run : op.run t = .ok (.error e)) :
    History t (errors ++ [e])

variable {errors : List EditError}

theorem History.links (h : History t errors) : t.BackLinked := by
  induction h with
  | start => exact .empty
  | @done t t' errors op _ applies run ih =>
    rcases ih.run applies with ⟨u, hu, hlinked⟩ | ⟨x, hx, _⟩
    · rw [run] at hu
      cases hu
      exact hlinked
    · rw [run] at hx
      cases hx
  | refused _ _ _ _ ih => exact ih

theorem History.errors_detached (h : History t errors) : ∀ e ∈ errors, ∃ x, e = .detached x := by
  induction h with
  | start => simp
  | done _ _ _ _ ih => exact ih
  | @refused t errors e op before applies run ih =>
    intro e' he'
    rcases List.mem_append.1 he' with he' | he'
    · exact ih e' he'
    · rcases before.links.run applies with ⟨u, hu, _⟩ | ⟨x, hx, _⟩
      · rw [run] at hu
        cases hu
      · rw [run] at hx
        cases hx
        exact ⟨x, List.mem_singleton.1 he'⟩

/-- Whatever operations made a tree, and whatever nodes they named: slots hold
nodes of the tree, each parent link leads to a node that holds the one it
comes from, and nothing was ever refused but for want of a parent. The same is
true of anything that is done next, and it gives a result. -/
theorem History.backLinked (h : History t errors) :
    (∀ p x, t.Holds p x → x.index < t.size) ∧
    (∀ x p, t.parent x = .ok (some p) → p.index < t.size ∧ t.Holds p x) ∧
    (∀ e ∈ errors, ∃ x, e = .detached x) ∧
    ∀ op : Operation, op.Applies t → (∃ t', op.run t = .ok (.ok t')) ∨
      ∃ x, op.run t = .ok (.error (.detached x)) ∧ t.parent x = .ok none := by
  have hlinks := h.links
  refine ⟨hlinks.children, fun x p hp => ?_, h.errors_detached, fun op hop => ?_⟩
  · obtain ⟨n, hn, hparent⟩ := parent_eq_ok.1 hp
    have hholds := hlinks.up x p ⟨n, hn, hparent⟩
    exact ⟨lt_size_of_holds hholds, hholds⟩
  · exact (hlinks.run hop).imp_left fun ⟨t', ht', _⟩ => ⟨t', ht'⟩

/-- What is left of `!(a + a)` when the negation took the place of the first
operand, which makes a circle, and was then put in its own place. -/
def tangle : Tree where
  nodes := #[
    ⟨.identifier "a", none, none⟩,
    ⟨.binary ⟨2⟩ .plus ⟨0⟩, some ⟨2⟩, none⟩,
    ⟨.unary .not ⟨1⟩, none, none⟩]
  root := none

/-- Afterwards neither the operand nor the negation has a parent, though each
is still held. -/
theorem tangle_history : History tangle [.detached ⟨0⟩, .detached ⟨2⟩] := by
  have built : History ⟨#[⟨.identifier "a", some ⟨1⟩, none⟩,
      ⟨.binary ⟨0⟩ .plus ⟨0⟩, some ⟨2⟩, none⟩, ⟨.unary .not ⟨1⟩, none, none⟩], none⟩ [] :=
    .done (.add (.unary .not ⟨1⟩)) (.done (.add (.binary ⟨0⟩ .plus ⟨0⟩))
      (.done (.add (.identifier "a")) .start (by decide) rfl) (by decide) rfl) (by decide) rfl
  have moved : History ⟨#[⟨.identifier "a", none, none⟩,
      ⟨.binary ⟨2⟩ .plus ⟨0⟩, some ⟨2⟩, none⟩, ⟨.unary .not ⟨1⟩, some ⟨1⟩, none⟩], none⟩ [] :=
    built.done (.replace ⟨0⟩ ⟨2⟩) (by decide) rfl
  have left : History tangle [] := moved.done (.replace ⟨2⟩ ⟨2⟩) (by decide) rfl
  exact (left.refused (.remove ⟨0⟩) (by decide) rfl).refused (.replace ⟨2⟩ ⟨0⟩)
    (by decide) rfl

theorem backLinked_tangle :
    (∀ p x, tangle.Holds p x → x.index < tangle.size) ∧
    (∀ x p, tangle.parent x = .ok (some p) → p.index < tangle.size ∧ tangle.Holds p x) ∧
    (∀ e ∈ [EditError.detached ⟨0⟩, .detached ⟨2⟩], ∃ x, e = .detached x) ∧
    ∀ op : Operation, op.Applies tangle → (∃ t', op.run tangle = .ok (.ok t')) ∨
      ∃ x, op.run tangle = .ok (.error (.detached x)) ∧ tangle.parent x = .ok none :=
  History.backLinked tangle_history

end ScriptReduce
