/-
ScriptReduce.Proofs.Tree.Graded: trees that every descent comes to the end of.

A domain is a part of a tree that neither slots nor parent links lead out of.
It is graded by a rank that goes down with every slot. A domain in which no
node is below itself has one, and the same rank serves a tree that grows out
of it by edits, as long as nothing is put below a node that does not belong
there: the ranks of the first nodes stay, and nodes added later, which are
leaves, have rank zero. So the bounds that were right at the start are right
throughout (`Graded.push`, `Graded.relinked`). Of parent links nothing is
asked but that they do not lead out.

The domain may be the whole store (`Acyclic.graded`), or what can be reached
from the root of a rooted tree (`Rooted.graded`).
-/
import ScriptReduce.Proofs.Tree.Rooted

namespace ScriptReduce

/-- Whether a node has a shape that is put into trees later on. -/
def Shape.IsLeaf (s : Shape NodeId) : Prop := (∃ l, s = .literal l) ∨ s = .emptyStatement

theorem Shape.IsLeaf.children {s : Shape NodeId} (h : s.IsLeaf) : s.children = [] := by
  rcases h with ⟨l, rfl⟩ | rfl <;> rfl

namespace Tree

open Relation

variable {t t' : Tree} {D : NodeId → Prop} {rank : NodeId → Nat} {limit : Nat}
  {holder old r : NodeId} {new : Option NodeId} {n : Node}

/-- Whether an identifier belongs to a domain and to a node of the tree. -/
def Inside (t : Tree) (D : NodeId → Prop) (x : NodeId) : Prop := D x ∧ x.index < t.size

/-- Slots and parent links do not lead out of a domain, nor out of the tree. -/
structure Closed (t : Tree) (D : NodeId → Prop) : Prop where
  children : ∀ h x, D h → t.Holds h x → t.Inside D x
  parents : ∀ x n p, D x → t.get? x = some n → n.parent = some p → t.Inside D p

/-- A rank goes down with every slot of a domain. The nodes up to a limit are
those the tree started with; those added later are leaves, and they belong to
the domain. -/
structure Graded (t : Tree) (D : NodeId → Prop) (rank : NodeId → Nat) (limit : Nat) : Prop
    extends t.Closed D where
  limit_le : limit ≤ t.size
  later : ∀ x, limit ≤ x.index → D x
  rank_le : ∀ x, rank x ≤ limit
  rank_pos : ∀ x, x.index < limit → 0 < rank x
  rank_later : ∀ x, limit ≤ x.index → rank x = 0
  leaf : ∀ x n, limit ≤ x.index → t.get? x = some n → n.shape.IsLeaf
  descends : ∀ h x, D h → t.Holds h x → rank x < rank h

/-- No node is below itself. -/
def Acyclic (t : Tree) : Prop := ∀ x, ¬TransGen t.Holds x x

/-- The whole store. -/
def Everywhere : NodeId → Prop := fun _ => True

/-- What can be reached from a node, and what is added later. -/
def Below (t : Tree) (r x : NodeId) : Prop := t.Reaches r x ∨ t.size ≤ x.index

theorem rank_eq_zero {x : NodeId} (hx : t.size ≤ x.index) : t.rank x = 0 := by
  classical
  refine Finset.card_eq_zero.2 (Finset.filter_eq_empty_iff.2 fun i _ hi => ?_)
  rcases ReflTransGen.cases_head hi with heq | ⟨y, hy, _⟩
  · have : x.index = i.val := congrArg Id.index heq
    omega
  · exact absurd (lt_size_of_holds hy) (by omega)

/-- What lies below each node grades a domain in which none is below itself. -/
theorem graded_rank (hc : t.Closed D) (later : ∀ x, t.size ≤ x.index → D x)
    (acyclic : ∀ x, D x → ¬TransGen t.Holds x x) : t.Graded D t.rank t.size where
  toClosed := hc
  limit_le := Nat.le_refl _
  later := later
  rank_le := rank_le_size t
  rank_pos _ := rank_pos
  rank_later _ := rank_eq_zero
  leaf x n hx hn := absurd (lt_size_of_get? hn) (by omega)
  descends h _ hh hx := rank_lt_of_holds hx (acyclic h hh)

/-- What is no leaf was there at the start. -/
theorem Graded.lt_limit_of_not_leaf (h : t.Graded D rank limit) {x : NodeId} {s : Shape NodeId}
    (hs : t.shape x = .ok s) (hleaf : ¬s.IsLeaf) : x.index < limit := by
  obtain ⟨n, hn, rfl⟩ := shape_eq_ok.1 hs
  by_contra hlater
  exact hleaf (h.leaf x n (Nat.not_lt.1 hlater) hn)

theorem Acyclic.graded (h : t.Acyclic) (hc : t.Closed Everywhere) :
    t.Graded Everywhere t.rank t.size :=
  graded_rank hc (fun _ _ => trivial) fun x _ => h x

/-- What can be reached in a rooted tree is a domain. -/
theorem Rooted.graded (hr : t.Rooted r) : t.Graded (t.Below r) t.rank t.size := by
  have hreach : ∀ {x n}, t.Below r x → t.get? x = some n → t.Reaches r x := by
    intro x n hx hn
    rcases hx with hx | hx
    · exact hx
    · exact absurd (lt_size_of_get? hn) (by omega)
  refine graded_rank ⟨?_, ?_⟩ (fun x hx => Or.inr hx) fun x hx => ?_
  · rintro h x hh ⟨n, hn, hx⟩
    obtain ⟨hx', k, hk, _⟩ := hr.coherent.down h x (hreach hh hn) ⟨n, hn, hx⟩
    exact ⟨Or.inl hx', lt_size_of_get? hk⟩
  · intro x n p hx hn hp
    obtain ⟨hreach, hholds⟩ := hr.coherent.up x p (hreach hx hn) ⟨n, hn, hp⟩
    exact ⟨Or.inl hreach, lt_size_of_holds hholds⟩
  · intro hcycle
    obtain ⟨c, ⟨n, hn, _⟩, _⟩ := TransGen.head'_iff.1 hcycle
    exact hr.acyclic x (hreach hx hn) hcycle

/-- Where something goes down with every slot, no node is below itself. -/
theorem acyclic_of_descends (f : NodeId → Nat) (h : ∀ g x, t.Holds g x → f x < f g) :
    t.Acyclic := by
  intro x hx
  have hlt : ∀ {a b}, TransGen t.Holds a b → f b < f a := by
    intro a b hab
    induction hab with
    | single hab => exact h _ _ hab
    | tail _ hbc ih => exact Nat.lt_trans (h _ _ hbc) ih
  exact Nat.lt_irrefl _ (hlt hx)

theorem Graded.acyclic (h : t.Graded Everywhere rank limit) : t.Acyclic :=
  acyclic_of_descends rank fun g x hx => h.descends g x trivial hx

/-- The node with an index of the store. -/
abbrev nodeAt (t : Tree) (i : Fin t.nodes.size) : Node := t.nodes[i]

/-- What can be checked of a tree in which each node comes after its children.
Of parent links nothing is asked but that they lead to nodes of the tree. -/
structure Layered (t : Tree) : Prop where
  earlier : ∀ i : Fin t.nodes.size, ∀ x ∈ (t.nodeAt i).shape.children, x.index < i
  parents : ∀ i : Fin t.nodes.size, ∀ p ∈ (t.nodeAt i).parent.toList, p.index < t.nodes.size

theorem exists_fin {x : NodeId} (hn : t.get? x = some n) :
    ∃ i : Fin t.nodes.size, x = ⟨i⟩ ∧ t.nodeAt i = n := by
  obtain ⟨hx, hn⟩ := Array.getElem?_eq_some_iff.1 hn
  exact ⟨⟨x.index, hx⟩, rfl, hn⟩

theorem Layered.lt_of_holds (h : t.Layered) {g x : NodeId} (hx : t.Holds g x) :
    x.index < g.index := by
  obtain ⟨n, hn, hx⟩ := hx
  obtain ⟨i, rfl, rfl⟩ := exists_fin hn
  exact h.earlier i x hx

theorem Layered.acyclic (h : t.Layered) : t.Acyclic :=
  acyclic_of_descends Id.index fun _ _ => h.lt_of_holds

theorem Layered.closed (h : t.Layered) : t.Closed Everywhere where
  children g x _ hx := ⟨trivial, Nat.lt_trans (h.lt_of_holds hx) (lt_size_of_holds hx)⟩
  parents x n p _ hn hp := by
    obtain ⟨i, rfl, rfl⟩ := exists_fin hn
    exact ⟨trivial, h.parents i p (Option.mem_toList.2 hp)⟩

theorem Inside.mono {x : NodeId} (h : t.Inside D x) (hle : t.size ≤ t'.size) : t'.Inside D x :=
  ⟨h.1, Nat.lt_of_lt_of_le h.2 hle⟩

theorem Inside.of_reaches {x y : NodeId} (hx : t.Inside D x) (hc : t.Closed D)
    (hy : t.Reaches x y) : t.Inside D y := by
  induction hy with
  | refl => exact hx
  | tail _ hstep ih => exact hc.children _ _ ih.1 hstep

theorem Inside.push {x : NodeId} (h : t.Inside D x) (n : Node) : (t.push n).Inside D x :=
  h.mono (by simp)

theorem Closed.push (h : t.Closed D) {s : Shape NodeId} (hs : s.IsLeaf) :
    (t.push ⟨s, none, none⟩).Closed D where
  children g x hg hx := (h.children g x hg ((holds_push hs.children).1 hx)).push _
  parents x n p hx hn hp := by
    rw [get?_push] at hn
    split at hn
    · cases hn
      cases hp
    · exact (h.parents x n p hx hn hp).push _

/-- A leaf may be added. -/
theorem Graded.push (h : t.Graded D rank limit) {s : Shape NodeId} (hs : s.IsLeaf) :
    (t.push ⟨s, none, none⟩).Graded D rank limit where
  toClosed := h.toClosed.push hs
  limit_le := by
    rw [size_push]
    exact Nat.le_succ_of_le h.limit_le
  later := h.later
  rank_le := h.rank_le
  rank_pos := h.rank_pos
  rank_later := h.rank_later
  leaf x n hx hn := by
    rw [get?_push] at hn
    split at hn
    · cases hn
      exact hs
    · exact h.leaf x n hx hn
  descends g x hg hx := h.descends g x hg ((holds_push hs.children).1 hx)

/-- A slot may be given to a node of lower rank. -/
theorem Graded.relinked (h : t.Graded D rank limit) (hold : D old)
    (hl : t.Linked holder old) (hr : t.Relinked holder old new t')
    (hnew : ∀ m, new = some m → t.Inside D m ∧ rank m < rank holder) :
    t'.Graded D rank limit where
  children g x hg hx := by
    rcases hr.holds hx with hx | ⟨rfl, hnew', _⟩
    · exact (h.children g x hg hx).mono hr.size.ge
    · exact (hnew x hnew'.symm).1.mono hr.size.ge
  parents x k p hx hk hp := by
    rcases (hr.parent_cases hk hp).2 with ⟨-, rfl⟩ | ⟨n, hn, hp⟩
    · obtain ⟨_, m, hm, hparent⟩ := hl
      exact (h.parents old m p hold hm hparent).mono hr.size.ge
    · exact (h.parents x n p hx hn hp).mono hr.size.ge
  limit_le := hr.size ▸ h.limit_le
  later := h.later
  rank_le := h.rank_le
  rank_pos := h.rank_pos
  rank_later := h.rank_later
  leaf x k hx hk := by
    rw [hr.get] at hk
    obtain ⟨n, hn, rfl⟩ := Option.map_eq_some_iff.1 hk
    simp only [relink]
    split
    · rename_i hg
      subst hg
      obtain ⟨k, hk, hmem⟩ := hl.1
      rw [(h.leaf x k hx hk).children] at hmem
      cases hmem
    · exact h.leaf x n hx hn
  descends g x hg hx := by
    rcases hr.holds hx with hx | ⟨rfl, hnew', _⟩
    · exact h.descends g x hg hx
    · exact (hnew x hnew'.symm).2

end Tree

end ScriptReduce
