/-
ScriptReduce.Proofs.Tree.Preorder: the order in which a walk comes to nodes.

A walk from a node comes to the node itself and then, one after the other, to all
that each of its children leads to. So it comes to what can be reached and to
nothing else, in whatever tree it gives a result (`mem_preorderWithin`), and it
gives one if no node is below itself (`exists_preorderWithin`). Where nodes are
held by several slots it comes to them several times. In a tree that hangs together
it does not, and moreover no node comes after what is below it
(`Consistent.pairwise_preorderWithin`).
-/
import ScriptReduce.Proofs.Tree.WellFormed

namespace ScriptReduce

theorem mapM_eq_ok {ε α β : Type} {f : α → Except ε β} {xs : List α} {ys : List β} :
    xs.mapM f = .ok ys ↔ List.Forall₂ (fun x y => f x = .ok y) xs ys := by
  induction xs generalizing ys with
  | nil => rw [List.mapM_nil, pure_eq_ok, List.forall₂_nil_left_iff, eq_comm]
  | cons x xs ih =>
    rw [List.mapM_cons, bind_eq_ok, List.forall₂_cons_left_iff]
    simp only [bind_eq_ok, pure_eq_ok, ih]
    constructor
    · rintro ⟨y, hy, ys, hys, rfl⟩
      exact ⟨y, ys, hy, hys, rfl⟩
    · rintro ⟨y, ys, hy, hys, rfl⟩
      exact ⟨y, hy, ys, hys, rfl⟩

namespace Tree

open Relation

variable {t : Tree} {s x y z : NodeId} {n : Node} {depth : Nat} {order : List NodeId}

/-! ## 1. What a walk comes to -/

/-- A walk goes on from a node to each of its children. -/
theorem preorderWithin_eq_ok :
    t.preorderWithin (depth + 1) x = .ok order ↔ ∃ n parts, t.get? x = some n ∧
      List.Forall₂ (fun y part => t.preorderWithin depth y = .ok part) n.shape.children parts ∧
      order = x :: parts.flatten := by
  simp only [preorderWithin, bind_eq_ok, pure_eq_ok, mapM_eq_ok, children_eq_ok]
  constructor
  · rintro ⟨_, ⟨n, hn, rfl⟩, parts, hparts, rfl⟩
    exact ⟨n, parts, hn, hparts, rfl⟩
  · rintro ⟨n, parts, hn, hparts, rfl⟩
    exact ⟨_, ⟨n, hn, rfl⟩, parts, hparts, rfl⟩

/-- Something is in the parts of a walk if it is in that of one child. -/
theorem mem_flatten_parts {xs : List NodeId} {parts : List (List NodeId)}
    (h : List.Forall₂ (fun x part => ∀ y, y ∈ part ↔ t.Reaches x y) xs parts) :
    y ∈ parts.flatten ↔ ∃ x ∈ xs, t.Reaches x y := by
  induction h with
  | nil => simp
  | cons hx _ ih => simp [hx, ih]

/-- A walk comes to what can be reached. -/
theorem mem_preorderWithin (h : t.preorderWithin depth x = .ok order) :
    y ∈ order ↔ t.Reaches x y := by
  induction depth generalizing x y order with
  | zero => cases h
  | succ depth ih =>
    obtain ⟨n, parts, hn, hparts, rfl⟩ := preorderWithin_eq_ok.1 h
    have hmem : y ∈ parts.flatten ↔ ∃ z ∈ n.shape.children, t.Reaches z y :=
      mem_flatten_parts (hparts.imp fun _ _ hpart _ => ih hpart)
    rw [List.mem_cons, hmem]
    constructor
    · rintro (rfl | ⟨z, hz, hzy⟩)
      · exact .refl
      · exact ReflTransGen.head ⟨n, hn, hz⟩ hzy
    · intro hxy
      rcases ReflTransGen.cases_head hxy with rfl | ⟨z, hxz, hzy⟩
      · exact .inl rfl
      · exact .inr ⟨z, (holds_iff hn).1 hxz, hzy⟩

/-- A walk comes to an end within a depth beyond the rank of its node. -/
theorem exists_preorderWithin (hacyclic : t.Acyclic)
    (hchildren : ∀ g x, t.Holds g x → x.index < t.size) (hx : x.index < t.size)
    (hdepth : t.rank x < depth) : ∃ order, t.preorderWithin depth x = .ok order := by
  induction depth generalizing x with
  | zero => omega
  | succ depth ih =>
    obtain ⟨n, hn⟩ := exists_get? hx
    have hbelow : ∀ y ∈ n.shape.children, ∃ part, t.preorderWithin depth y = .ok part := by
      intro y hy
      have hrank := rank_lt_of_holds ⟨n, hn, hy⟩ (hacyclic x)
      exact ih (hchildren x y ⟨n, hn, hy⟩) (by omega)
    have hparts : ∀ ys : List NodeId, (∀ y ∈ ys, ∃ part, t.preorderWithin depth y = .ok part) →
        ∃ parts, List.Forall₂ (fun y part => t.preorderWithin depth y = .ok part) ys parts := by
      intro ys hys
      induction ys with
      | nil => exact ⟨[], .nil⟩
      | cons y ys ihys =>
        obtain ⟨hy, hys⟩ := List.forall_mem_cons.1 hys
        obtain ⟨part, hpart⟩ := hy
        obtain ⟨parts, hparts⟩ := ihys hys
        exact ⟨part :: parts, .cons hpart hparts⟩
    obtain ⟨parts, hparts⟩ := hparts _ hbelow
    exact ⟨_, preorderWithin_eq_ok.2 ⟨n, parts, hn, hparts, rfl⟩⟩

/-! ## 2. Trees that hang together -/

namespace Consistent

/-- Two nodes that one node holds have nothing below them in common. -/
theorem disjoint (ht : t.Consistent) (hx : t.Holds s x) (hy : t.Holds s y) (hne : x ≠ y)
    (hxz : t.Reaches x z) : ¬t.Reaches y z :=
  ht.acyclic.disjoint (fun _ _ _ _ _ => ht.holder_eq) hx hy hne hxz

/-- What a node holds has nothing below it in common. -/
theorem pairwise_children (ht : t.Consistent) (hn : t.get? x = some n) :
    n.shape.children.Pairwise fun y z => ∀ s, t.Reaches y s → ¬t.Reaches z s := by
  refine (ht.once x n hn).imp_of_mem fun hy hz hne s hys => ?_
  exact ht.disjoint ⟨n, hn, hy⟩ ⟨n, hn, hz⟩ hne hys

/-- No node comes after what is below it; in particular none comes twice. -/
theorem pairwise_preorderWithin (ht : t.Consistent) (h : t.preorderWithin depth x = .ok order) :
    order.Pairwise fun y z => ¬t.Reaches z y := by
  induction depth generalizing x order with
  | zero => cases h
  | succ depth ih =>
    obtain ⟨n, parts, hn, hparts, rfl⟩ := preorderWithin_eq_ok.1 h
    -- children share nothing, so neither do their parts
    have hpairs : ∀ {ys : List NodeId} {parts : List (List NodeId)},
        List.Forall₂ (fun y part => t.preorderWithin depth y = .ok part) ys parts →
        ys.Pairwise (fun y z => ∀ s, t.Reaches y s → ¬t.Reaches z s) →
        parts.flatten.Pairwise fun y z => ¬t.Reaches z y := by
      intro ys parts hparts hys
      induction hparts with
      | nil => exact .nil
      | @cons y part ys parts hpart hrest ihparts =>
        obtain ⟨hdisjoint, hys⟩ := List.pairwise_cons.1 hys
        rw [List.flatten_cons, List.pairwise_append]
        refine ⟨ih hpart, ihparts hys, fun a ha b hb hba => ?_⟩
        obtain ⟨z, hz, hzb⟩ := (mem_flatten_parts (hrest.imp fun _ _ hpart _ =>
          mem_preorderWithin hpart)).1 hb
        exact hdisjoint z hz a ((mem_preorderWithin hpart).1 ha) (hzb.trans hba)
    refine List.pairwise_cons.2 ⟨fun z hz hzx => ?_, hpairs hparts (ht.pairwise_children hn)⟩
    obtain ⟨y, hy, hyz⟩ := (mem_flatten_parts (hparts.imp fun _ _ hpart _ =>
      mem_preorderWithin hpart)).1 hz
    exact ht.not_reaches_of_holds ⟨n, hn, hy⟩ (hyz.trans hzx)

end Consistent

end Tree

end ScriptReduce
