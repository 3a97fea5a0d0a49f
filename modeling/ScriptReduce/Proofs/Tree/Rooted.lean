/-
ScriptReduce.Proofs.Tree.Rooted: trees whose reachable part is a tree.

Nothing keeps a store of nodes from being a tangle. A part of it is coherent
if no node is below itself and each node stands in one slot only, the one its
parent link leads back to. Such a part is shown by terms without repetitions
(`Coherent.exists_shows`). `Rooted` says that what can be reached from the
root is such a part; nodes that cannot be reached are free to be anything. It
is the same as a term below the root (`Rooted.exists_presents`,
`Presents.rooted`), so what is proved about terms carries over.

`rank` measures how much lies below a node. It goes down with every step away
from a node that is not below itself (`rank_lt_of_holds`), and no descent is
longer than the store.
-/
import ScriptReduce.Proofs.Tree.Term
import Mathlib.Logic.Relation
import Mathlib.Data.Fintype.Basic
import Mathlib.Data.List.Chain
import Mathlib.Data.List.Nodup

namespace ScriptReduce.Tree

open Relation

variable {t : Tree} {r x y h : NodeId} {n : Node}

/-! ## 1. Reachability and rank -/

/-- Whether a descent through the slots leads from one node to another. -/
def Reaches (t : Tree) : NodeId → NodeId → Prop := ReflTransGen t.Holds

theorem Reaches.trans_holds {z : NodeId} (h : t.Reaches x y) (hz : t.Holds y z) : t.Reaches x z :=
  ReflTransGen.tail h hz

instance (t : Tree) (h x : NodeId) : Decidable (t.Holds h x) :=
  decidable_of_iff (∃ n ∈ (t.get? h).toList, x ∈ n.shape.children) (by
    simp only [Option.mem_toList, Holds])

/-- What can be reached along a path. -/
theorem reaches_of_path {path : List NodeId} (hpath : List.IsChain t.Holds path)
    (hne : path ≠ []) : t.Reaches (path.head hne) (path.getLast hne) :=
  List.relationReflTransGen_of_exists_isChain path hpath hne

/-- A list of nodes that slots do not lead out of has all that can be reached
from one of them. -/
theorem mem_of_reaches {nodes : List NodeId}
    (hdown : ∀ h ∈ nodes, ∀ n ∈ (t.get? h).toList, ∀ x ∈ n.shape.children, x ∈ nodes)
    (hr : r ∈ nodes) (hx : t.Reaches r x) : x ∈ nodes := by
  induction hx with
  | refl => exact hr
  | tail _ hyx ih =>
    obtain ⟨n, hn, hmem⟩ := hyx
    exact hdown _ ih n (Option.mem_toList.2 hn) _ hmem

theorem lt_size_of_holds (hx : t.Holds h x) : h.index < t.size := by
  obtain ⟨n, hn, _⟩ := hx
  exact lt_size_of_get? hn

/-- What is not there yet is above nothing that is there. -/
theorem not_reaches_next (hx : x.index < t.size) : ¬t.Reaches t.next x := by
  intro h
  rcases ReflTransGen.cases_head h with heq | ⟨y, hy, -⟩
  · exact ne_next hx heq.symm
  · exact Nat.lt_irrefl _ (lt_size_of_holds hy)

open Classical in
/-- How many nodes of the store lie below a node, itself included. -/
noncomputable def rank (t : Tree) (x : NodeId) : Nat :=
  (Finset.univ.filter fun i : Fin t.size => t.Reaches x ⟨i⟩).card

theorem rank_le_size (t : Tree) (x : NodeId) : t.rank x ≤ t.size := by
  classical
  exact le_trans (Finset.card_filter_le _ _) (by simp)

theorem rank_pos (hx : x.index < t.size) : 0 < t.rank x := by
  classical
  exact Finset.card_pos.2 ⟨⟨x.index, hx⟩, Finset.mem_filter.2 ⟨Finset.mem_univ _, .refl⟩⟩

/-- Below a node that is not below itself there is less. -/
theorem rank_lt_of_holds (hx : t.Holds h x) (hc : ¬TransGen t.Holds h h) :
    t.rank x < t.rank h := by
  classical
  refine Finset.card_lt_card (Finset.ssubset_iff_of_subset ?_ |>.2 ?_)
  · intro i hi
    rw [Finset.mem_filter] at hi ⊢
    exact ⟨hi.1, ReflTransGen.head hx hi.2⟩
  · refine ⟨⟨h.index, lt_size_of_holds hx⟩, Finset.mem_filter.2 ⟨Finset.mem_univ _, .refl⟩, ?_⟩
    rw [Finset.mem_filter]
    rintro ⟨_, hi⟩
    exact hc (TransGen.head' hx hi)

/-! ## 2. Coherent parts -/

/-- Whether the parent link of a node leads to another. -/
def Up (t : Tree) (child parent : NodeId) : Prop :=
  ∃ n, t.get? child = some n ∧ n.parent = some parent

theorem up_unique (hx : t.Up h x) (hy : t.Up h y) : x = y := by
  obtain ⟨n, hn, hx⟩ := hx
  obtain ⟨k, hk, hy⟩ := hy
  rw [hn] at hk
  cases hk
  rw [hx] at hy
  exact Option.some.inj hy

/-- A part of a tree in which slots and parent links say the same, no slot is
used twice, and nothing is below itself. -/
structure Coherent (t : Tree) (V : NodeId → Prop) : Prop where
  acyclic : ∀ x, V x → ¬TransGen t.Holds x x
  once : ∀ h n, V h → t.get? h = some n → n.shape.children.Nodup
  down : ∀ h x, V h → t.Holds h x → V x ∧ t.Up x h
  up : ∀ x p, V x → t.Up x p → V p ∧ t.Holds p x

variable {p : Option NodeId} {T : Term NodeId} {V : NodeId → Prop}

theorem Coherent.reaches_of_up (hc : t.Coherent V) (hx : V x) (hup : ReflTransGen t.Up x y) :
    V y ∧ t.Reaches y x := by
  induction hup with
  | refl => exact ⟨hx, .refl⟩
  | tail _ hyz ih =>
    obtain ⟨hz, hholds⟩ := hc.up _ _ ih.1 hyz
    exact ⟨hz, ReflTransGen.head hholds ih.2⟩

/-! ## 3. The terms of a coherent part -/

/-- Below a node are the labels of its term. -/
theorem Shows.reaches (hT : t.Shows p T) (hx : x ∈ T.labels) : t.Reaches T.label x := by
  induction hT with
  | @mk p n s span node _ ih =>
    rw [Term.labels_mk] at hx
    rcases List.mem_cons.1 hx with rfl | hx
    · exact .refl
    · obtain ⟨c, hc, hx⟩ := List.mem_flatMap.1 hx
      refine ReflTransGen.head ⟨_, node, ?_⟩ (ih c hc hx)
      rw [Shape.children_map]
      exact List.mem_map_of_mem hc

/-- Every node of a term has a term of its own, which is part of it. -/
theorem Shows.exists_subterm (hT : t.Shows p T) (hx : x ∈ T.labels) :
    ∃ q S, t.Shows q S ∧ S.label = x ∧ S.labels.Sublist T.labels := by
  induction hT with
  | @mk p n s span node below ih =>
    rw [Term.labels_mk] at hx
    rcases List.mem_cons.1 hx with rfl | hx
    · exact ⟨p, _, .mk node below, rfl, .refl _⟩
    · obtain ⟨c, hc, hx⟩ := List.mem_flatMap.1 hx
      obtain ⟨q, S, hS, hl, hsub⟩ := ih c hc hx
      refine ⟨q, S, hS, hl, hsub.trans ?_⟩
      rw [Term.labels_mk]
      exact (List.sublist_flatten_of_mem (List.mem_map_of_mem hc)).cons n

theorem Shows.mem_of_reaches (hT : t.Shows p T) (hx : t.Reaches T.label x) : x ∈ T.labels := by
  induction hx with
  | refl => exact T.label_mem_labels
  | tail _ hyz ih =>
    obtain ⟨q, S, hS, rfl, hsub⟩ := hT.exists_subterm ih
    obtain ⟨span, hget⟩ := hS.get?
    rw [holds_iff hget, Shape.children_map] at hyz
    obtain ⟨c, hc, rfl⟩ := List.mem_map.1 hyz
    exact hsub.subset (Term.mem_labels_of_child hc c.label_mem_labels)

/-- From a node of a term, parent links lead up to the top. -/
theorem Shows.up (hT : t.Shows p T) (hx : x ∈ T.labels) : ReflTransGen t.Up x T.label := by
  induction hT with
  | @mk p n s span node below ih =>
    rw [Term.labels_mk] at hx
    rcases List.mem_cons.1 hx with rfl | hx
    · exact .refl
    · obtain ⟨c, hc, hx⟩ := List.mem_flatMap.1 hx
      obtain ⟨span', hget⟩ := (below c hc).get?
      exact (ih c hc hx).tail ⟨_, hget, rfl⟩

namespace Coherent

/-- Two children of one node have nothing below them in common: two ways down
to a node would be two ways up from it. -/
theorem disjoint_labels (hc : t.Coherent V) (hh : V h) {S S' : Term NodeId}
    (hS : t.Shows (some h) S) (hS' : t.Shows (some h) S') (hholds : t.Holds h S.label)
    (hholds' : t.Holds h S'.label) (hne : S.label ≠ S'.label) :
    List.Disjoint S.labels S'.labels := by
  -- one of the two would be above the other, and so below itself
  have habove : ∀ {A B : Term NodeId}, t.Shows (some h) A → t.Holds h B.label →
      A.label ≠ B.label → ¬ReflTransGen t.Up A.label B.label := by
    intro A B hA hhB hAB hup
    rcases ReflTransGen.cases_head hup with heq | ⟨z, hz, hup⟩
    · exact hAB heq
    · obtain ⟨span, hget⟩ := hA.get?
      obtain rfl := up_unique hz ⟨_, hget, rfl⟩
      exact hc.acyclic _ hh (TransGen.head' hhB (hc.reaches_of_up hh hup).2)
  have huniq : Relator.RightUnique t.Up := fun _ _ _ => up_unique
  intro x hx hx'
  rcases ReflTransGen.total_of_right_unique huniq (hS.up hx) (hS'.up hx') with hup | hup
  · exact habove hS hholds' hne hup
  · exact habove hS' hholds hne.symm hup

theorem nodup_labels (hc : t.Coherent V) (hT : t.Shows p T) (hV : V T.label) : T.labels.Nodup := by
  induction hT with
  | @mk p n s span node below ih =>
    have hholds : ∀ c ∈ s.children, t.Holds n c.label := by
      intro c hc
      refine ⟨_, node, ?_⟩
      rw [Shape.children_map]
      exact List.mem_map_of_mem hc
    have hchildren : (s.children.map Term.label).Nodup := by
      rw [← Shape.children_map]
      exact hc.once n _ hV node
    rw [Term.labels_mk, List.nodup_cons, List.nodup_flatMap]
    refine ⟨?_, fun c hc' => ih c hc' (hc.down n _ hV (hholds c hc')).1, ?_⟩
    · intro hn
      obtain ⟨c, hc', hn⟩ := List.mem_flatMap.1 hn
      exact hc.acyclic n hV (TransGen.head' (hholds c hc') ((below c hc').reaches hn))
    · refine (List.pairwise_map.1 hchildren).imp_of_mem ?_
      intro c c' hc₁ hc₂ hne
      exact hc.disjoint_labels hV (below c hc₁) (below c' hc₂) (hholds c hc₁) (hholds c' hc₂) hne

/-- A node of a coherent part is shown as a term with no node twice. -/
theorem exists_shows (hc : t.Coherent V) (hx : V x) (hn : t.get? x = some n) :
    ∃ T, t.Shows n.parent T ∧ T.label = x ∧ T.labels.Nodup := by
  have hterm : ∃ T, t.Shows n.parent T ∧ T.label = x := by
    induction hk : t.rank x using Nat.strong_induction_on generalizing x n with
    | _ k ih =>
      have hchild : ∀ c, ∃ S : Term NodeId,
          c ∈ n.shape.children → t.Shows (some x) S ∧ S.label = c := by
        intro c
        by_cases hmem : c ∈ n.shape.children
        · have hholds : t.Holds x c := ⟨n, hn, hmem⟩
          obtain ⟨hV, m, hm, hp⟩ := hc.down x c hx hholds
          have hlt : t.rank c < k := hk ▸ rank_lt_of_holds hholds (hc.acyclic x hx)
          obtain ⟨S, hS, hl⟩ := ih _ hlt hV hm rfl
          exact ⟨S, fun _ => ⟨hp ▸ hS, hl⟩⟩
        · exact ⟨.mk c .emptyStatement, fun h => absurd h hmem⟩
      choose g hg using hchild
      have hshape : (n.shape.map g).map Term.label = n.shape := by
        rw [Shape.map_map]
        exact (Shape.map_congr (g := id) fun c hc => (hg c hc).2).trans (Shape.map_id _)
      refine ⟨.mk x (n.shape.map g), .mk (by rw [hn, hshape]) ?_, rfl⟩
      intro S hS
      rw [Shape.children_map] at hS
      obtain ⟨c, hc, rfl⟩ := List.mem_map.1 hS
      exact (hg c hc).1
  obtain ⟨T, hT, rfl⟩ := hterm
  exact ⟨T, hT, rfl, hc.nodup_labels hT hx⟩

end Coherent

/-! ## 4. Rooted trees -/

/-- The part of a tree that can be reached from its root, a source file
without a parent, is a tree: no node is below itself, and each node but the
root stands in one slot of one node, which is its parent. -/
structure Rooted (t : Tree) (r : NodeId) : Prop where
  root : t.root = some r
  top : ∃ n statements, t.get? r = some n ∧ n.shape = .sourceFile statements ∧ n.parent = none
  acyclic : ∀ x, t.Reaches r x → ¬TransGen t.Holds x x
  held : ∀ x, t.Reaches r x → x ≠ r → ∃ h n k,
    t.Reaches r h ∧ t.get? h = some n ∧ n.shape.children.count x = 1 ∧
      t.get? x = some k ∧ k.parent = some h ∧
      ∀ h', t.Reaches r h' → t.Holds h' x → h' = h

namespace Rooted

theorem ne_root_of_holds (hr : t.Rooted r) (hh : t.Reaches r h) (hx : t.Holds h x) : x ≠ r := by
  rintro rfl
  exact hr.acyclic x .refl (TransGen.tail' hh hx)

/-- What can be reached in a rooted tree is coherent. -/
theorem coherent (hr : t.Rooted r) : t.Coherent (t.Reaches r) where
  acyclic := hr.acyclic
  once h n hh hn := by
    refine List.nodup_iff_count_le_one.2 fun x => ?_
    by_cases hx : x ∈ n.shape.children
    · have hholds : t.Holds h x := ⟨n, hn, hx⟩
      obtain ⟨h', n', _, _, hn', hcount, _, _, huniq⟩ :=
        hr.held x (hh.trans_holds hholds) (hr.ne_root_of_holds hh hholds)
      obtain rfl := huniq h hh hholds
      rw [hn] at hn'
      cases hn'
      exact Nat.le_of_eq hcount
    · rw [List.count_eq_zero_of_not_mem hx]
      exact Nat.zero_le 1
  down h x hh hx := by
    obtain ⟨h', _, k, _, _, _, hk, hp, huniq⟩ :=
      hr.held x (hh.trans_holds hx) (hr.ne_root_of_holds hh hx)
    obtain rfl := huniq h hh hx
    exact ⟨hh.trans_holds hx, k, hk, hp⟩
  up x p hx hup := by
    obtain ⟨n, hn, hp⟩ := hup
    by_cases hxr : x = r
    · subst hxr
      obtain ⟨k, _, hk, _, htop⟩ := hr.top
      rw [hn] at hk
      cases hk
      rw [hp] at htop
      cases htop
    · obtain ⟨h, m, k, hh, hm, hcount, hk, hkp, _⟩ := hr.held x hx hxr
      rw [hn] at hk
      cases hk
      rw [hp] at hkp
      cases hkp
      exact ⟨hh, m, hm, List.count_pos_iff.1 (by omega)⟩

/-- A rooted tree presents a term. -/
theorem exists_presents (hr : t.Rooted r) : ∃ T, t.Presents none T ∧ T.label = r := by
  obtain ⟨n, statements, hn, hs, hp⟩ := hr.top
  obtain ⟨T, hT, rfl, hnodup⟩ := hr.coherent.exists_shows .refl hn
  rw [hp] at hT
  obtain ⟨span, hget⟩ := hT.get?
  rw [hn] at hget
  have hmap : T.shape.map Term.label = n.shape := (congrArg Node.shape (Option.some.inj hget)).symm
  refine ⟨T, ⟨hr.root, ?_, hT, hnodup⟩, rfl⟩
  rw [← Shape.bare_map Term.label T.shape, hmap, hs]
  rfl

end Rooted

/-! ## 5. The tree of a term -/

theorem Shows.acyclic (hT : t.Shows p T) (hnodup : T.labels.Nodup) (hx : x ∈ T.labels) :
    ¬TransGen t.Holds x x := by
  intro hcycle
  obtain ⟨c, hc, hcx⟩ := TransGen.head'_iff.1 hcycle
  obtain ⟨q, S, hS, rfl, hsub⟩ := hT.exists_subterm hx
  obtain ⟨span, hget⟩ := hS.get?
  rw [holds_iff hget, Shape.children_map] at hc
  obtain ⟨C, hC, rfl⟩ := List.mem_map.1 hc
  have hin := (hS.child hC).mem_of_reaches hcx
  have := hnodup.sublist hsub
  rw [Term.labels_eq, List.nodup_cons] at this
  exact this.1 (List.mem_flatMap.2 ⟨C, hC, hin⟩)

/-- Every node of a term but the topmost is the child of another. -/
theorem Shows.exists_holder (hT : t.Shows p T) (hx : x ∈ T.labels) (hne : x ≠ T.label) :
    ∃ q S, t.Shows q S ∧ S.labels.Sublist T.labels ∧ ∃ c ∈ S.shape.children, c.label = x := by
  induction hT with
  | @mk p n s span node below ih =>
    rw [Term.labels_mk] at hx
    obtain ⟨c, hc, hx⟩ := List.mem_flatMap.1 ((List.mem_cons.1 hx).resolve_left hne)
    by_cases hcx : x = c.label
    · exact ⟨p, _, .mk node below, .refl _, c, hc, hcx.symm⟩
    · obtain ⟨q, S, hS, hsub, hchild⟩ := ih c hc hx hcx
      refine ⟨q, S, hS, hsub.trans ?_, hchild⟩
      rw [Term.labels_mk]
      exact (List.sublist_flatten_of_mem (List.mem_map_of_mem hc)).cons n

/-- A tree that presents a term is rooted, if its root has no parent. -/
theorem Presents.rooted (h : t.Presents none T) : t.Rooted T.label where
  root := h.root
  top := by
    obtain ⟨span, hget⟩ := h.shows.get?
    obtain ⟨statements, hs⟩ := Shape.bare_eq_sourceFile.1 h.file
    exact ⟨_, _, hget, by rw [hs]; rfl, rfl⟩
  acyclic x hx := h.shows.acyclic h.nodup (h.shows.mem_of_reaches hx)
  held x hx hne := by
    have hT := h.shows
    have hnodup := h.nodup
    obtain ⟨q, S, hS, hsub, C, hC, rfl⟩ := hT.exists_holder (hT.mem_of_reaches hx) hne
    obtain ⟨span, hget⟩ := hS.get?
    obtain ⟨span', hget'⟩ := (hS.child hC).get?
    have hmem : C.label ∈ (S.shape.map Term.label).children := by
      rw [Shape.children_map]
      exact List.mem_map_of_mem hC
    refine ⟨S.label, _, _, hT.reaches (hsub.subset S.label_mem_labels), hget, ?_, hget', rfl, ?_⟩
    · refine List.count_eq_one_of_mem ?_ hmem
      rw [Shape.children_map]
      exact Term.nodup_children (hnodup.sublist hsub)
    · intro h' hh' hholds
      obtain ⟨q', S', hS', rfl, _⟩ := hT.exists_subterm (hT.mem_of_reaches hh')
      obtain ⟨span'', hget''⟩ := hS'.get?
      rw [holds_iff hget'', Shape.children_map] at hholds
      obtain ⟨C', hC', hl⟩ := List.mem_map.1 hholds
      obtain ⟨_, hc⟩ := (hS'.child hC').get?
      rw [hl, hget'] at hc
      injection hc with hc
      injection hc with _ hp
      injection hp with hp
      exact hp.symm

end ScriptReduce.Tree
