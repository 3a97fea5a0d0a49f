/-
ScriptReduce.Proofs.Tree.WellFormed: well-formed trees, and what moves keep.

In a well-formed tree no node is below itself, each node stands in the one
slot that its parent link leads to, and `if` statements stand among
statements. Whether a tree is so can be checked if its nodes come after their
children (`Tree.Built`). A run does not keep all of this: an `if` statement that was
decided has no parent, and goes on holding a branch that is now somewhere
else. What is kept is that slots and parent links agree wherever the holder has
not been taken out (`Tree.Joined`); from there a node has one way up, as in a
tree. `Tree.Orderly` says the same, and of what an `if` statement without a parent
holds that these are branches.

`Moves` are the ways in which a node gives up its slot: to a new leaf, to a
branch of its own, or to nothing. They keep a tree orderly as long as the
holder itself has not been taken out (`Live`).
-/
import ScriptReduce.Proofs.Tree.Graded

namespace ScriptReduce

open ScriptReduce.Tree

variable {t t' : Tree}

/-! ## 1. Well-formed trees -/

theorem Tree.inside_of_root {r : NodeId} (h : ∃ r n statements, t.root = some r ∧
    t.get? r = some n ∧ n.shape = .sourceFile statements) (hr : t.root = some r) :
    t.Inside Everywhere r := by
  obtain ⟨_, n, _, hr', hn, _⟩ := h
  obtain rfl := Option.some.inj (hr.symm.trans hr')
  exact ⟨trivial, lt_size_of_get? hn⟩

/-- Two nodes that one node holds have nothing below them in common, if no two
nodes below that hold the same. -/
theorem Tree.Acyclic.disjoint {g x y z : NodeId} (ha : t.Acyclic)
    (honly : ∀ p q z, t.Reaches g p → t.Reaches g q → t.Holds p z → t.Holds q z → p = q)
    (hx : t.Holds g x) (hy : t.Holds g y) (hne : x ≠ y) (hxz : t.Reaches x z) :
    ¬t.Reaches y z := by
  have hcycle : ∀ {u : NodeId}, t.Holds g u → ¬t.Reaches u g := fun hu hug =>
    ha g (Relation.TransGen.head' hu hug)
  intro hyz
  induction hxz with
  | refl =>
    rcases Relation.ReflTransGen.cases_tail hyz with heq | ⟨p, hyp, hpx⟩
    · exact hne heq
    · obtain rfl := honly p g x (.head hy hyp) .refl hpx hx
      exact hcycle hy hyp
  | @tail p z hxp hpz ih =>
    rcases Relation.ReflTransGen.cases_tail hyz with rfl | ⟨q, hyq, hqz⟩
    · obtain rfl := honly p g z (.head hx hxp) .refl hpz hy
      exact hcycle hx hxp
    · obtain rfl := honly p q z (.head hx hxp) (.head hy hyq) hpz hqz
      exact ih hyq

/-- A tree that hangs together: no node is below itself, each stands in at most
one slot, that of the node its parent link leads to, and the root is a source
file. -/
structure Tree.Consistent (t : Tree) : Prop where
  acyclic : t.Acyclic
  children : ∀ h x, t.Holds h x → x.index < t.size
  once : ∀ h n, t.get? h = some n → n.shape.children.Nodup
  parent : ∀ x n p, t.get? x = some n → (n.parent = some p ↔ t.Holds p x)
  root : ∃ r n statements, t.root = some r ∧ t.get? r = some n ∧ n.shape = .sourceFile statements

namespace Tree.Consistent

theorem closed (h : t.Consistent) : t.Closed Everywhere where
  children g x _ hx := ⟨trivial, h.children g x hx⟩
  parents x n p _ hn hp := ⟨trivial, lt_size_of_holds ((h.parent x n p hn).1 hp)⟩

theorem graded (h : t.Consistent) : t.Graded Everywhere t.rank t.size :=
  h.acyclic.graded h.closed

theorem coherent (h : t.Consistent) : t.Coherent Everywhere where
  acyclic x _ := h.acyclic x
  once g n _ hn := h.once g n hn
  down g x _ hx := by
    obtain ⟨n, hn⟩ := exists_get? (h.children g x hx)
    exact ⟨trivial, n, hn, (h.parent x n g hn).2 hx⟩
  up x p _ := by
    rintro ⟨n, hn, hp⟩
    exact ⟨trivial, (h.parent x n p hn).1 hp⟩

/-- Such a tree presents a term. -/
theorem exists_presents (h : t.Consistent) : ∃ p T, t.Presents p T := by
  obtain ⟨r, n, statements, hr, hn, hs⟩ := h.root
  obtain ⟨T, hT, rfl, hnodup⟩ := h.coherent.exists_shows trivial hn
  obtain ⟨span, hget⟩ := hT.get?
  rw [hn] at hget
  have hmap : T.shape.map Term.label = n.shape := (congrArg Node.shape (Option.some.inj hget)).symm
  refine ⟨_, T, hr, ?_, hT, hnodup⟩
  rw [← Shape.bare_map Term.label T.shape, hmap, hs]
  rfl

section

variable {s x y : NodeId}

theorem holder_eq {p q : NodeId} (h : t.Consistent) (hp : t.Holds p x) (hq : t.Holds q x) :
    p = q := by
  obtain ⟨n, hn⟩ := exists_get? (h.children p x hp)
  have hpar := (h.parent x n p hn).2 hp
  rw [(h.parent x n q hn).2 hq] at hpar
  exact (Option.some.inj hpar).symm

theorem not_reaches_of_holds (h : t.Consistent) (hy : t.Holds x y) : ¬t.Reaches y x := fun hyx =>
  h.acyclic x (Relation.TransGen.head' hy hyx)

/-- What is above a node but the node itself is above its holder. -/
theorem reaches_holder (h : t.Consistent) (hx : t.Reaches s x) (hne : s ≠ x) (hy : t.Holds y x) :
    t.Reaches s y := by
  rcases Relation.ReflTransGen.cases_tail hx with heq | ⟨p, hsp, hpx⟩
  · exact absurd heq.symm hne
  · rwa [h.holder_eq hpx hy] at hsp

end

end Tree.Consistent

/-- A well-formed tree: it hangs together, and `if` statements stand among
statements. -/
structure Tree.WellFormed (t : Tree) : Prop where
  acyclic : t.Acyclic
  children : ∀ h x, t.Holds h x → x.index < t.size
  once : ∀ h n, t.get? h = some n → n.shape.children.Nodup
  parent : ∀ x n p, t.get? x = some n → (n.parent = some p ↔ t.Holds p x)
  root : ∃ r n statements, t.root = some r ∧ t.get? r = some n ∧ n.shape = .sourceFile statements
  branches : ∀ h n q x c a b, t.get? h = some n → (q, x) ∈ n.shape.spots →
    t.shape x = .ok (.branch c a b) → q.isStatement = true

theorem Tree.WellFormed.consistent (h : t.WellFormed) : t.Consistent :=
  ⟨h.acyclic, h.children, h.once, h.parent, h.root⟩

theorem Tree.WellFormed.closed (h : t.WellFormed) : t.Closed Everywhere := h.consistent.closed

theorem Tree.WellFormed.graded (h : t.WellFormed) : t.Graded Everywhere t.rank t.size :=
  h.consistent.graded

theorem Tree.WellFormed.exists_presents (h : t.WellFormed) : ∃ p T, t.Presents p T :=
  h.consistent.exists_presents

/-- A well-formed tree whose root has no parent is rooted. -/
theorem Tree.WellFormed.rooted (h : t.WellFormed) {r : NodeId} (hr : t.root = some r)
    (hp : t.parent r = .ok none) : t.Rooted r := by
  obtain ⟨p, T, hT⟩ := h.exists_presents
  obtain rfl : T.label = r := Option.some.inj (hT.root.symm.trans hr)
  obtain ⟨span, hget⟩ := hT.shows.get?
  rw [parent_of_get? hget] at hp
  cases hp
  exact hT.rooted

/-- What can be checked of a tree that was built from its leaves upwards. -/
structure Tree.Built (t : Tree) : Prop where
  once : ∀ i : Fin t.nodes.size, (t.nodeAt i).shape.children.Nodup
  earlier : ∀ i : Fin t.nodes.size, ∀ x ∈ (t.nodeAt i).shape.children, x.index < i
  linked : ∀ i : Fin t.nodes.size, ∀ x ∈ (t.nodeAt i).shape.children,
    t.parent x = .ok (some ⟨i⟩)
  held : ∀ i : Fin t.nodes.size, ∀ p ∈ (t.nodeAt i).parent.toList, ∃ h : Fin t.nodes.size,
    p = ⟨h⟩ ∧ ⟨i⟩ ∈ (t.nodeAt h).shape.children
  root : ∃ r : Fin t.nodes.size, t.root = some ⟨r⟩ ∧ (t.nodeAt r).shape.bare = .sourceFile []
  branches : ∀ i : Fin t.nodes.size, ∀ e ∈ (t.nodeAt i).shape.spots, e.1.isStatement = false →
    ∀ k : Fin t.nodes.size, e.2 = ⟨k⟩ → (t.nodeAt k).shape.bare ≠ .branch () () none

theorem Tree.Built.layered (h : t.Built) : t.Layered where
  earlier := h.earlier
  parents i p hp := by
    obtain ⟨g, rfl, _⟩ := h.held i p hp
    exact g.isLt

/-- A tree in which each node comes after its children is well-formed, if
slots and parent links agree. -/
theorem Tree.Built.wellFormed (h : t.Built) : t.WellFormed := by
  have hnode : ∀ i : Fin t.nodes.size, t.get? ⟨i⟩ = some (t.nodeAt i) := fun i =>
    Array.getElem?_eq_getElem i.isLt
  refine ⟨h.layered.acyclic, fun g x hx => (h.layered.closed.children g x trivial hx).2,
    fun g n hn => ?_, fun x n p hn => ?_, ?_, ?_⟩
  · obtain ⟨i, rfl, rfl⟩ := exists_fin hn
    exact h.once i
  · obtain ⟨i, rfl, rfl⟩ := exists_fin hn
    constructor
    · intro hp
      obtain ⟨g, rfl, hg⟩ := h.held i p (Option.mem_toList.2 hp)
      exact ⟨_, hnode g, hg⟩
    · rintro ⟨m, hm, hx⟩
      obtain ⟨g, rfl, rfl⟩ := exists_fin hm
      obtain ⟨k, hk, hp⟩ := parent_eq_ok.1 (h.linked g _ hx)
      rw [hn] at hk
      cases hk
      exact hp
  · obtain ⟨r, hr, hb⟩ := h.root
    obtain ⟨statements, hs⟩ := Shape.bare_eq_sourceFile.1 hb
    exact ⟨_, _, statements, hr, hnode r, hs⟩
  · intro g n q x c a b hn hx hs
    obtain ⟨i, rfl, rfl⟩ := exists_fin hn
    obtain ⟨m, hm, hshape⟩ := shape_eq_ok.1 hs
    obtain ⟨k, rfl, rfl⟩ := exists_fin hm
    by_contra hq
    refine h.branches i (q, _) hx (by simpa using hq) k rfl ?_
    rw [hshape]
    rfl

/-! ## 2. Orderly trees -/

/-- An `if` statement without a parent was taken out of the tree. It may still
hold the branch that took its place. -/
def Live (t : Tree) (id : NodeId) : Prop :=
  ∀ n c a b, t.get? id = some n → n.shape = .branch c a b → n.parent ≠ none

/-- A holder stays in the tree as long as its kind and its parent stay. -/
theorem Live.of_holder {p : NodeId} {n n' : Node} (h : Live t p) (hn : t.get? p = some n)
    (hn' : t'.get? p = some n') (hb : n'.shape.bare = n.shape.bare) (hp : n'.parent = n.parent) :
    Live t' p := by
  intro k c a b hk hs
  rw [hn'] at hk
  cases hk
  rw [hs] at hb
  obtain ⟨c', a', b', hshape⟩ := Shape.bare_eq_branch.1 hb.symm
  rw [hp]
  exact h n c' a' b' hn hshape

/-- A node with a parent has not been taken out. -/
theorem Tree.Up.live {p x : NodeId} (h : t.Up x p) : Live t x := by
  obtain ⟨n, hn, hp⟩ := h
  intro k _ _ _ hk _
  rw [hn] at hk
  cases hk
  rw [hp]
  exact Option.some_ne_none p

/-- Slots and parent links agree for all holders that have not been taken out, and
none of these holds a node twice. -/
structure Tree.Joined (t : Tree) : Prop where
  once : ∀ h n, Live t h → t.get? h = some n → n.shape.children.Nodup
  up : ∀ h x, Live t h → t.Holds h x → t.Up x h

theorem Tree.Consistent.joined (h : t.Consistent) : t.Joined where
  once g n _ := h.once g n
  up g x _ hx := (h.coherent.down g x trivial hx).2

namespace Tree.Joined

variable {a g p x y z : NodeId}

/-- What is below a node that has not been taken out has not been taken out. -/
theorem live_of_reaches (hj : t.Joined) (ha : Live t a) (hx : t.Reaches a x) : Live t x := by
  induction hx with
  | refl => exact ha
  | tail _ hyx ih => exact (hj.up _ _ ih hyx).live

theorem up_of_reaches (hj : t.Joined) (ha : Live t a) (hp : t.Reaches a p) (hx : t.Holds p x) :
    t.Up x p :=
  hj.up p x (hj.live_of_reaches ha hp) hx

/-- Two nodes that such a node holds have nothing below them in common. -/
theorem disjoint (hj : t.Joined) (ha : t.Acyclic) (hg : Live t g) (hx : t.Holds g x)
    (hy : t.Holds g y) (hne : x ≠ y) (hxz : t.Reaches x z) : ¬t.Reaches y z :=
  ha.disjoint (fun _ _ _ hp hq hpz hqz =>
    up_unique (hj.up_of_reaches hg hp hpz) (hj.up_of_reaches hg hq hqz)) hx hy hne hxz

/-- A leaf may be added. -/
theorem push (hj : t.Joined) {s : Shape NodeId} (hs : s.IsLeaf) :
    (t.push ⟨s, none, none⟩).Joined where
  once g n hlive hn := by
    by_cases hg : g = t.next
    · subst hg
      rw [get?_push_next] at hn
      cases hn
      rw [hs.children]
      exact List.nodup_nil
    · rw [get?_push_of_ne hg] at hn
      exact hj.once g n (fun k _ _ _ hk => hlive k _ _ _ ((get?_push_of_ne hg).trans hk)) hn
  up g x hlive hx := by
    have hx := (holds_push hs.children).1 hx
    have hg : g ≠ t.next := ne_next (lt_size_of_holds hx)
    obtain ⟨n, hn, hp⟩ :=
      hj.up g x (fun k _ _ _ hk => hlive k _ _ _ ((get?_push_of_ne hg).trans hk)) hx
    exact ⟨n, (get?_push_of_ne (ne_next_of_get? hn)).trans hn, hp⟩

end Tree.Joined

/-- Slots and parent links agree, but for the branches of an `if` statement
that was taken out. No node holds another twice. -/
structure Tree.Orderly (t : Tree) : Prop where
  once : ∀ h n, t.get? h = some n → n.shape.children.Nodup
  linked : ∀ h n q x, t.get? h = some n → (q, x) ∈ n.shape.spots →
    t.Up x h ∨ ¬Live t h ∧ q.isStatement = true
  branches : ∀ h n q x c a b, t.get? h = some n → (q, x) ∈ n.shape.spots →
    t.shape x = .ok (.branch c a b) → q.isStatement = true

theorem Tree.WellFormed.orderly (h : t.WellFormed) : t.Orderly where
  once := h.once
  linked g n q x hn hx := by
    have hholds : t.Holds g x := ⟨n, hn, Shape.mem_children_of_mem_spots hx⟩
    obtain ⟨k, hk⟩ := exists_get? (h.children g x hholds)
    exact Or.inl ⟨k, hk, (h.parent x k g hk).2 hholds⟩
  branches := h.branches

namespace Tree.Orderly

variable {h x : NodeId} {n : Node} {q : Place}

theorem joined (ho : t.Orderly) : t.Joined where
  once g n _ := ho.once g n
  up g x hlive := by
    rintro ⟨n, hn, hx⟩
    obtain ⟨q, hq⟩ := Shape.mem_children_iff.1 hx
    exact (ho.linked g n q x hn hq).resolve_right fun hdead => hdead.1 hlive

theorem up_of_firm (ho : t.Orderly) (hn : t.get? h = some n) (hx : (q, x) ∈ n.shape.spots)
    (hq : q.isStatement = false) : t.Up x h :=
  (ho.linked h n q x hn hx).resolve_right fun hdead => by
    rw [hq] at hdead
    cases hdead.2

end Tree.Orderly

/-! ## 3. Moves -/

/-- How a node may give up the slot that it has in a holder. -/
inductive Tree.Moves (t : Tree) (holder old : NodeId) : Option NodeId → Tree → Prop where
  /-- To a new leaf. -/
  | leaf {s : Shape NodeId} {t' : Tree} (leaf : s.IsLeaf)
    (relinked : (t.push ⟨s, none, none⟩).Relinked holder old (some t.next) t') :
    Moves t holder old (some t.next) t'
  /-- To a branch of its own. -/
  | branch {c a s : NodeId} {b : Option NodeId} {t' : Tree}
    (shape : t.shape old = .ok (.branch c a b)) (chosen : s = a ∨ b = some s)
    (relinked : t.Relinked holder old (some s) t') : Moves t holder old (some s) t'
  /-- To nothing. -/
  | vacated {n : Node} {t' : Tree} (node : t.get? holder = some n)
    (vacates : n.shape.vacate old ≠ none) (relinked : t.Relinked holder old none t') :
    Moves t holder old none t'

namespace Tree.Moves

variable {holder old y : NodeId} {new : Option NodeId} {n n' : Node}

/-- What becomes of the nodes that were there. -/
theorem get?_of_some (hm : t.Moves holder old new t') (hn : t.get? y = some n) :
    t'.get? y = some (relink holder old new y n) := by
  cases hm with
  | leaf _ relinked =>
    rw [relinked.get, get?_push_of_ne (ne_next_of_get? hn), hn]
    rfl
  | branch _ _ relinked | vacated _ _ relinked =>
    rw [relinked.get, hn]
    rfl

/-- What is new takes the slot. -/
theorem get?_of_none (hm : t.Moves holder old new t') (hl : t.Linked holder old)
    (hn : t.get? y = none) (hn' : t'.get? y = some n') :
    new = some y ∧ n'.shape.IsLeaf := by
  cases hm with
  | @leaf s _ hs relinked =>
    rw [relinked.get, get?_push] at hn'
    split at hn'
    · rename_i hy
      cases hn'
      obtain ⟨k, hk, _⟩ := hl.1
      have hyh : y ≠ holder := by
        rintro rfl
        rw [hn] at hk
        cases hk
      exact ⟨by rw [hy], by simpa [relink, hyh] using hs⟩
    · rw [hn] at hn'
      cases hn'
  | branch _ _ relinked | vacated _ _ relinked =>
    rw [relinked.get, hn] at hn'
    cases hn'

theorem exchanges (hm : t.Moves holder old new t') (hn : t.get? holder = some n) :
    new = none → n.shape.vacate old ≠ none := by
  cases hm with
  | leaf | branch => simp
  | vacated node vacates =>
    rw [hn] at node
    cases node
    exact fun _ => vacates

/-- Whatever keeps its slot is held as before, and the holder holds what takes the
slot that is given up. -/
theorem holds_of (hm : t.Moves holder old new t') (hl : t.Linked holder old) :
    (∀ g x, t.Holds g x → x ≠ old → t'.Holds g x) ∧ ∀ m, new = some m → t'.Holds holder m := by
  cases hm with
  | leaf leaf relinked =>
    obtain ⟨hkept, htaken⟩ := relinked.holds_of (hl.push _).1
    exact ⟨fun g x hx => hkept g x ((holds_push leaf.children).2 hx), htaken⟩
  | branch _ _ relinked | vacated _ _ relinked => exact relinked.holds_of hl.1

/-- A node holds what it held before, or what has taken the place of such a node. -/
theorem holds_cases (hm : t.Moves holder old new t') {g x : NodeId} (hx : t'.Holds g x) :
    t.Holds g x ∨ t.Holds g old ∧ new = some x := by
  cases hm with
  | leaf leaf relinked =>
    rcases relinked.holds hx with hx | ⟨_, hnew, hold⟩
    · exact Or.inl ((holds_push leaf.children).1 hx)
    · exact Or.inr ⟨(holds_push leaf.children).1 hold, hnew.symm⟩
  | branch _ _ relinked | vacated _ _ relinked =>
    rcases relinked.holds hx with hx | ⟨_, hnew, hold⟩
    · exact Or.inl hx
    · exact Or.inr ⟨hold, hnew.symm⟩

variable {rank : NodeId → Nat} {limit : Nat} {m : NodeId}

/-- What takes the slot is a new leaf, or it was a branch of the node that
gives the slot away. -/
theorem new_cases (hm : t.Moves holder old new t') (hj : t.Joined) (hl : t.Linked holder old)
    (hnew : new = some m) :
    (m = t.next ∧ ∃ k, t'.get? m = some k ∧ k.shape.IsLeaf ∧ k.parent = some holder) ∨
      t.Up m old ∧ ∃ c a b, t.shape old = .ok (.branch c a b) ∧ (m = a ∨ b = some m) := by
  obtain ⟨⟨k, hk, _⟩, n, hn, hp⟩ := hl
  cases hm with
  | @leaf s _ hs relinked =>
    cases hnew
    have hholder : t.next ≠ holder := (ne_next_of_get? hk).symm
    have hold : t.next ≠ old := (ne_next_of_get? hn).symm
    refine Or.inl ⟨rfl, relink holder old (some t.next) t.next ⟨s, none, none⟩, ?_, ?_, ?_⟩
    · rw [relinked.get, get?_push_next]
      rfl
    · simpa [relink, hholder] using hs
    · simp [relink, hold]
  | @branch c a _ b _ shape chosen relinked =>
    cases hnew
    rw [shape_of_get? hn] at shape
    have hs : n.shape = .branch c a b := Except.ok.inj shape
    have hmem : m ∈ n.shape.children := hs ▸ Shape.mem_children_branch chosen
    have hup : t.Up old holder := ⟨n, hn, hp⟩
    exact Or.inr ⟨hj.up old m hup.live ⟨n, hn, hmem⟩, c, a, b, by rw [shape_of_get? hn, hs], chosen⟩
  | vacated => cases hnew

theorem new_ne_old (hm : t.Moves holder old new t') (hj : t.Joined)
    (hg : t.Graded Everywhere rank limit) (hl : t.Linked holder old) (hnew : new = some m) :
    m ≠ old := by
  rintro rfl
  obtain ⟨n, hn, hp⟩ := hl.2
  rcases hm.new_cases hj hl hnew with ⟨rfl, _⟩ | ⟨hup, _⟩
  · exact ne_next_of_get? hn rfl
  · obtain rfl := up_unique hup ⟨n, hn, hp⟩
    exact Nat.lt_irrefl _ (hg.descends _ _ trivial hl.1)

/-- What takes the slot is not held by the holder before. -/
theorem new_not_mem (hm : t.Moves holder old new t') (hj : t.Joined)
    (hg : t.Graded Everywhere rank limit) (hl : t.Linked holder old) (hlive : Live t holder)
    (hn : t.get? holder = some n) (hnew : new = some m) : m ∉ n.shape.children := by
  intro hmem
  rcases hm.new_cases hj hl hnew with ⟨rfl, _⟩ | ⟨hup, _⟩
  · exact absurd (hg.children holder _ trivial ⟨n, hn, hmem⟩).2 (Nat.lt_irrefl _)
  · obtain rfl := up_unique hup (hj.up holder m hlive ⟨n, hn, hmem⟩)
    exact Nat.lt_irrefl _ (hg.descends _ _ trivial hl.1)

/-- What takes the slot has the holder as its parent. -/
theorem up_new (hm : t.Moves holder old new t') (hj : t.Joined)
    (hg : t.Graded Everywhere rank limit) (hl : t.Linked holder old) (hnew : new = some m) :
    t'.Up m holder := by
  have hne := hm.new_ne_old hj hg hl hnew
  rcases hm.new_cases hj hl hnew with ⟨_, k, hk, _, hp⟩ | ⟨⟨n, hn, _⟩, _⟩
  · exact ⟨k, hk, hp⟩
  · exact ⟨_, hm.get?_of_some hn, by simp [relink, hne, hnew]⟩

/-- A parent link that has nothing to do with the slot stays. -/
theorem up_of_up (hm : t.Moves holder old new t') {h : NodeId} (hup : t.Up y h) (hold : y ≠ old)
    (hnew : some y ≠ new) : t'.Up y h := by
  obtain ⟨n, hn, hp⟩ := hup
  exact ⟨_, hm.get?_of_some hn, by simp [relink, hold, hnew, hp]⟩

/-- What gives its slot away has no parent then. -/
theorem not_up_old (hm : t.Moves holder old new t') (hl : t.Linked holder old) {p : NodeId} :
    ¬t'.Up old p := by
  rintro ⟨n', hn', hp⟩
  obtain ⟨n, hn, -⟩ := hl.2
  rw [hm.get?_of_some hn] at hn'
  cases hn'
  simp [relink] at hp

/-- A node that was taken out is not put back. -/
theorem not_live (hm : t.Moves holder old new t') (hj : t.Joined) (hl : t.Linked holder old)
    (hdead : ¬Live t y) : ¬Live t' y := by
  unfold Live at hdead ⊢
  push Not at hdead ⊢
  obtain ⟨n, c, a, b, hn, hs, hp⟩ := hdead
  have hnew : some y ≠ new := by
    intro hnew
    rcases hm.new_cases hj hl hnew.symm with ⟨rfl, _⟩ | ⟨⟨k, hk, hkp⟩, _⟩
    · exact ne_next_of_get? hn rfl
    · rw [hn] at hk
      cases hk
      rw [hp] at hkp
      cases hkp
  have hb := bare_relink holder old new y n
  rw [hs] at hb
  obtain ⟨c', a', b', hs'⟩ := Shape.bare_eq_branch.1 hb
  exact ⟨_, c', a', b', hm.get?_of_some hn, hs', by simp [relink, hnew, hp]⟩

/-- A node that was there keeps its kind. -/
theorem exists_branch (hm : t.Moves holder old new t') (hn : t.get? y = some n) {c a : NodeId}
    {b : Option NodeId} (hs : t'.shape y = .ok (.branch c a b)) :
    ∃ c a b, t.shape y = .ok (.branch c a b) := by
  rw [shape_of_get? (hm.get?_of_some hn)] at hs
  have hb := bare_relink holder old new y n
  rw [Except.ok.inj hs] at hb
  obtain ⟨c, a, b, hshape⟩ := Shape.bare_eq_branch.1 hb.symm
  exact ⟨c, a, b, (shape_of_get? hn).trans (by rw [hshape])⟩

/-- An `if` statement whose branch moves up has been taken out then. -/
theorem not_live_of_up (hm : t.Moves holder old new t') (hj : t.Joined) (hl : t.Linked holder old)
    (hnew : new = some m) (hup : t.Up m y) (hy : y ≠ holder) : ¬Live t' y := by
  rcases hm.new_cases hj hl hnew with ⟨rfl, _⟩ | ⟨hup', c, a, b, hs, _⟩
  · exact absurd hup.choose_spec.1 (fun hget => ne_next_of_get? hget rfl)
  · obtain rfl := up_unique hup hup'
    obtain ⟨n, hn, hs⟩ := shape_eq_ok.1 hs
    intro hlive
    exact hlive _ c a b (hm.get?_of_some hn) (by simp [relink, hy, hs]) (by simp [relink])

/-- Parent links after a move: a node is left behind by its parent only if it takes
the slot. -/
theorem up_cases (hm : t.Moves holder old new t') (hj : t.Joined)
    (hg : t.Graded Everywhere rank limit) (hl : t.Linked holder old) {h : NodeId}
    (hup : t.Up y h) (hne : h = holder → y ≠ old) :
    t'.Up y h ∨ h ≠ holder ∧ new = some y := by
  have hold : y ≠ old := by
    rintro rfl
    exact hne (up_unique hup hl.2) rfl
  by_cases hnew : new = some y
  · by_cases hh : h = holder
    · exact Or.inl (hh ▸ hm.up_new hj hg hl hnew)
    · exact Or.inr ⟨hh, hnew⟩
  · exact Or.inl (hm.up_of_up hup hold (Ne.symm hnew))

/-- The places of what a node holds after a move. -/
theorem spots_cases (hm : t.Moves holder old new t') (hl : t.Linked holder old) {h x : NodeId}
    {q : Place} (honce : ∀ n, t.get? h = some n → n.shape.children.Nodup)
    (hn' : t'.get? h = some n') (hx : (q, x) ∈ n'.shape.spots) :
    (∃ n, t.get? h = some n ∧ (q, x) ∈ n.shape.spots ∧ (h = holder → x ≠ old)) ∨
      h = holder ∧ new = some x ∧ ∃ n, t.get? holder = some n ∧ (q, old) ∈ n.shape.spots := by
  cases hn : t.get? h with
  | none =>
    obtain ⟨_, hleaf⟩ := hm.get?_of_none hl hn hn'
    have := Shape.mem_children_of_mem_spots hx
    rw [hleaf.children] at this
    cases this
  | some n =>
    rw [hm.get?_of_some hn] at hn'
    cases hn'
    by_cases hh : h = holder
    · subst hh
      simp only [relink, if_pos] at hx
      obtain ⟨k, hk, hmem⟩ := hl.1
      rw [hn] at hk
      cases hk
      obtain ⟨p, hold⟩ := Shape.mem_children_iff.1 hmem
      rcases Shape.mem_spots_exchange (honce n hn) hold (hm.exchanges hn) hx with
        ⟨hx, hne⟩ | ⟨hnew, rfl⟩
      · exact Or.inl ⟨n, rfl, hx, fun _ => hne⟩
      · exact Or.inr ⟨rfl, hnew, n, hn, hold⟩
    · simp only [relink, if_neg hh] at hx
      exact Or.inl ⟨n, rfl, hx, fun heq => absurd heq hh⟩

/-- A node holds none twice after a move if it did not before. -/
theorem nodup_children (hm : t.Moves holder old new t') (hj : t.Joined)
    (hg : t.Graded Everywhere rank limit) (hl : t.Linked holder old) {h : NodeId}
    (hlive : h = holder → Live t h)
    (honce : ∀ n, t.get? h = some n → n.shape.children.Nodup) (hn' : t'.get? h = some n') :
    n'.shape.children.Nodup := by
  cases hn : t.get? h with
  | none =>
    obtain ⟨_, hleaf⟩ := hm.get?_of_none hl hn hn'
    rw [hleaf.children]
    exact List.nodup_nil
  | some n =>
    rw [hm.get?_of_some hn] at hn'
    cases hn'
    simp only [relink]
    split
    · rename_i hh
      subst hh
      exact Shape.nodup_exchange (honce n hn) fun m hnew =>
        hm.new_not_mem hj hg hl (hlive rfl) hn hnew
    · exact honce n hn

end Tree.Moves

/-! ## 4. What moves keep -/

section

variable {holder old : NodeId} {new : Option NodeId} {rank : NodeId → Nat} {limit : Nat}

/-- A move keeps a tree joined. -/
theorem Tree.Joined.moves (hj : t.Joined) (hg : t.Graded Everywhere rank limit)
    (hl : t.Linked holder old) (hm : t.Moves holder old new t') : t'.Joined where
  once h n' hlive' hn' := by
    have hlive : Live t h := by_contra fun hdead => hm.not_live hj hl hdead hlive'
    exact hm.nodup_children hj hg hl (fun _ => hlive) (fun n => hj.once h n hlive) hn'
  up h x hlive' := by
    rintro ⟨n', hn', hx⟩
    have hlive : Live t h := by_contra fun hdead => hm.not_live hj hl hdead hlive'
    obtain ⟨q, hq⟩ := Shape.mem_children_iff.1 hx
    rcases hm.spots_cases hl (fun n => hj.once h n hlive) hn' hq with
      ⟨n, hn, hq, hne⟩ | ⟨rfl, hnew, _⟩
    · have hup := hj.up h x hlive ⟨n, hn, Shape.mem_children_of_mem_spots hq⟩
      rcases hm.up_cases hj hg hl hup hne with hup' | ⟨hh, hnew⟩
      · exact hup'
      · exact absurd hlive' (hm.not_live_of_up hj hl hnew hup hh)
    · exact hm.up_new hj hg hl hnew

namespace Tree.Orderly

/-- What moves up from a node that stays out stood at a place for statements. -/
theorem isStatement_of_up (ho : t.Orderly) (hl : t.Linked holder old)
    (hm : t.Moves holder old new t') {h x : NodeId} {n : Node} {q : Place} (hnew : new = some x)
    (hn : t.get? h = some n) (hq : (q, x) ∈ n.shape.spots) (hup : t.Up x h) :
    q.isStatement = true := by
  rcases hm.new_cases ho.joined hl hnew with ⟨rfl, _⟩ | ⟨hup', c, a, b, hs, hchosen⟩
  · exact absurd hup.choose_spec.1 (fun hget => ne_next_of_get? hget rfl)
  · obtain rfl := up_unique hup hup'
    rw [shape_of_get? hn] at hs
    have hspot : ∃ p, (p, x) ∈ n.shape.spots ∧ p.isStatement = true := by
      rw [Except.ok.inj hs]
      rcases hchosen with rfl | rfl
      · exact ⟨.body, by simp [Shape.spots], rfl⟩
      · exact ⟨.statement, by simp [Shape.spots], rfl⟩
    obtain ⟨p, hp, hstatement⟩ := hspot
    rwa [Shape.place_unique (ho.once h n hn) hq hp]

/-- A move keeps a tree orderly, if the holder has not been taken out. -/
theorem moves (ho : t.Orderly) (hg : t.Graded Everywhere rank limit) (hl : t.Linked holder old)
    (hlive : Live t holder) (hm : t.Moves holder old new t') : t'.Orderly where
  once h n' := hm.nodup_children ho.joined hg hl (fun heq => heq ▸ hlive) (ho.once h)
  linked h n' q x hn' hx := by
    have hj := ho.joined
    rcases hm.spots_cases hl (ho.once h) hn' hx with ⟨n, hn, hx, hne⟩ | ⟨rfl, hnew, _⟩
    · rcases ho.linked h n q x hn hx with hup | ⟨hdead, hq⟩
      · rcases hm.up_cases hj hg hl hup hne with hup' | ⟨hh, hnew⟩
        · exact Or.inl hup'
        · exact Or.inr ⟨hm.not_live_of_up hj hl hnew hup hh,
            ho.isStatement_of_up hl hm hnew hn hx hup⟩
      · exact Or.inr ⟨hm.not_live hj hl hdead, hq⟩
    · exact Or.inl (hm.up_new hj hg hl hnew)
  branches h n' q x c a b hn' hx hs := by
    rcases hm.spots_cases hl (ho.once h) hn' hx with ⟨n, hn, hx, _⟩ | ⟨rfl, hnew, n, hn, hold⟩
    · obtain ⟨k, hk⟩ :=
        exists_get? (hg.children h x trivial ⟨n, hn, Shape.mem_children_of_mem_spots hx⟩).2
      obtain ⟨c', a', b', hs'⟩ := hm.exists_branch hk hs
      exact ho.branches h n q x c' a' b' hn hx hs'
    · rcases hm.new_cases ho.joined hl hnew with ⟨_, k, hk, hleaf, _⟩ | ⟨_, c', a', b', hs', _⟩
      · rw [shape_of_get? hk] at hs
        rcases hleaf with ⟨l, hl⟩ | hl <;> rw [hl] at hs <;> cases hs
      · exact ho.branches h n q old c' a' b' hn hold hs'

end Tree.Orderly

end

end ScriptReduce
