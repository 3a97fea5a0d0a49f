/-
ScriptReduce.Proofs.Tree.Edit: what an edit does to a tree.

A tree is looked at through `get?`, which gives the node stored for an
identifier. Every edit comes down to two changes, and each is described once,
by what it does to `get?`: `push` adds a node behind all others, and
`Relinked` says that one slot was given from one node to another, or emptied,
with the parent links that belong to it. `replace_total` and `remove_total` say
when an edit succeeds, `relinked_of_replace` and `relinked_of_remove` which of
these changes it makes.
-/
import ScriptReduce.Proofs.Tree.Place
import ScriptReduce.Tree.Edit

namespace ScriptReduce

/-! ## 1. Answers -/

theorem bind_eq_ok {ε α β : Type} {x : Except ε α} {f : α → Except ε β} {b : β} :
    (x >>= f) = .ok b ↔ ∃ a, x = .ok a ∧ f a = .ok b := by
  cases x with
  | error e => simp [bind, Except.bind]
  | ok a => simp [bind, Except.bind]

theorem map_eq_ok {ε α β : Type} {x : Except ε α} {f : α → β} {b : β} :
    x.map f = .ok b ↔ ∃ a, x = .ok a ∧ f a = b := by
  cases x <;> simp [Except.map]

theorem pure_eq_ok {ε α : Type} {a b : α} : (pure a : Except ε α) = .ok b ↔ a = b := by
  simp [pure, Except.pure]

theorem bind_of_ok {ε α β : Type} {x : Except ε α} {a : α} (f : α → Except ε β) (h : x = .ok a) :
    (x >>= f) = f a := by
  rw [h]
  rfl

theorem foldlM_cons_eq_ok {ε α β : Type} {f : β → α → Except ε β} {x : α} {xs : List α} {b b' : β} :
    (x :: xs).foldlM f b = .ok b' ↔ ∃ b₁, f b x = .ok b₁ ∧ xs.foldlM f b₁ = .ok b' := by
  rw [List.foldlM_cons, bind_eq_ok]

/-- Folding gives the same result with a step that gives the same results. -/
theorem foldlM_eq_ok_mono {ε α β : Type} {f g : β → α → Except ε β}
    (hfg : ∀ {b b' x}, f b x = .ok b' → g b x = .ok b') {xs : List α} {b b' : β}
    (h : xs.foldlM f b = .ok b') : xs.foldlM g b = .ok b' := by
  induction xs generalizing b with
  | nil => exact h
  | cons x xs ih =>
    obtain ⟨b₁, hfirst, hrest⟩ := foldlM_cons_eq_ok.1 h
    exact foldlM_cons_eq_ok.2 ⟨b₁, hfg hfirst, ih hrest⟩

namespace Tree

variable {t t' u : Tree} {id x y : NodeId} {n : Node}

/-! ## 2. Looking up -/

/-- The node stored for an identifier. -/
def get? (t : Tree) (id : NodeId) : Option Node := t.nodes[id.index]?

theorem node_eq_ok : t.node id = .ok n ↔ t.get? id = some n := node_eq_ok_iff

theorem lt_size_of_get? (h : t.get? id = some n) : id.index < t.size :=
  (Array.getElem?_eq_some_iff.1 h).1

theorem exists_get? (h : id.index < t.size) : ∃ n, t.get? id = some n :=
  ⟨_, Array.getElem?_eq_getElem h⟩

theorem shape_eq_ok {s : Shape NodeId} :
    t.shape id = .ok s ↔ ∃ n, t.get? id = some n ∧ n.shape = s := by
  simp only [shape, bind_eq_ok, pure_eq_ok, node_eq_ok]

theorem lt_size_of_shape {s : Shape NodeId} (h : t.shape id = .ok s) : id.index < t.size := by
  obtain ⟨n, hn, -⟩ := shape_eq_ok.1 h
  exact lt_size_of_get? hn

theorem parent_eq_ok {p : Option NodeId} :
    t.parent id = .ok p ↔ ∃ n, t.get? id = some n ∧ n.parent = p := by
  simp only [parent, bind_eq_ok, pure_eq_ok, node_eq_ok]

theorem children_eq_ok {cs : List NodeId} :
    t.children id = .ok cs ↔ ∃ n, t.get? id = some n ∧ n.shape.children = cs := by
  simp only [children, bind_eq_ok, pure_eq_ok, shape_eq_ok]
  constructor
  · rintro ⟨_, ⟨n, hn, rfl⟩, rfl⟩
    exact ⟨n, hn, rfl⟩
  · rintro ⟨n, hn, rfl⟩
    exact ⟨_, ⟨n, hn, rfl⟩, rfl⟩

theorem shape_of_get? (h : t.get? id = some n) : t.shape id = .ok n.shape :=
  shape_eq_ok.2 ⟨n, h, rfl⟩

theorem parent_of_get? (h : t.get? id = some n) : t.parent id = .ok n.parent :=
  parent_eq_ok.2 ⟨n, h, rfl⟩

theorem children_of_get? (h : t.get? id = some n) : t.children id = .ok n.shape.children :=
  children_eq_ok.2 ⟨n, h, rfl⟩

/-- Whether one node holds another in one of its slots. -/
def Holds (t : Tree) (holder child : NodeId) : Prop :=
  ∃ n, t.get? holder = some n ∧ child ∈ n.shape.children

theorem holds_iff {holder child : NodeId} (h : t.get? holder = some n) :
    t.Holds holder child ↔ child ∈ n.shape.children := by
  constructor
  · rintro ⟨k, hk, hc⟩
    rw [h] at hk
    cases hk
    exact hc
  · intro hc
    exact ⟨n, h, hc⟩

theorem holds_of_shape {s : Shape NodeId} {child : NodeId} (h : t.shape id = .ok s)
    (hchild : child ∈ s.children) : t.Holds id child := by
  obtain ⟨n, hn, rfl⟩ := shape_eq_ok.1 h
  exact ⟨n, hn, hchild⟩

theorem holds_of_branch {c a s : NodeId} {b : Option NodeId} (h : t.shape id = .ok (.branch c a b))
    (hs : s = a ∨ b = some s) : t.Holds id s :=
  holds_of_shape h (Shape.mem_children_branch hs)

/-! ## 3. Adding -/

/-- The identifier that the next node gets. -/
def next (t : Tree) : NodeId := ⟨t.size⟩

/-- The tree with one more node. -/
def push (t : Tree) (n : Node) : Tree := { t with nodes := t.nodes.push n }

@[simp] theorem root_push (t : Tree) (n : Node) : (t.push n).root = t.root := rfl

@[simp] theorem size_push (t : Tree) (n : Node) : (t.push n).size = t.size + 1 :=
  Array.size_push n

theorem get?_push (t : Tree) (n : Node) (y : NodeId) :
    (t.push n).get? y = if y = t.next then some n else t.get? y := by
  have h : (y = t.next) ↔ y.index = t.nodes.size :=
    ⟨fun h => congrArg Id.index h, fun h => Id.ext_index h⟩
  simp only [get?, push, Array.getElem?_push, h]

theorem get?_push_next (t : Tree) (n : Node) : (t.push n).get? t.next = some n := by
  rw [get?_push, if_pos rfl]

theorem get?_push_of_ne (h : y ≠ t.next) : (t.push n).get? y = t.get? y := by
  rw [get?_push, if_neg h]

theorem ne_next (h : y.index < t.size) : y ≠ t.next := by
  rintro rfl
  exact absurd h (Nat.lt_irrefl _)

theorem ne_next_of_get? (h : t.get? y = some n) : y ≠ t.next := ne_next (lt_size_of_get? h)

/-- A node without children changes nothing else when it is added. -/
theorem add_leaf {s : Shape NodeId} (h : s.children = []) :
    t.add s = .ok (t.next, t.push ⟨s, none, none⟩) := by
  unfold add
  rw [h]
  rfl

/-- It holds nothing, and everybody else holds what they held. -/
theorem holds_push {g : NodeId} (hn : n.shape.children = []) :
    (t.push n).Holds g x ↔ t.Holds g x := by
  constructor
  · rintro ⟨k, hk, hx⟩
    rw [get?_push] at hk
    split at hk
    · cases hk
      rw [hn] at hx
      cases hx
    · exact ⟨k, hk, hx⟩
  · rintro ⟨k, hk, hx⟩
    exact ⟨k, by rw [get?_push_of_ne (ne_next_of_get? hk), hk], hx⟩

/-! ## 4. Giving a slot away -/

end Tree

/-- The shape with the slot of `old` given to `new`, or emptied. -/
def Shape.exchange (old : NodeId) (new : Option NodeId) (s : Shape NodeId) : Shape NodeId :=
  match new with
  | some new => s.replace old new
  | none => (s.vacate old).getD s

/-- The slot keeps its place, or is gone. -/
theorem Shape.spots_exchange {s : Shape NodeId} (hnodup : s.children.Nodup)
    {A B : List (Place × NodeId)} {q : Place} {old : NodeId} (hs : s.spots = A ++ (q, old) :: B)
    {new : Option NodeId} (hnew : new = none → s.vacate old ≠ none) :
    (s.exchange old new).spots = A ++ new.toList.map (q, ·) ++ B := by
  have hother : ∀ e ∈ A ++ B, e.2 ≠ old := by
    intro e he heq
    rw [← Shape.map_snd_spots, hs, List.map_append, List.map_cons, List.nodup_middle,
      List.nodup_cons, ← List.map_append] at hnodup
    have hmem := List.mem_map_of_mem (f := Prod.snd) he
    rw [heq] at hmem
    exact hnodup.1 hmem
  have hA : ∀ e ∈ A, e.2 ≠ old := fun e he => hother e (List.mem_append_left B he)
  have hB : ∀ e ∈ B, e.2 ≠ old := fun e he => hother e (List.mem_append_right A he)
  cases new with
  | some m =>
    have hkeep : ∀ {C : List (Place × NodeId)}, (∀ e ∈ C, e.2 ≠ old) →
        C.map (Prod.map id (Shape.swap old m)) = C := by
      intro C hC
      refine (List.map_congr_left fun e he => ?_).trans (List.map_id C)
      rw [Prod.map, Shape.swap_of_ne (hC e he)]
      rfl
    rw [Shape.exchange, Shape.spots_replace hnodup, hs, List.map_append, List.map_cons, hkeep hA,
      hkeep hB, Prod.map, Shape.swap_self]
    simp
  | none =>
    obtain ⟨rest, hrest⟩ := Option.ne_none_iff_exists'.1 (hnew rfl)
    have hkeep : ∀ {C : List (Place × NodeId)}, (∀ e ∈ C, e.2 ≠ old) →
        C.filter (fun spot => spot.2 ≠ old) = C := fun hC =>
      List.filter_eq_self.2 fun e he => by simpa using hC e he
    rw [Shape.exchange, hrest, Option.getD_some, Shape.spots_vacate hnodup hrest, hs,
      List.filter_append, List.filter_cons_of_neg (by simp), hkeep hA, hkeep hB]
    simp

theorem Shape.mem_spots_exchange {s : Shape NodeId} (hnodup : s.children.Nodup) {old : NodeId}
    {p q : Place} (hold : (p, old) ∈ s.spots) {new : Option NodeId}
    (hnew : new = none → s.vacate old ≠ none) {x : NodeId}
    (hx : (q, x) ∈ (s.exchange old new).spots) :
    ((q, x) ∈ s.spots ∧ x ≠ old) ∨ new = some x ∧ q = p := by
  obtain ⟨A, B, hs⟩ := List.append_of_mem hold
  rw [Shape.spots_exchange hnodup hs hnew, List.append_assoc, List.mem_append, List.mem_append] at hx
  have hother : ∀ e ∈ A ++ B, e ∈ s.spots ∧ e.2 ≠ old := by
    intro e he
    rw [← Shape.map_snd_spots, hs, List.map_append, List.map_cons, List.nodup_middle,
      List.nodup_cons, ← List.map_append] at hnodup
    refine ⟨?_, fun heq => hnodup.1 ?_⟩
    · rw [hs]
      rcases List.mem_append.1 he with he | he <;> simp [he]
    · have hmem := List.mem_map_of_mem (f := Prod.snd) he
      rwa [heq] at hmem
  rcases hx with hx | hx | hx
  · exact Or.inl (hother _ (List.mem_append_left B hx))
  · obtain ⟨m, hm, heq⟩ := List.mem_map.1 hx
    cases heq
    exact Or.inr ⟨Option.mem_toList.1 hm, rfl⟩
  · exact Or.inl (hother _ (List.mem_append_right A hx))

theorem Shape.nodup_exchange {s : Shape NodeId} (hnodup : s.children.Nodup) {old : NodeId}
    {new : Option NodeId} (hnew : ∀ m, new = some m → m ∉ s.children) :
    (s.exchange old new).children.Nodup := by
  cases new with
  | some m =>
    rw [Shape.exchange, Shape.children_replace, Shape.replace_eq_map hnodup]
    refine hnodup.map_on fun x hx y hy heq => ?_
    have hm := hnew m rfl
    unfold Shape.swap at heq
    split at heq <;> split at heq
    · simp_all
    · exact absurd (heq ▸ hy) hm
    · exact absurd (heq ▸ hx) hm
    · exact heq
  | none =>
    cases hv : s.vacate old with
    | none =>
      rw [Shape.exchange, hv]
      exact hnodup
    | some rest =>
      rw [Shape.exchange, hv, Option.getD_some, Shape.children_vacate hv]
      exact hnodup.erase old

/-- What else stands in a shape stays there when a slot is given away. -/
theorem Shape.mem_exchange_of_ne {s : Shape NodeId} {x old : NodeId} {new : Option NodeId}
    (h : x ∈ s.children) (hne : x ≠ old) : x ∈ (s.exchange old new).children := by
  cases new with
  | some m =>
    rw [Shape.exchange, Shape.children_replace]
    exact Shape.mem_replace_of_ne h hne
  | none =>
    cases hv : s.vacate old with
    | none => rwa [Shape.exchange, hv]
    | some rest =>
      rw [Shape.exchange, hv, Option.getD_some, Shape.children_vacate hv]
      exact (List.mem_erase_of_ne hne).2 h

theorem Shape.bare_exchange (old : NodeId) (new : Option NodeId) (s : Shape NodeId) :
    (s.exchange old new).bare = s.bare := by
  cases new with
  | some m => exact Shape.bare_replace old m s
  | none =>
    cases hv : s.vacate old with
    | none => rw [Shape.exchange, hv]; rfl
    | some rest =>
      rw [Shape.exchange, hv]
      exact Shape.bare_vacate hv

namespace Tree

variable {t t' u : Tree} {id x y : NodeId} {n : Node} {holder old : NodeId} {new : Option NodeId}

/-- What becomes of a node when the slot that `old` has in `holder` is given
to `new`, or emptied. -/
def relink (holder old : NodeId) (new : Option NodeId) (y : NodeId) (n : Node) : Node where
  shape := if y = holder then n.shape.exchange old new else n.shape
  parent := if y = old then none else if some y = new then some holder else n.parent
  span := n.span

/-- The kind of a node stays. -/
theorem bare_relink (holder old : NodeId) (new : Option NodeId) (y : NodeId) (n : Node) :
    (relink holder old new y n).shape.bare = n.shape.bare := by
  simp only [relink]
  split
  · exact Shape.bare_exchange old new n.shape
  · rfl

/-- The slot that `old` has in `holder` was given to `new`, or emptied. -/
structure Relinked (t : Tree) (holder old : NodeId) (new : Option NodeId) (t' : Tree) : Prop where
  root : t'.root = t.root
  size : t'.size = t.size
  get : ∀ y, t'.get? y = (t.get? y).map (relink holder old new y)

namespace Relinked

/-- Nodes that have nothing to do with a slot stay as they are when it is
given away. -/
theorem get?_of_ne (h : t.Relinked holder old new t') (hh : x ≠ holder) (ho : x ≠ old)
    (hn : some x ≠ new) : t'.get? x = t.get? x := by
  rw [h.get]
  cases t.get? x with
  | none => rfl
  | some n => simp [relink, hh, ho, hn]

/-- What a node holds after a slot was given away. -/
theorem holds (h : t.Relinked holder old new t') {g x : NodeId}
    (hx : t'.Holds g x) : t.Holds g x ∨ g = holder ∧ some x = new ∧ t.Holds g old := by
  obtain ⟨k, hk, hx⟩ := hx
  rw [h.get] at hk
  obtain ⟨n, hn, rfl⟩ := Option.map_eq_some_iff.1 hk
  simp only [relink] at hx
  split at hx
  · rename_i hg
    subst hg
    cases new with
    | none =>
      simp only [Shape.exchange] at hx
      cases hv : n.shape.vacate old with
      | none =>
        rw [hv] at hx
        exact Or.inl ⟨n, hn, hx⟩
      | some rest =>
        rw [hv, Option.getD_some, Shape.children_vacate hv] at hx
        exact Or.inl ⟨n, hn, List.mem_of_mem_erase hx⟩
    | some m =>
      simp only [Shape.exchange, Shape.children_replace] at hx
      rcases Shape.mem_replace hx with hx | ⟨rfl, hold⟩
      · exact Or.inl ⟨n, hn, hx⟩
      · exact Or.inr ⟨rfl, rfl, n, hn, hold⟩
  · exact Or.inl ⟨n, hn, hx⟩

/-- After a slot was given away, its holder holds the node it was given to,
and whatever else was held is still held. -/
theorem holds_of (hr : t.Relinked holder old new t') (hl : t.Holds holder old) :
    (∀ g y, t.Holds g y → y ≠ old → t'.Holds g y) ∧ ∀ m, new = some m → t'.Holds holder m := by
  constructor
  · rintro g y ⟨n, hn, hy⟩ hne
    refine ⟨relink holder old new g n, by rw [hr.get, hn]; rfl, ?_⟩
    simp only [relink]
    split
    · exact Shape.mem_exchange_of_ne hy hne
    · exact hy
  · rintro m rfl
    obtain ⟨n, hn, hold⟩ := hl
    refine ⟨relink holder old (some m) holder n, by rw [hr.get, hn]; rfl, ?_⟩
    simp only [relink, if_true, Shape.exchange, Shape.children_replace]
    exact Shape.mem_replace_self hold

/-- The parents after a slot was given away: the node that leaves has none, and the
one that takes its place has the holder. -/
theorem parent_cases (hr : t.Relinked holder old new t') {y p : NodeId} {k : Node}
    (hk : t'.get? y = some k) (hp : k.parent = some p) :
    y ≠ old ∧ ((new = some y ∧ p = holder) ∨ ∃ n, t.get? y = some n ∧ n.parent = some p) := by
  rw [hr.get] at hk
  obtain ⟨n, hn, rfl⟩ := Option.map_eq_some_iff.1 hk
  simp only [relink] at hp
  split at hp
  · cases hp
  · rename_i hy
    split at hp
    · cases hp
      exact ⟨hy, .inl ⟨Eq.symm ‹_›, rfl⟩⟩
    · exact ⟨hy, .inr ⟨n, hn, hp⟩⟩

/-- A node that stood in one slot of its holder is not held there afterwards. -/
theorem not_holds (hr : t.Relinked holder old new t') (hn : t.get? holder = some n)
    (hnodup : n.shape.children.Nodup) (hold : old ∈ n.shape.children)
    (hvacates : new = none → n.shape.vacate old ≠ none) (hnew : new ≠ some old) :
    ¬t'.Holds holder old := by
  rintro ⟨k, hk, hmem⟩
  rw [hr.get, hn] at hk
  cases hk
  simp only [relink, if_true] at hmem
  obtain ⟨q, hq⟩ := Shape.mem_children_iff.1 hmem
  obtain ⟨p, hp⟩ := Shape.mem_children_iff.1 hold
  rcases Shape.mem_spots_exchange hnodup hp hvacates hq with ⟨_, hne⟩ | ⟨heq, _⟩
  · exact hne rfl
  · exact hnew heq

end Relinked

/-- A tree grows out of another: the root is the same, and no node is lost or
becomes another kind of node. Slots and parent links may differ. -/
structure Grows (t t' : Tree) : Prop where
  root : t'.root = t.root
  size : t.size ≤ t'.size
  kept : ∀ y n, t.get? y = some n →
    ∃ n', t'.get? y = some n' ∧ n'.shape.bare = n.shape.bare ∧ n'.span = n.span

namespace Grows

theorem refl (t : Tree) : t.Grows t := ⟨rfl, Nat.le_refl _, fun _ n hn => ⟨n, hn, rfl, rfl⟩⟩

theorem trans (h : t.Grows u) (h' : u.Grows t') : t.Grows t' where
  root := h'.root.trans h.root
  size := Nat.le_trans h.size h'.size
  kept y n hn := by
    obtain ⟨k, hk, hb, hs⟩ := h.kept y n hn
    obtain ⟨n', hn', hb', hs'⟩ := h'.kept y k hk
    exact ⟨n', hn', hb'.trans hb, hs'.trans hs⟩

theorem push (t : Tree) (n : Node) : t.Grows (t.push n) where
  root := rfl
  size := by simp
  kept y k hk := ⟨k, by rw [get?_push_of_ne (ne_next_of_get? hk), hk], rfl, rfl⟩

theorem relinked (h : t.Relinked holder old new t') : t.Grows t' where
  root := h.root
  size := Nat.le_of_eq h.size.symm
  kept y n hn := ⟨relink holder old new y n, by rw [h.get, hn]; rfl, bare_relink _ _ _ _ _, rfl⟩

end Grows

theorem get?_modify {f : Node → Node} (h : t.modify id f = .ok u) (y : NodeId) :
    u.get? y = if y = id then (t.get? y).map f else t.get? y := by
  have hi : (y = id) ↔ id.index = y.index :=
    ⟨fun h => congrArg Id.index h.symm, fun h => Id.ext_index h.symm⟩
  simp only [get?, getElem?_modify h, hi]

theorem get?_setShape {s : Shape NodeId} (h : t.setShape id s = .ok u) (y : NodeId) :
    u.get? y = (t.get? y).map fun n => { n with shape := if y = id then s else n.shape } := by
  rw [get?_modify h]
  by_cases hy : y = id <;> simp [hy]

theorem get?_setParent {p : Option NodeId} (h : t.setParent id p = .ok u) (y : NodeId) :
    u.get? y = (t.get? y).map fun n => { n with parent := if y = id then p else n.parent } := by
  rw [get?_modify h]
  by_cases hy : y = id <;> simp [hy]

theorem exists_modify (h : id.index < t.size) (f : Node → Node) : ∃ u, t.modify id f = .ok u :=
  ⟨_, modify_eq_ok_iff.2 ⟨h, rfl⟩⟩

theorem exists_setShape (h : id.index < t.size) (s : Shape NodeId) :
    ∃ u, t.setShape id s = .ok u ∧ u.size = t.size := by
  obtain ⟨u, hu⟩ := exists_modify h fun node => { node with shape := s }
  exact ⟨u, hu, size_modify hu⟩

theorem exists_setParent (h : id.index < t.size) (p : Option NodeId) :
    ∃ u, t.setParent id p = .ok u ∧ u.size = t.size := by
  obtain ⟨u, hu⟩ := exists_modify h fun node => { node with parent := p }
  exact ⟨u, hu, size_modify hu⟩

theorem lt_size_of_modify {f : Node → Node} (h : t.modify id f = .ok u) : id.index < t.size :=
  (modify_eq_ok_iff.1 h).1

/-- A slot is given away by writing the shape of the holder and then the two
parent links. -/
theorem relinked_of_set {m : NodeId} {v w : Tree} (hn : t.get? holder = some n)
    (h1 : t.setShape holder (n.shape.replace old m) = .ok u)
    (h2 : u.setParent m (some holder) = .ok v) (h3 : v.setParent old none = .ok w) :
    t.Relinked holder old (some m) w where
  root := by rw [root_modify h3, root_modify h2, root_modify h1]
  size := by rw [size_modify h3, size_modify h2, size_modify h1]
  get y := by
    rw [get?_setParent h3, get?_setParent h2, get?_setShape h1]
    cases hy : t.get? y with
    | none => rfl
    | some k =>
      have hshape : (if y = holder then n.shape.replace old m else k.shape)
          = if y = holder then k.shape.replace old m else k.shape := by
        split
        · rename_i h
          rw [h, hn] at hy
          cases hy
          rfl
        · rfl
      simp [relink, Shape.exchange, hshape]

/-- A slot is emptied by writing the shape of the holder and one parent link. -/
theorem relinked_of_vacate {w : Tree} {rest : Shape NodeId} (hn : t.get? holder = some n)
    (hrest : n.shape.vacate old = some rest) (h1 : t.setShape holder rest = .ok u)
    (h2 : u.setParent old none = .ok w) : t.Relinked holder old none w where
  root := by rw [root_modify h2, root_modify h1]
  size := by rw [size_modify h2, size_modify h1]
  get y := by
    rw [get?_setParent h2, get?_setShape h1]
    cases hy : t.get? y with
    | none => rfl
    | some k =>
      have hshape : (if y = holder then rest else k.shape)
          = if y = holder then (k.shape.vacate old).getD k.shape else k.shape := by
        split
        · rename_i h
          rw [h, hn] at hy
          cases hy
          rw [hrest]
          rfl
        · rfl
      simp [relink, Shape.exchange, hshape]

/-! ## 5. Replacing and removing -/

/-- Whether a node stands in a slot of the node that its parent link names. -/
def Linked (t : Tree) (holder child : NodeId) : Prop :=
  t.Holds holder child ∧ ∃ n, t.get? child = some n ∧ n.parent = some holder

theorem linked_iff {child : NodeId} (h : t.get? child = some n) :
    t.Linked holder child ↔ n.parent = some holder ∧ t.Holds holder child := by
  constructor
  · rintro ⟨hholds, k, hk, hp⟩
    rw [h] at hk
    cases hk
    exact ⟨hp, hholds⟩
  · rintro ⟨hp, hholds⟩
    exact ⟨hholds, n, h, hp⟩

/-- A node whose parent does not hold it is not linked. -/
theorem not_linked {child : NodeId} (hn : t.get? child = some n) (hp : n.parent = some holder)
    (hh : ¬t.Holds holder child) (p : NodeId) : ¬t.Linked p child := by
  rw [linked_iff hn, hp, Option.some.injEq]
  rintro ⟨rfl, h⟩
  exact hh h

theorem Linked.push {child : NodeId} (h : t.Linked holder child) (k : Node) :
    (t.push k).Linked holder child := by
  obtain ⟨⟨m, hm, hmem⟩, n, hn, hp⟩ := h
  refine ⟨⟨m, ?_, hmem⟩, n, ?_, hp⟩
  · rw [get?_push_of_ne (ne_next_of_get? hm), hm]
  · rw [get?_push_of_ne (ne_next_of_get? hn), hn]

/-- A new node without children is nobody's holder. -/
theorem linked_of_push {child : NodeId} {k : Node} (h : (t.push k).Linked holder child)
    (hk : k.shape.children = []) (hc : child.index < t.size) : t.Linked holder child := by
  obtain ⟨hholds, n, hn, hp⟩ := h
  rw [get?_push_of_ne (ne_next hc)] at hn
  exact ⟨(holds_push hk).1 hholds, n, hn, hp⟩

/-- A node is replaced if it is linked, and there is an error about it if not. -/
theorem replace_total {m : NodeId} (hn : t.get? old = some n)
    (hp : ∀ p, n.parent = some p → p.index < t.size) (hm : m.index < t.size) :
    (∃ t', t.replace old m = .ok (.ok t')) ∨
      ∃ e, t.replace old m = .ok (.error e) ∧ e.node = old ∧ ∀ holder, ¬t.Linked holder old := by
  unfold replace
  rw [bind_of_ok _ (parent_of_get? hn)]
  cases hparent : n.parent with
  | none => exact Or.inr ⟨.detached old, rfl, rfl, fun p => by simp [linked_iff hn, hparent]⟩
  | some holder =>
    obtain ⟨k, hk⟩ := exists_get? (hp holder hparent)
    simp only
    rw [bind_of_ok _ (shape_of_get? hk)]
    by_cases hc : k.shape.children.contains old
    · rw [if_pos hc]
      obtain ⟨u, hu, hus⟩ := exists_setShape (lt_size_of_get? hk) (k.shape.replace old m)
      obtain ⟨v, hv, hvs⟩ := exists_setParent (hus ▸ hm) (some holder)
      have hold : old.index < v.size := hvs ▸ hus ▸ lt_size_of_get? hn
      obtain ⟨w, hw, _⟩ := exists_setParent hold none
      rw [bind_of_ok _ hu, bind_of_ok _ hv, bind_of_ok _ hw]
      exact Or.inl ⟨w, rfl⟩
    · rw [if_neg hc]
      have hh : ¬t.Holds holder old := by simpa [holds_iff hk] using hc
      exact Or.inr ⟨.notHeld old holder, rfl, rfl, not_linked hn hparent hh⟩

/-- What a successful replacement does. -/
theorem relinked_of_replace {m : NodeId} (h : t.replace old m = .ok (.ok t')) :
    m.index < t.size ∧ ∃ holder, t.Linked holder old ∧ t.Relinked holder old (some m) t' := by
  obtain ⟨p, hp, h⟩ := bind_eq_ok.1 h
  obtain ⟨k, hk, rfl⟩ := parent_eq_ok.1 hp
  cases hparent : k.parent with
  | none =>
    rw [hparent] at h
    cases h
  | some holder =>
    rw [hparent] at h
    obtain ⟨s, hs, h⟩ := bind_eq_ok.1 h
    obtain ⟨n, hn, rfl⟩ := shape_eq_ok.1 hs
    split at h
    · rename_i hold
      obtain ⟨u, hu, h⟩ := bind_eq_ok.1 h
      obtain ⟨v, hv, h⟩ := bind_eq_ok.1 h
      obtain ⟨w, hw, h⟩ := bind_eq_ok.1 h
      cases h
      refine ⟨by rw [← size_modify hu]; exact lt_size_of_modify hv, holder, ?_,
        relinked_of_set hn hu hv hw⟩
      exact ⟨⟨n, hn, by simpa using hold⟩, k, hk, hparent⟩
    · cases h

/-- A replacement only fails for want of a link, and the error is about the
node that was to be replaced. -/
theorem refused_of_replace {m : NodeId} {e : EditError} (h : t.replace old m = .ok (.error e)) :
    e.node = old ∧ ∀ p, ¬t.Linked p old := by
  obtain ⟨q, hq, h⟩ := bind_eq_ok.1 h
  obtain ⟨n, hn, rfl⟩ := parent_eq_ok.1 hq
  cases hparent : n.parent with
  | none =>
    rw [hparent] at h
    cases h
    exact ⟨rfl, fun p => by simp [linked_iff hn, hparent]⟩
  | some holder =>
    rw [hparent] at h
    obtain ⟨s, hs, h⟩ := bind_eq_ok.1 h
    obtain ⟨k, hk, rfl⟩ := shape_eq_ok.1 hs
    split at h
    · obtain ⟨u, _, h⟩ := bind_eq_ok.1 h
      obtain ⟨v, _, h⟩ := bind_eq_ok.1 h
      obtain ⟨w, _, h⟩ := bind_eq_ok.1 h
      cases h
    · rename_i hc
      cases h
      exact ⟨rfl, not_linked hn hparent (by simpa [holds_iff hk] using hc)⟩

/-- What a successful removal does: the slot is emptied, or given to a new
empty statement if it has to be filled. -/
theorem relinked_of_remove {placeholder : Option NodeId}
    (h : t.remove old = .ok (.ok (placeholder, t'))) :
    ∃ holder n, t.Linked holder old ∧ t.get? holder = some n ∧
      ((placeholder = none ∧ n.shape.vacate old ≠ none ∧ t.Relinked holder old none t') ∨
        (placeholder = some t.next ∧ n.shape.vacate old = none ∧
          (t.push ⟨.emptyStatement, none, none⟩).Relinked holder old (some t.next) t')) := by
  obtain ⟨p, hp, h⟩ := bind_eq_ok.1 h
  obtain ⟨k, hk, rfl⟩ := parent_eq_ok.1 hp
  cases hparent : k.parent with
  | none =>
    rw [hparent] at h
    cases h
  | some holder =>
    rw [hparent] at h
    obtain ⟨s, hs, h⟩ := bind_eq_ok.1 h
    obtain ⟨n, hn, rfl⟩ := shape_eq_ok.1 hs
    split at h
    · rename_i hold
      have hlinked : t.Linked holder old := ⟨⟨n, hn, by simpa using hold⟩, k, hk, hparent⟩
      refine ⟨holder, n, hlinked, hn, ?_⟩
      cases hv : n.shape.vacate old with
      | some rest =>
        rw [hv] at h
        obtain ⟨u, hu, h⟩ := bind_eq_ok.1 h
        obtain ⟨v, hv', h⟩ := bind_eq_ok.1 h
        cases h
        exact Or.inl ⟨rfl, by simp, relinked_of_vacate hn hv hu hv'⟩
      | none =>
        rw [hv] at h
        simp only at h
        rw [bind_of_ok _ (add_leaf rfl)] at h
        obtain ⟨r, hr, h⟩ := bind_eq_ok.1 h
        cases r with
        | error e => cases h
        | ok u =>
          cases h
          obtain ⟨_, holder', ⟨_, k', hk', hparent'⟩, hrel⟩ := relinked_of_replace hr
          rw [get?_push_of_ne (ne_next_of_get? hk), hk] at hk'
          cases hk'
          rw [hparent] at hparent'
          cases hparent'
          exact Or.inr ⟨rfl, rfl, hrel⟩
    · cases h

/-- A removal only fails for want of a link, and the error is about the node
that was to be removed. -/
theorem refused_of_remove {e : EditError} (h : t.remove old = .ok (.error e)) :
    e.node = old ∧ ∀ p, ¬t.Linked p old := by
  obtain ⟨q, hq, h⟩ := bind_eq_ok.1 h
  obtain ⟨n, hn, rfl⟩ := parent_eq_ok.1 hq
  cases hparent : n.parent with
  | none =>
    rw [hparent] at h
    cases h
    exact ⟨rfl, fun p => by simp [linked_iff hn, hparent]⟩
  | some holder =>
    rw [hparent] at h
    obtain ⟨s, hs, h⟩ := bind_eq_ok.1 h
    obtain ⟨k, hk, rfl⟩ := shape_eq_ok.1 hs
    split at h
    · cases hv : k.shape.vacate old with
      | some rest =>
        rw [hv] at h
        obtain ⟨u, _, h⟩ := bind_eq_ok.1 h
        obtain ⟨v, _, h⟩ := bind_eq_ok.1 h
        cases h
      | none =>
        rw [hv] at h
        simp only at h
        rw [bind_of_ok _ (add_leaf rfl)] at h
        obtain ⟨r, hr, h⟩ := bind_eq_ok.1 h
        cases r with
        | ok u => cases h
        | error e' =>
          cases h
          obtain ⟨hnode, hnot⟩ := refused_of_replace hr
          exact ⟨hnode, fun p hl => hnot p (hl.push _)⟩
    · rename_i hc
      cases h
      exact ⟨rfl, not_linked hn hparent (by simpa [holds_iff hk] using hc)⟩

/-- A node is removed if it is linked, and there is an error about it if not. -/
theorem remove_total (hn : t.get? old = some n) (hp : ∀ p, n.parent = some p → p.index < t.size) :
    (∃ r, t.remove old = .ok (.ok r)) ∨
      ∃ e, t.remove old = .ok (.error e) ∧ e.node = old ∧ ∀ holder, ¬t.Linked holder old := by
  unfold remove
  rw [bind_of_ok _ (parent_of_get? hn)]
  cases hparent : n.parent with
  | none => exact Or.inr ⟨.detached old, rfl, rfl, fun p => by simp [linked_iff hn, hparent]⟩
  | some holder =>
    obtain ⟨k, hk⟩ := exists_get? (hp holder hparent)
    simp only
    rw [bind_of_ok _ (shape_of_get? hk)]
    by_cases hc : k.shape.children.contains old
    · rw [if_pos hc]
      cases hv : k.shape.vacate old with
      | some rest =>
        obtain ⟨u, hu, hus⟩ := exists_setShape (lt_size_of_get? hk) rest
        have hold : old.index < u.size := hus ▸ lt_size_of_get? hn
        obtain ⟨v, hv, _⟩ := exists_setParent hold none
        simp only
        rw [bind_of_ok _ hu, bind_of_ok _ hv]
        exact Or.inl ⟨_, rfl⟩
      | none =>
        -- the empty statement is added first, and that leaves the link as it was
        simp only
        rw [bind_of_ok _ (add_leaf rfl)]
        have hn' : (t.push ⟨.emptyStatement, none, none⟩).get? old = some n := by
          rw [get?_push_of_ne (ne_next_of_get? hn), hn]
        have hk' : (t.push ⟨.emptyStatement, none, none⟩).get? holder = some k := by
          rw [get?_push_of_ne (ne_next_of_get? hk), hk]
        have hp' : ∀ p, n.parent = some p →
            p.index < (t.push ⟨.emptyStatement, none, none⟩).size := fun p h => by
          rw [size_push]
          exact Nat.lt_succ_of_lt (hp p h)
        have hnext : t.next.index < (t.push ⟨.emptyStatement, none, none⟩).size := by
          rw [size_push]
          exact Nat.lt_succ_self _
        rcases replace_total hn' hp' hnext with ⟨t', ht'⟩ | ⟨_, _, _, hnot⟩
        · simp only
          rw [bind_of_ok _ ht']
          exact Or.inl ⟨_, rfl⟩
        · exact absurd ⟨⟨k, hk', by simpa using hc⟩, n, hn', hparent⟩ (hnot holder)
    · rw [if_neg hc]
      have hh : ¬t.Holds holder old := by simpa [holds_iff hk] using hc
      exact Or.inr ⟨.notHeld old holder, rfl, rfl, not_linked hn hparent hh⟩

end Tree

end ScriptReduce
