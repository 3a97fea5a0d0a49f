/-
ScriptReduce.Proofs.Reduce.Contained: wrong parent links do no harm beyond
their nodes.

Somebody may have set parent links by hand. A node whose link does not lead to
its holder cannot give its slot away: the attempt is reported, and nothing
else happens. The rest of the tree is reduced around it, and a branch with a
wrong link gets a right one when it takes the place of its `if` statement.

What is asked of a tree is that no node is below itself and that none but the
root stands in two slots (`Tree.Unshared`). The nodes that have not given way
are standing. `Contained` is the invariant of a run: each slot of a standing
node holds a standing node that no other standing node holds, and it is linked,
or its link was wrong at the start and neither link nor holder has changed
since. The last makes every report right. A walk below one node leaves the slots
alone that hold nodes of another part (`Spares`), so what is still to be
visited is still in its place when the walk gets there.
-/
import ScriptReduce.Proofs.Reduce.Moments

namespace ScriptReduce

open ScriptReduce.Tree Relation

variable {r : NodeId} {t₀ t t' : Tree} {changes : List Change} {holder old : NodeId}
  {new : Option NodeId}

/-! ## 1. Wrong links -/

/-- A node is held by another, but its parent link does not lead there. -/
def Tree.Mislinked (t : Tree) (holder child : NodeId) : Prop :=
  t.Holds holder child ∧ ¬t.Up child holder

/-- A tree in which no node is below itself, and none but the root, a source
file, stands in more than one slot. Parent links may be wrong or missing. -/
structure Tree.Unshared (t : Tree) : Prop where
  acyclic : t.Acyclic
  closed : t.Closed Everywhere
  root : ∃ r n statements, t.root = some r ∧ t.get? r = some n ∧ n.shape = .sourceFile statements
  once : ∀ h n x, t.get? h = some n → x ∈ n.shape.children → t.root ≠ some x →
    n.shape.children.count x = 1
  holder : ∀ g h x, t.Holds g x → t.Holds h x → t.root ≠ some x → g = h

/-- Nobody holds a node who did not at the start, and its link is what it
was. -/
structure Tree.Unmoved (t₀ t : Tree) (x : NodeId) : Prop where
  link : ∀ p, t.Up x p ↔ t₀.Up x p
  held : ∀ g, t.Holds g x → t₀.Holds g x

theorem Tree.Unmoved.refl (t : Tree) (x : NodeId) : t.Unmoved t x :=
  ⟨fun _ => Iff.rfl, fun _ h => h⟩

/-! ## 2. What is left standing -/

/-- A node that is no higher than the root, and that has not given way. -/
def Standing (t₀ : Tree) (r : NodeId) (changes : List Change) (x : NodeId) : Prop :=
  t₀.rank x ≤ t₀.rank r ∧ ∀ change ∈ changes, change.node ≠ x

theorem standing_cons {change : Change} {x : NodeId} :
    Standing t₀ r (change :: changes) x ↔ Standing t₀ r changes x ∧ x ≠ change.node := by
  simp only [Standing, List.forall_mem_cons, ne_comm (b := x)]
  tauto

/-- What holds throughout a run that starts with the tree `t₀` and its root
`r`, after some changes. -/
structure Contained (r : NodeId) (t₀ t : Tree) (changes : List Change) : Prop where
  graded : t.Graded Everywhere t₀.rank t₀.size
  grows : t₀.Grows t
  top : Standing t₀ r changes r
  noted : ∀ change ∈ changes, change.node.index < t.size
  once : ∀ g n, Standing t₀ r changes g → t.get? g = some n → n.shape.children.Nodup
  sole : ∀ g h x, Standing t₀ r changes g → Standing t₀ r changes h → t.Holds g x →
    t.Holds h x → g = h
  standing : ∀ g x, Standing t₀ r changes g → t.Holds g x → Standing t₀ r changes x
  linked : ∀ g x, Standing t₀ r changes g → t.Holds g x →
    t.Linked g x ∨ (∃ h, t₀.Mislinked h x) ∧ t₀.Unmoved t x
  /-- Wrong links stay wrong, but for branches of `if` statements. -/
  stuck : ∀ g x, t₀.Mislinked g x → (∀ c a b, t₀.shape g ≠ .ok (.branch c a b)) →
    t.Holds g x ∧ t₀.Unmoved t x

/-- At the start all is as it should be. -/
theorem Tree.Unshared.contained (h : t.Unshared) (hr : t.root = some r) : Contained r t t [] := by
  have hg : t.Graded Everywhere t.rank t.size := h.acyclic.graded h.closed
  -- what a standing node holds is below the root
  have hlow : ∀ {g x}, Standing t r [] g → t.Holds g x → t.rank x < t.rank r := fun hs hx =>
    Nat.lt_of_lt_of_le (hg.descends _ _ trivial hx) hs.1
  have hroot : ∀ {g x}, Standing t r [] g → t.Holds g x → t.root ≠ some x := by
    intro g x hs hx hrx
    obtain rfl := Option.some.inj (hr.symm.trans hrx)
    exact Nat.lt_irrefl _ (hlow hs hx)
  exact {
    graded := hg
    grows := .refl t
    top := ⟨Nat.le_refl _, by simp⟩
    noted := by simp
    once := fun g n hs hn => List.nodup_iff_count_eq_one.2 fun x hx =>
      h.once g n x hn hx (hroot hs ⟨n, hn, hx⟩)
    sole := fun g k x hs _ hx hx' => h.holder g k x hx hx' (hroot hs hx)
    standing := fun g x hs hx => ⟨Nat.le_of_lt (hlow hs hx), by simp⟩
    linked := fun g x _ hx => by
      by_cases hup : t.Up x g
      · exact Or.inl ⟨hx, hup⟩
      · exact Or.inr ⟨⟨g, hx, hup⟩, .refl t x⟩
    stuck := fun g x hx _ => ⟨hx.1, .refl t x⟩ }

/-- A standing node does not hold the root. -/
theorem Contained.ne_root (h : Contained r t₀ t changes) {g x : NodeId}
    (hg : Standing t₀ r changes g) (hx : t.Holds g x) : x ≠ r := by
  rintro rfl
  have := h.graded.descends g x trivial hx
  have := hg.1
  omega

/-- What a standing node holds had one holder at the start. -/
theorem Contained.start_eq (h : Contained r t₀ t changes) (hu : t₀.Unshared)
    (hr : t₀.root = some r) {g x p q : NodeId} (hg : Standing t₀ r changes g) (hx : t.Holds g x)
    (hp : t₀.Holds p x) (hq : t₀.Holds q x) : p = q := by
  refine hu.holder p q x hp hq ?_
  rw [hr]
  rintro ⟨⟩
  exact h.ne_root hg hx rfl

/-- What a standing node holds is linked to no other. -/
theorem Contained.holder_eq_of_linked (h : Contained r t₀ t changes) (hu : t₀.Unshared)
    (hr : t₀.root = some r) {g x p : NodeId} (hg : Standing t₀ r changes g) (hx : t.Holds g x)
    (hl : t.Linked p x) : p = g := by
  rcases h.linked g x hg hx with ⟨_, hup⟩ | ⟨⟨k, hk, hup⟩, hun⟩
  · exact up_unique hl.2 hup
  · -- the link leads where it led at the start, and so does the holder
    obtain rfl := h.start_eq hu hr hg hx (hun.held p hl.1) hk
    exact absurd ((hun.link p).1 hl.2) hup

/-! ## 3. Giving a slot away -/

namespace Tree.Relinked

variable {x p : NodeId} {n : Node}

/-- The link of a node that has nothing to do with a slot stays. -/
theorem up_iff (hr : t.Relinked holder old new t') (ho : x ≠ old) (hn : new ≠ some x) :
    t'.Up x p ↔ t.Up x p := by
  unfold Up
  rw [hr.get]
  cases t.get? x <;> simp [relink, ho, hn.symm]

/-- What takes the slot is led to the holder. -/
theorem up_new (hr : t.Relinked holder old new t') (hx : x.index < t.size) (ho : x ≠ old)
    (hn : new = some x) : t'.Up x holder := by
  obtain ⟨n, hget⟩ := exists_get? hx
  exact ⟨_, by rw [hr.get, hget]; rfl, by simp [relink, ho, hn]⟩

end Tree.Relinked

/-- A node gives its slot to a node that nobody holds, to one of its branches,
or to nothing. -/
structure Passes (r : NodeId) (t₀ t : Tree) (changes : List Change) (holder old : NodeId)
    (new : Option NodeId) (t' : Tree) : Prop where
  linked : t.Linked holder old
  standing : Standing t₀ r changes holder
  relinked : t.Relinked holder old new t'
  vacates : ∀ n, t.get? holder = some n → new = none → n.shape.vacate old ≠ none
  taken : ∀ m, new = some m → m.index < t.size ∧ Standing t₀ r changes m ∧
    ((∀ g, ¬t.Holds g m) ∨ t.Holds old m ∧ ∃ c a b, t.shape old = .ok (.branch c a b))

namespace Passes

variable {a b x : NodeId} {change : Change}

theorem new_ne (hp : Passes r t₀ t changes holder old new t') (h : Contained r t₀ t changes) :
    new ≠ some old := by
  intro hnew
  rcases (hp.taken old hnew).2.2 with hfree | ⟨hold, _⟩
  · exact hfree holder hp.linked.1
  · exact Nat.lt_irrefl _ (h.graded.descends old old trivial hold)

theorem old_standing (hp : Passes r t₀ t changes holder old new t')
    (h : Contained r t₀ t changes) : Standing t₀ r changes old :=
  h.standing holder old hp.standing hp.linked.1

/-- What a standing node holds afterwards is what it held before, or what has
taken the slot. -/
theorem holds_cases (hp : Passes r t₀ t changes holder old new t') (h : Contained r t₀ t changes)
    (ha : Standing t₀ r changes a) (hne : a ≠ old) (hx : t'.Holds a x) :
    (t.Holds a x ∧ x ≠ old ∧ new ≠ some x) ∨ a = holder ∧ new = some x := by
  rcases hp.relinked.holds hx with hx' | ⟨rfl, hnew, _⟩
  · refine Or.inl ⟨hx', ?_, fun hnew => ?_⟩
    · rintro rfl
      obtain rfl := h.sole a holder x ha hp.standing hx' hp.linked.1
      obtain ⟨n, hn, hmem⟩ := hp.linked.1
      exact hp.relinked.not_holds hn (h.once a n ha hn) hmem (hp.vacates n hn) (hp.new_ne h) hx
    · rcases (hp.taken x hnew).2.2 with hfree | ⟨hold, _⟩
      · exact hfree a hx'
      · exact hne (h.sole a old x ha (hp.old_standing h) hx' hold)
  · exact Or.inr ⟨rfl, hnew.symm⟩

/-- A node that has nothing to do with the slot is not moved. -/
theorem unmoved (hp : Passes r t₀ t changes holder old new t') (hold : x ≠ old)
    (hnew : new ≠ some x) (h : t₀.Unmoved t x) : t₀.Unmoved t' x where
  link p := (hp.relinked.up_iff hold hnew).trans (h.link p)
  held g hg := by
    rcases hp.relinked.holds hg with hg | ⟨_, heq, _⟩
    · exact h.held g hg
    · exact absurd heq.symm hnew

/-- A node with a wrong link has nothing to do with the slot, unless it is a
branch. -/
theorem ne_of_stuck (hp : Passes r t₀ t changes holder old new t') (h : Contained r t₀ t changes)
    (hu : t₀.Unshared) (hr : t₀.root = some r) {g : NodeId} (hx : t₀.Mislinked g x)
    (hg : ∀ c a b, t₀.shape g ≠ .ok (.branch c a b)) : x ≠ old ∧ new ≠ some x := by
  obtain ⟨hholds, hun⟩ := h.stuck g x hx hg
  constructor
  · rintro rfl
    obtain rfl := h.start_eq hu hr hp.standing hp.linked.1 (hun.held holder hp.linked.1) hx.1
    exact hx.2 ((hun.link holder).1 hp.linked.2)
  · intro hnew
    rcases (hp.taken x hnew).2.2 with hfree | ⟨hold, c, a, b, hs⟩
    · exact hfree g hholds
    · obtain rfl := h.start_eq hu hr (hp.old_standing h) hold (hun.held old hold) hx.1
      -- an `if` statement was one at the start
      obtain ⟨n₀, hn₀⟩ := exists_get? (lt_size_of_holds hx.1)
      obtain ⟨n, hn, hb, _⟩ := h.grows.kept old n₀ hn₀
      rw [shape_of_get? hn] at hs
      rw [Except.ok.inj hs] at hb
      obtain ⟨c', a', b', hs₀⟩ := Shape.bare_eq_branch.1 hb.symm
      exact hg c' a' b' (by rw [shape_of_get? hn₀, hs₀])

end Passes

/-- Giving a slot away keeps wrong links contained. -/
theorem Contained.passes {change : Change} (h : Contained r t₀ t changes) (hu : t₀.Unshared)
    (hr : t₀.root = some r) (hp : Passes r t₀ t changes holder change.node new t')
    (hgraded : t'.Graded Everywhere t₀.rank t₀.size) :
    Contained r t₀ t' (change :: changes) where
  graded := hgraded
  grows := h.grows.trans (.relinked hp.relinked)
  top := standing_cons.2 ⟨h.top, (h.ne_root hp.standing hp.linked.1).symm⟩
  noted := by
    obtain ⟨_, n, hn, _⟩ := hp.linked
    rw [hp.relinked.size]
    exact List.forall_mem_cons.2 ⟨lt_size_of_get? hn, h.noted⟩
  once g k hg hk := by
    obtain ⟨hg, hne⟩ := standing_cons.1 hg
    rw [hp.relinked.get] at hk
    obtain ⟨n, hn, rfl⟩ := Option.map_eq_some_iff.1 hk
    simp only [relink]
    split
    · refine Shape.nodup_exchange (h.once g n hg hn) fun m hnew hmem => ?_
      rcases (hp.taken m hnew).2.2 with hfree | ⟨hold, _⟩
      · exact hfree g ⟨n, hn, hmem⟩
      · exact hne (h.sole g _ m hg (hp.old_standing h) ⟨n, hn, hmem⟩ hold)
    · exact h.once g n hg hn
  sole g k x hg hk hx hx' := by
    obtain ⟨hg, hgne⟩ := standing_cons.1 hg
    obtain ⟨hk, hkne⟩ := standing_cons.1 hk
    rcases hp.holds_cases h hg hgne hx with ⟨hx, _, hn⟩ | ⟨rfl, hn⟩
    · rcases hp.holds_cases h hk hkne hx' with ⟨hx', _, _⟩ | ⟨_, hn'⟩
      · exact h.sole g k x hg hk hx hx'
      · exact absurd hn' hn
    · rcases hp.holds_cases h hk hkne hx' with ⟨_, _, hn'⟩ | ⟨rfl, _⟩
      · exact absurd hn hn'
      · rfl
  standing g x hg hx := by
    obtain ⟨hg, hne⟩ := standing_cons.1 hg
    rcases hp.holds_cases h hg hne hx with ⟨hx, hold, _⟩ | ⟨_, hnew⟩
    · exact standing_cons.2 ⟨h.standing g x hg hx, hold⟩
    · refine standing_cons.2 ⟨(hp.taken x hnew).2.1, ?_⟩
      rintro rfl
      exact hp.new_ne h hnew
  linked g x hg hx := by
    obtain ⟨hg, hne⟩ := standing_cons.1 hg
    rcases hp.holds_cases h hg hne hx with ⟨hx₀, hold, hnew⟩ | ⟨rfl, hnew⟩
    · rcases h.linked g x hg hx₀ with ⟨_, hup⟩ | ⟨hmis, hun⟩
      · exact Or.inl ⟨hx, (hp.relinked.up_iff hold hnew).2 hup⟩
      · exact Or.inr ⟨hmis, hp.unmoved hold hnew hun⟩
    · refine Or.inl ⟨hx, hp.relinked.up_new (hp.taken x hnew).1 ?_ hnew⟩
      rintro rfl
      exact hp.new_ne h hnew
  stuck g x hx hg := by
    obtain ⟨hholds, hun⟩ := h.stuck g x hx hg
    obtain ⟨hold, hnew⟩ := hp.ne_of_stuck h hu hr hx hg
    exact ⟨(hp.relinked.holds_of hp.linked.1).1 g x hholds hold, hp.unmoved hold hnew hun⟩

/-! ## 4. Steps -/

theorem Tree.Unmoved.push {n : Node} {x : NodeId} (h : t₀.Unmoved t x) (hx : x.index < t.size)
    (hn : n.shape.children = []) : t₀.Unmoved (t.push n) x where
  link p := by
    rw [← h.link p, Up, get?_push_of_ne (ne_next hx), Up]
  held g hg := h.held g ((holds_push hn).1 hg)

/-- A new leaf disturbs nothing. -/
theorem Contained.push (h : Contained r t₀ t changes) {s : Shape NodeId} (hs : s.IsLeaf) :
    Contained r t₀ (t.push ⟨s, none, none⟩) changes where
  graded := h.graded.push hs
  grows := h.grows.trans (.push t _)
  top := h.top
  noted change hchange := by
    rw [size_push]
    exact Nat.lt_succ_of_lt (h.noted change hchange)
  once g n hg hn := by
    rw [get?_push] at hn
    split at hn
    · cases hn
      rw [hs.children]
      exact List.nodup_nil
    · exact h.once g n hg hn
  sole g k x hg hk hx hx' :=
    h.sole g k x hg hk ((holds_push hs.children).1 hx) ((holds_push hs.children).1 hx')
  standing g x hg hx := h.standing g x hg ((holds_push hs.children).1 hx)
  linked g x hg hx := by
    have hx := (holds_push hs.children).1 hx
    rcases h.linked g x hg hx with hl | ⟨hmis, hun⟩
    · exact Or.inl (hl.push _)
    · exact Or.inr ⟨hmis, hun.push (h.graded.children g x trivial hx).2 hs.children⟩
  stuck g x hx hg := by
    obtain ⟨hholds, hun⟩ := h.stuck g x hx hg
    exact ⟨(holds_push hs.children).2 hholds,
      hun.push (h.graded.children g x trivial hholds).2 hs.children⟩

/-- A step at a node that a standing node holds keeps wrong links contained, and
what takes the place is held there. -/
theorem Contained.step {st : Setting} {change : Change} {g : NodeId}
    (h : Contained r t₀ t changes) (hu : t₀.Unshared) (hr : t₀.root = some r)
    (hg : Standing t₀ r changes g) (hx : t.Holds g change.node) (hs : Step st t change t') :
    Contained r t₀ t' (change :: changes) ∧
      ∀ m, change.replacement = some m → t'.Holds g m := by
  obtain ⟨p, hl, hm⟩ := hs.moves
  obtain rfl := h.holder_eq_of_linked hu hr hg hx hl
  have hgraded := (hs.graded h.graded trivial).1
  have hpasses : ∃ u, Contained r t₀ u changes ∧
      Passes r t₀ u changes p change.node change.replacement t' := by
    generalize change.replacement = new at hm
    cases hm with
    | @leaf s _ leaf relinked =>
      refine ⟨_, h.push leaf, hl.push _, hg, relinked, by simp, ?_⟩
      rintro m ⟨⟩
      refine ⟨by rw [size_push]; exact Nat.lt_succ_self _, ⟨?_, fun change hchange heq => ?_⟩,
        Or.inl fun k hk => ?_⟩
      · rw [h.graded.rank_later t.next h.graded.limit_le]
        exact Nat.zero_le _
      · exact ne_next (h.noted change hchange) heq
      · have := (h.graded.children k _ trivial ((holds_push leaf.children).1 hk)).2
        exact Nat.lt_irrefl _ this
    | @branch c a s b _ shape chosen relinked =>
      refine ⟨t, h, hl, hg, relinked, by simp, ?_⟩
      rintro m ⟨⟩
      have hholds : t.Holds change.node s := holds_of_branch shape chosen
      exact ⟨(h.graded.children _ s trivial hholds).2,
        h.standing _ s (h.standing p _ hg hx) hholds, Or.inr ⟨hholds, c, a, b, shape⟩⟩
    | vacated node vacates relinked =>
      refine ⟨t, h, hl, hg, relinked, fun n hn _ => ?_, by simp⟩
      rw [node] at hn
      cases hn
      exact vacates
  obtain ⟨u, hu', hp⟩ := hpasses
  exact ⟨hu'.passes hu hr hp hgraded, (hp.relinked.holds_of hp.linked.1).2⟩

/-- Every failed edit that was reported is of a node whose link was wrong at
the start, and none is reported twice. -/
structure Blames (t₀ : Tree) (c : Context) : Prop where
  wrong : ∀ d ∈ c.diagnostics, d.kind = .slotNotFound → ∃ g, t₀.Mislinked g d.node
  distinct : c.Distinct

namespace Blames

variable {c c' : Context} {id : NodeId}

theorem follows {news : List Change} (h : Blames t₀ c) (hc : c.Follows news c') :
    Blames t₀ c' where
  wrong d hd hkind := by
    rcases hc.diagnostics d hd with hd | hother
    · exact h.wrong d hd hkind
    · rw [hkind] at hother
      cases hother
  distinct := hc.distinct h.distinct

theorem misses (h : Blames t₀ c) (hc : c.Misses id c') (hid : ∃ g, t₀.Mislinked g id) :
    Blames t₀ c' where
  wrong d hd hkind := by
    rcases hc.diagnostics d hd with hd | ⟨_, rfl⟩
    · exact h.wrong d hd hkind
    · exact hid
  distinct := hc.distinct h.distinct

end Blames

/-! ## 5. Parts of a tree -/

/-- Slots do not lead out of a part, and what is added later belongs to it. -/
structure Tree.Encloses (t : Tree) (D : NodeId → Prop) : Prop where
  down : ∀ a b, D a → t.Holds a b → D b
  later : ∀ x, t.size ≤ x.index → D x

theorem Tree.encloses_below (t : Tree) (x : NodeId) : t.Encloses (t.Below x) where
  down a b ha hb := by
    rcases ha with ha | ha
    · exact Or.inl (ha.trans_holds hb)
    · exact absurd (lt_size_of_holds hb) (by omega)
  later _ := Or.inr

/-- A walk leaves the slots alone that hold nodes outside of a part, and all
nodes that give way belong to the part. -/
structure Spares (D : NodeId → Prop) (w w' : Walk) : Prop where
  size : w.tree.size ≤ w'.tree.size
  holds : ∀ a b, ¬D b → (w'.tree.Holds a b ↔ w.tree.Holds a b)
  changes : ∀ change ∈ w'.context.changes, change ∈ w.context.changes ∨ D change.node

namespace Spares

variable {D : NodeId → Prop} {w w₁ w' : Walk}

theorem of_holds (hsize : w.tree.size ≤ w'.tree.size)
    (hholds : ∀ a b, w'.tree.Holds a b ↔ w.tree.Holds a b)
    (hc : w'.context.changes = w.context.changes) : Spares D w w' where
  size := hsize
  holds a b _ := hholds a b
  changes _ hchange := Or.inl (hc ▸ hchange)

theorem refl (D : NodeId → Prop) (w : Walk) : Spares D w w :=
  .of_holds (Nat.le_refl _) (fun _ _ => Iff.rfl) rfl

theorem trans (h : Spares D w w₁) (h' : Spares D w₁ w') : Spares D w w' where
  size := Nat.le_trans h.size h'.size
  holds a b hb := (h'.holds a b hb).trans (h.holds a b hb)
  changes _ hchange := (h'.changes _ hchange).elim (h.changes _) Or.inr

/-- The flag has nothing to do with it. -/
theorem changed (h : Spares D w w₁) : Spares D w { w₁ with changed := true } :=
  ⟨h.size, h.holds, h.changes⟩

theorem encloses (h : Spares D w w₁) (hD : w.tree.Encloses D) : w₁.tree.Encloses D where
  down a b ha hb := by
    by_contra hnot
    exact hnot (hD.down a b ha ((h.holds a b hnot).1 hb))
  later x hx := hD.later x (Nat.le_trans h.size hx)

/-- Whoever stands outside of the part is still standing. -/
theorem standing (h : Spares D w w') {x : NodeId} (hx : Standing t₀ r w.context.changes x)
    (hD : ¬D x) : Standing t₀ r w'.context.changes x := by
  refine ⟨hx.1, fun change hchange => ?_⟩
  rcases h.changes change hchange with hchange | hin
  · exact hx.2 change hchange
  · rintro rfl
    exact hD hin

end Spares

/-- What takes the slot belongs to the part of the node that gives it away. -/
theorem Tree.Moves.new_mem {D : NodeId → Prop} (hm : t.Moves holder old new t')
    (hD : t.Encloses D) (hold : D old) : ∀ m, new = some m → D m := by
  cases hm with
  | leaf =>
    rintro m ⟨⟩
    exact hD.later _ (Nat.le_refl _)
  | branch shape chosen =>
    rintro m ⟨⟩
    exact hD.down old _ hold (holds_of_branch shape chosen)
  | vacated => simp

/-- A step within a part leaves the slots alone that hold nodes outside of it. -/
theorem Tree.Moves.holds_iff {D : NodeId → Prop} {a b : NodeId} (hm : t.Moves holder old new t')
    (hl : t.Linked holder old) (hD : t.Encloses D) (hold : D old) (hb : ¬D b) :
    t'.Holds a b ↔ t.Holds a b := by
  have hne : b ≠ old := by
    rintro rfl
    exact hb hold
  have hnew : new ≠ some b := fun hnew => hb (hm.new_mem hD hold b hnew)
  constructor
  · intro hab
    exact (hm.holds_cases hab).resolve_right fun htaken => hnew htaken.2
  · exact fun hab => (hm.holds_of hl).1 a b hab hne

/-! ## 6. Walks -/

/-- What holds throughout a run that starts with the tree `t₀` and its root
`r`. -/
structure Containing (r : NodeId) (t₀ t : Tree) (c : Context) : Prop
    extends Contained r t₀ t c.changes, Blames t₀ c

/-- What else a standing node holds is not below one of its children. -/
theorem Contained.not_below (h : Contained r t₀ t changes) {g x : NodeId}
    (hg : Standing t₀ r changes g) (hx : t.Holds g x) :
    ¬t.Below x g ∧ ∀ y, t.Holds g y → y ≠ x → ¬t.Below x y := by
  have hstanding : ∀ {z}, t.Reaches x z → Standing t₀ r changes z := by
    intro z hz
    induction hz with
    | refl => exact h.standing g x hg hx
    | tail _ hb ih => exact h.standing _ _ ih hb
  have hup : ¬t.Reaches x g := fun hxg => h.graded.acyclic g (TransGen.head' hx hxg)
  constructor
  · rintro (hxg | hsize)
    · exact hup hxg
    · exact absurd (lt_size_of_holds hx) (by omega)
  · rintro y hy hne (hxy | hsize)
    · rcases ReflTransGen.cases_tail hxy with heq | ⟨z, hz, hzy⟩
      · exact hne heq
      · obtain rfl := h.sole z g y (hstanding hz) hg hzy hy
        exact hup hz
    · have := (h.graded.children g y trivial hy).2
      omega

/-- No node gives way. A literal may have been added in vain. -/
theorem Contained.untouched {w w' : Walk} (h : Contained r t₀ w.tree w.context.changes)
    (ht : w'.tree = w.tree ∨ ∃ l, w'.tree = w.tree.withLiteral l)
    (hc : w'.context.changes = w.context.changes) :
    Contained r t₀ w'.tree w'.context.changes ∧ ∀ D, Spares D w w' := by
  rw [hc]
  rcases ht with ht | ⟨l, ht⟩
  · refine ⟨by rwa [ht], fun D => .of_holds ?_ (fun a b => ?_) hc⟩
    · rw [ht]
    · rw [ht]
  · refine ⟨by rw [ht]; exact h.push (.inl ⟨l, rfl⟩), fun D => .of_holds ?_ (fun a b => ?_) hc⟩
    · rw [ht]
      exact (Grows.push _ _).size
    · rw [ht]
      exact holds_push rfl

namespace Containing

variable {w w' : Walk} {g id : NodeId}

/-- When a node that a standing node holds is offered for reduction, only a
part that it belongs to is touched. -/
theorem reduce {red : Reduction} (h : Containing r t₀ w.tree w.context) (hu : t₀.Unshared)
    (hr : t₀.root = some r) (hg : Standing t₀ r w.context.changes g) (hid : w.tree.Holds g id)
    (hred : w.reduce id = .ok (red, w')) :
    Containing r t₀ w'.tree w'.context ∧
      (∀ D, w.tree.Encloses D → D id → Spares D w w' ∧ ∀ m, red = .replaced m → D m) ∧
      (∀ m, red = .replaced m → Standing t₀ r w'.context.changes g ∧ w'.tree.Holds g m) ∧
      (red = .unchanged → w'.context.changes = w.context.changes) := by
  obtain ⟨site, hsite⟩ := Walk.exists_isSubstitutionSite h.graded.toClosed
    (h.graded.children g id trivial hid)
  cases Walk.reduce_cases hsite hred with
  | kept stays tree changed follows =>
    have hchanges : w'.context.changes = w.context.changes := by simpa using follows.changes
    obtain ⟨hcontained, hspares⟩ := h.toContained.untouched (.inl tree) hchanges
    exact ⟨⟨hcontained, h.toBlames.follows follows⟩, fun D _ _ => ⟨hspares D, by simp⟩, by simp,
      fun _ => hchanges⟩
  | failed unlinked tree changed misses =>
    have hwrong : ∃ k, t₀.Mislinked k id := by
      rcases h.linked g id hg hid with hl | ⟨hwrong, _⟩
      · exact absurd hl (unlinked g)
      · exact hwrong
    obtain ⟨hcontained, hspares⟩ := h.toContained.untouched tree misses.changes
    exact ⟨⟨hcontained, h.toBlames.misses misses hwrong⟩, fun D _ _ => ⟨hspares D, by simp⟩,
      by simp, fun _ => misses.changes⟩
  | @made _ change step node changed follows =>
    subst node
    obtain ⟨holder, hl, hm⟩ := step.moves
    obtain ⟨hcontained, hplace⟩ := h.toContained.step hu hr hg hid step
    have hchanges : w'.context.changes = change :: w.context.changes := follows.changes
    rw [← hchanges] at hcontained
    refine ⟨⟨hcontained, h.toBlames.follows follows⟩, fun D hD hnode => ⟨⟨step.grows.size,
      fun a b hb => hm.holds_iff hl hD hnode hb, ?_⟩, fun m hred => ?_⟩, fun m hred => ?_, ?_⟩
    · rw [hchanges]
      exact List.forall_mem_cons.2 ⟨Or.inr hnode, fun _ => Or.inl⟩
    · exact hm.new_mem hD hnode m (Change.replacement_of_reduction hred)
    · rw [hchanges, standing_cons]
      refine ⟨⟨hg, ?_⟩, hplace m (Change.replacement_of_reduction hred)⟩
      rintro rfl
      exact Nat.lt_irrefl _ (h.graded.descends _ _ trivial hid)
    · intro hred
      cases change with
      | folded | selected => cases hred
      | dropped _ placeholder => cases placeholder <;> cases hred

/-- Visiting what a standing node holds, one after the other. -/
theorem foldlM {f : Walk → NodeId → Except Fault Walk}
    (hf : ∀ {w w' : Walk} {g x : NodeId}, Containing r t₀ w.tree w.context →
      Standing t₀ r w.context.changes g → w.tree.Holds g x → f w x = .ok w' →
      Containing r t₀ w'.tree w'.context ∧ ∀ D, w.tree.Encloses D → D x → Spares D w w')
    {xs : List NodeId} : ∀ {w w' : Walk}, Containing r t₀ w.tree w.context →
      Standing t₀ r w.context.changes g → xs.Nodup → (∀ x ∈ xs, w.tree.Holds g x) →
      xs.foldlM f w = .ok w' →
      Containing r t₀ w'.tree w'.context ∧
        ∀ D, w.tree.Encloses D → (∀ x ∈ xs, D x) → Spares D w w' := by
  induction xs with
  | nil =>
    intro w w' h _ _ _ hw
    cases hw
    exact ⟨h, fun D _ _ => .refl D w⟩
  | cons x xs ih =>
    intro w w' h hg hnodup hxs hw
    obtain ⟨hx, hxs⟩ := List.forall_mem_cons.1 hxs
    obtain ⟨hnot, hnodup⟩ := List.nodup_cons.1 hnodup
    obtain ⟨w₁, h₁, hw⟩ := foldlM_cons_eq_ok.1 hw
    obtain ⟨hcontaining, hspares⟩ := hf h hg hx h₁
    -- the other nodes are not below the first, so they are still in their places
    obtain ⟨hup, hbeside⟩ := h.toContained.not_below hg hx
    have hbelow := hspares _ (w.tree.encloses_below x) (Or.inl .refl)
    have hheld : ∀ y ∈ xs, w₁.tree.Holds g y := by
      intro y hy
      have hne : y ≠ x := by
        rintro rfl
        exact hnot hy
      exact (hbelow.holds g y (hbeside y (hxs y hy) hne)).2 (hxs y hy)
    obtain ⟨hcontaining', hspares'⟩ := ih hcontaining (hbelow.standing hg hup) hnodup hheld hw
    refine ⟨hcontaining', fun D hD hin => ?_⟩
    obtain ⟨hDx, hin⟩ := List.forall_mem_cons.1 hin
    have hfirst := hspares D hD hDx
    exact hfirst.trans (hspares' D (hfirst.encloses hD) hin)

/-- A visit of a node that a standing node holds touches only a part that it
belongs to. -/
theorem visit (hu : t₀.Unshared) (hr : t₀.root = some r) {depth : Nat} :
    ∀ {w w' : Walk} {g id : NodeId}, Containing r t₀ w.tree w.context →
      Standing t₀ r w.context.changes g → w.tree.Holds g id →
      Walk.visitWithin depth w id = .ok w' →
      Containing r t₀ w'.tree w'.context ∧ ∀ D, w.tree.Encloses D → D id → Spares D w w' := by
  induction depth with
  | zero =>
    intro w w' g id _ _ _ hv
    cases hv
  | succ depth ih =>
    intro w w' g id h hg hid hv
    cases Walk.visit_succ_iff.1 hv with
    | removed reduced =>
      obtain ⟨h₁, hspares, -, -⟩ := h.reduce hu hr hg hid reduced
      exact ⟨h₁, fun D hD hin => (hspares D hD hin).1.changed⟩
    | @replaced w₁ _ m reduced onward =>
      obtain ⟨h₁, hspares, hreplaced, -⟩ := h.reduce hu hr hg hid reduced
      obtain ⟨hg₁, hm⟩ := hreplaced m rfl
      obtain ⟨h', hspares'⟩ := @ih { w₁ with changed := true } w' g m h₁ hg₁ hm onward
      refine ⟨h', fun D hD hin => ?_⟩
      obtain ⟨hfirst, hin'⟩ := hspares D hD hin
      exact hfirst.changed.trans (hspares' D (hfirst.encloses hD) (hin' m rfl))
    | @unchanged w₁ _ n reduced node below =>
      obtain ⟨h₁, hspares, -, hunchanged⟩ := h.reduce hu hr hg hid reduced
      have hstands : Standing t₀ r w₁.context.changes id := by
        rw [hunchanged rfl]
        exact h.standing g id hg hid
      obtain ⟨h', hspares'⟩ := h₁.foldlM ih hstands (h₁.once id n hstands node)
        (fun x hx => ⟨n, node, hx⟩) below
      refine ⟨h', fun D hD hin => ?_⟩
      obtain ⟨hfirst, _⟩ := hspares D hD hin
      have hD' := hfirst.encloses hD
      exact hfirst.trans (hspares' D hD' fun x hx => hD'.down id x hin ⟨n, node, hx⟩)

end Containing

/-! ## 7. Runs -/

/-- A run of the pass keeps wrong links contained. -/
theorem Containing.foldConstants {c c' : Context} {changed : Bool} (h : Containing r t₀ t c)
    (hu : t₀.Unshared) (hr : t₀.root = some r)
    (hrun : foldConstants t c = .ok (changed, t', c')) : Containing r t₀ t' c' := by
  -- the root is the source file that it was at the start
  obtain ⟨_, n₀, _, hr₀, hn₀, hs₀⟩ := hu.root
  obtain rfl := Option.some.inj (hr.symm.trans hr₀)
  obtain ⟨n, hn, hb, _⟩ := h.grows.kept r n₀ hn₀
  rw [hs₀] at hb
  obtain ⟨statements, hs⟩ := Shape.bare_eq_sourceFile.1 hb
  have hshape : t.shape r = .ok (.sourceFile statements) := by rw [shape_of_get? hn, hs]
  obtain ⟨depth, hw⟩ := foldConstants_of_file (h.grows.root.trans hr) hshape hrun
  have hchildren : n.shape.children = statements := by rw [hs, Shape.children_sourceFile]
  have hstart : Containing r t₀ (⟨t, c, false⟩ : Walk).tree (⟨t, c, false⟩ : Walk).context := h
  refine (hstart.foldlM (visit hu hr) h.top (hchildren ▸ h.once r n h.top hn) ?_ hw).1
  exact fun x hx => ⟨n, hn, hchildren ▸ hx⟩

theorem Context.Distinct.nodup_nodes {c : Context} (h : c.Distinct) (kind : DiagnosticKind) :
    ((c.diagnostics.filter fun d => d.kind = kind).map Diagnostic.node).Nodup := by
  refine List.pairwise_map.2 ?_
  refine ((List.pairwise_map.1 h).filter _).imp_of_mem fun {d e} hd he hne heq => hne ?_
  have hkind : d.kind = kind := by simpa using (List.mem_filter.1 hd).2
  have hkind' : e.kind = kind := by simpa using (List.mem_filter.1 he).2
  rw [hkind, hkind', heq]

/-- Wrong links are contained. Whatever stands in a slot of a node other than an
`if` statement that its link did not lead to is still there after an
optimization, with the same link. An edit is reported to have failed only for
nodes whose link was wrong at the start, and for each at most once. There is a
result, unless a symbol names a declaration that is no node of the tree. -/
theorem optimize_contains (h : t.Unshared) (symbolAt : Resolver) (options : Options) :
    (symbolAt.Within t → ∃ t' c', optimize t symbolAt options = .ok (t', c')) ∧
    ∀ t' c', optimize t symbolAt options = .ok (t', c') →
      (∀ g x, t.Mislinked g x → (∀ c a b, t.shape g ≠ .ok (.branch c a b)) →
        t'.Holds g x ∧ t'.parent x = t.parent x) ∧
      (∀ d ∈ c'.diagnostics, d.kind = .slotNotFound → ∃ g, t.Mislinked g d.node) ∧
      ((c'.diagnostics.filter fun d => d.kind = .slotNotFound).map Diagnostic.node).Nodup := by
  obtain ⟨r, _, _, hr, _⟩ := h.root
  constructor
  · intro hw
    exact (h.acyclic.graded h.closed).exists_optimize
      (fun _ hr => (inside_of_root h.root hr).2) hw options
  · intro t' c' hrun
    obtain ⟨changed, hrun⟩ := optimize_eq_ok.1 hrun
    have hstart : Containing r t t (.start symbolAt options) :=
      ⟨h.contained hr, ⟨by simp [Context.start], List.nodup_nil⟩⟩
    have hend : Containing r t t' c' :=
      optimizeIn_keeps (fun hc hrun => hc.foldConstants h hr hrun)
        (fun _ hc => ⟨hc.toContained, hc.wrong, hc.distinct⟩) hstart hrun
    refine ⟨fun g x hx hg => ?_, hend.wrong, hend.distinct.nodup_nodes _⟩
    obtain ⟨hholds, hun⟩ := hend.stuck g x hx hg
    obtain ⟨k, hk⟩ := exists_get? (h.closed.children g x trivial hx.1).2
    obtain ⟨k', hk', _⟩ := hend.grows.kept x k hk
    have hparent : k'.parent = k.parent := by
      refine Option.ext fun p => ?_
      have hlink := hun.link p
      simpa [Up, hk, hk'] using hlink
    exact ⟨hholds, by rw [parent_of_get? hk', parent_of_get? hk, hparent]⟩

/-- What else can be checked of a tree in which each node comes after its
children. -/
theorem Tree.Layered.unshared (h : t.Layered)
    (hroot : ∃ i : Fin t.nodes.size, t.root = some ⟨i⟩ ∧ (t.nodeAt i).shape.bare = .sourceFile [])
    (honce : ∀ i : Fin t.nodes.size, (t.nodeAt i).shape.children.Nodup)
    (hsole : ∀ i j : Fin t.nodes.size, ∀ x ∈ (t.nodeAt i).shape.children,
      x ∈ (t.nodeAt j).shape.children → i = j) : t.Unshared where
  acyclic := h.acyclic
  closed := h.closed
  root := by
    obtain ⟨i, hr, hb⟩ := hroot
    obtain ⟨statements, hs⟩ := Shape.bare_eq_sourceFile.1 hb
    exact ⟨⟨i⟩, t.nodeAt i, statements, hr, Array.getElem?_eq_getElem i.isLt, hs⟩
  once g n x hn hx _ := by
    obtain ⟨i, rfl, rfl⟩ := exists_fin hn
    exact List.count_eq_one_of_mem (honce i) hx
  holder g k x hg hk _ := by
    obtain ⟨n, hn, hx⟩ := hg
    obtain ⟨m, hm, hx'⟩ := hk
    obtain ⟨i, rfl, rfl⟩ := exists_fin hn
    obtain ⟨j, rfl, rfl⟩ := exists_fin hm
    rw [hsole i j x hx hx']

namespace Sample

/-- The program `const a = 1 < 2; if (a) f(a);` with wrong links. The
initializer has no parent, and neither has the branch; the link of the argument
leads to the declaration. -/
def mislinked : Tree where
  nodes := #[
    ⟨.identifier "a", some ⟨4⟩, none⟩,
    ⟨.literal (.numeric "1"), some ⟨3⟩, none⟩,
    ⟨.literal (.numeric "2"), some ⟨3⟩, none⟩,
    ⟨.binary ⟨1⟩ .less ⟨2⟩, none, none⟩,
    ⟨.declaration ⟨0⟩ (some ⟨3⟩), some ⟨5⟩, none⟩,
    ⟨.declarationList .constant [⟨4⟩], some ⟨6⟩, none⟩,
    ⟨.variableStatement ⟨5⟩, some ⟨13⟩, none⟩,
    ⟨.identifier "a", some ⟨12⟩, none⟩,
    ⟨.identifier "f", some ⟨10⟩, none⟩,
    ⟨.identifier "a", some ⟨4⟩, none⟩,
    ⟨.call ⟨8⟩ [⟨9⟩], some ⟨11⟩, none⟩,
    ⟨.expressionStatement ⟨10⟩, none, none⟩,
    ⟨.branch ⟨7⟩ ⟨11⟩ none, some ⟨13⟩, none⟩,
    ⟨.sourceFile [⟨6⟩, ⟨12⟩], none, none⟩]
  root := some ⟨13⟩

theorem mislinked_unshared : mislinked.Unshared :=
  Layered.unshared ⟨by decide +kernel, by decide +kernel⟩ (by decide +kernel) (by decide +kernel)
    (by decide +kernel)

theorem symbols_within_mislinked : symbols.resolve.Within mislinked := symbols_within_of_lt (by decide)

theorem mislinked_reports {c' : Context}
    (h : optimize mislinked symbols.resolve options = .ok (t', c')) :
    c'.diagnostics.map Diagnostic.node = [⟨3⟩] := by
  have hreports : (optimize mislinked symbols.resolve options).map
      (fun result => result.2.diagnostics.map Diagnostic.node) = .ok [⟨3⟩] := by
    decide +kernel
  rw [h] at hreports
  exact Except.ok.inj hreports

end Sample

/-- The initializer stays where it is, without a parent, and nothing else is
reported. -/
theorem optimize_contains_initializer :
    ∃ t' c', optimize Sample.mislinked Sample.symbols.resolve Sample.options = .ok (t', c') ∧
      (t'.Holds ⟨4⟩ ⟨3⟩ ∧ t'.parent ⟨3⟩ = .ok none) ∧
      c'.diagnostics.map Diagnostic.node = [⟨3⟩] ∧
      (∀ d ∈ c'.diagnostics, d.kind = .slotNotFound → ∃ g, Sample.mislinked.Mislinked g d.node) ∧
      ((c'.diagnostics.filter fun d => d.kind = .slotNotFound).map Diagnostic.node).Nodup := by
  obtain ⟨hexists, hall⟩ :=
    optimize_contains Sample.mislinked_unshared Sample.symbols.resolve Sample.options
  obtain ⟨t', c', hrun⟩ := hexists Sample.symbols_within_mislinked
  obtain ⟨hstuck, hwrong, hnodup⟩ := hall t' c' hrun
  have hmislinked : Sample.mislinked.Mislinked ⟨4⟩ ⟨3⟩ := by
    refine ⟨⟨_, rfl, by decide⟩, ?_⟩
    rintro ⟨n, hn, hp⟩
    cases hn
    cases hp
  exact ⟨t', c', hrun, hstuck ⟨4⟩ ⟨3⟩ hmislinked (fun _ _ _ hs => by cases hs),
    Sample.mislinked_reports hrun, hwrong, hnodup⟩

end ScriptReduce
