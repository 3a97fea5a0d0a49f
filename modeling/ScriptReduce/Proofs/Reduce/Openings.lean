/-
ScriptReduce.Proofs.Reduce.Openings: what printed nodes begin with after an optimization.

A step changes the first child of a node only if that child gives way, and then it is folded to
a literal, behind which there is nothing, or it is an `if` statement. So along a sequence of steps
there is little that can come to stand directly behind an operator (`Steps.behind`): what stood
there before, a new literal of something that stood first in the operand, or whatever was
uncovered by an `if` statement that gave way. In a well-formed tree the last needs a source file
in the operand, as nothing else has a statement in front (`WellFormed.exists_file`).

New literals that have a place all come from folding (`Steps.exists_folded`).
-/
import ScriptReduce.Proofs.Reduce.Diagnosed
import ScriptReduce.Proofs.Tree.Opening

namespace ScriptReduce

open ScriptReduce.Tree Relation Text

variable {st : Setting} {D : NodeId → Prop} {rank : NodeId → Nat} {t t' u : Tree}
  {change : Change} {changes : List Change} {r x y a z : NodeId}

/-! ## 1. First children -/

namespace Shape

theorem eq_literal_of_bare {α : Type} {s : Shape α} {l : Literal} (h : s.bare = .literal l) :
    s = .literal l := by
  cases s <;> simp_all [bare]

theorem bare_eq_unary {α : Type} {s : Shape α} {op : UnaryOperator} :
    s.bare = .unary op () ↔ ∃ a, s = .unary op a := by
  cases s <;> simp [bare]

variable {s : Shape NodeId} {old : NodeId}

theorem head?_exchange_of_ne (new : Option NodeId) (h : s.children.head? ≠ some old) :
    (s.exchange old new).children.head? = s.children.head? := by
  have hfirst : ∀ {b : NodeId} {cs : List NodeId}, s.children = b :: cs → b ≠ old := by
    rintro b cs heq rfl
    exact h (by rw [heq]; rfl)
  cases new with
  | some m =>
    rw [exchange, children_replace]
    cases heq : s.children with
    | nil => rfl
    | cons b cs =>
      rw [replace_cons_eq, if_neg (hfirst heq)]
      rfl
  | none =>
    cases hv : s.vacate old with
    | none => rw [exchange, hv, Option.getD_none]
    | some rest =>
      rw [exchange, hv, Option.getD_some, children_vacate hv]
      cases heq : s.children with
      | nil => rfl
      | cons b cs =>
        rw [List.erase_cons_tail (by simpa using hfirst heq)]
        rfl

theorem head?_exchange_self (m : NodeId) (h : s.children.head? = some old) :
    (s.exchange old (some m)).children.head? = some m := by
  obtain ⟨cs, heq⟩ := List.head?_eq_some_iff.1 h
  rw [exchange, children_replace, heq, replace_cons_eq, if_pos rfl]
  rfl

end Shape

theorem Tree.Grows.exists_shape (h : t.Grows t') {s : Shape NodeId} (hs : t.shape x = .ok s) :
    ∃ s', t'.shape x = .ok s' ∧ s'.bare = s.bare := by
  obtain ⟨n, hn, rfl⟩ := shape_eq_ok.1 hs
  obtain ⟨n', hn', hb, -⟩ := h.kept x n hn
  exact ⟨n'.shape, shape_of_get? hn', hb⟩

theorem Tree.Grows.exists_bare_eq (h : t.Grows t') (hlt : x.index < t.size) {s' : Shape NodeId}
    (hs' : t'.shape x = .ok s') : ∃ s, t.shape x = .ok s ∧ s'.bare = s.bare := by
  obtain ⟨n, hn⟩ := exists_get? hlt
  obtain ⟨s, hs, hb⟩ := h.exists_shape (shape_of_get? hn)
  rw [hs'] at hs
  cases hs
  exact ⟨n.shape, shape_of_get? hn, hb⟩

theorem Tree.Grows.shape_literal (h : t.Grows t') {l : Literal}
    (hs : t.shape x = .ok (.literal l)) : t'.shape x = .ok (.literal l) := by
  obtain ⟨s', hs', hb⟩ := h.exists_shape hs
  rw [hs', Shape.eq_literal_of_bare hb]

/-- A node that is folded gives way to a new literal of its value. -/
theorem Step.shape_literal {n ℓ : NodeId} {v : Value} (h : Step st t (.folded n ℓ v) t') :
    ℓ = t.next ∧ ∃ l, v.toLiteral? = some l ∧ t'.shape ℓ = .ok (.literal l) := by
  cases h with
  | @folded _ _ _ _ l _ _ _ _ literal relinked =>
    have hnew : (t.withLiteral l).shape t.next = .ok (.literal l) :=
      shape_of_get? (get?_push_next t _)
    exact ⟨rfl, l, literal, (Grows.relinked relinked).shape_literal hnew⟩

/-- What gives way is folded, or it is an `if` statement. -/
theorem Step.folded_or_branch (h : Step st t change t') :
    (∃ v, change = .folded change.node t.next v) ∨ t.IsBranch change.node := by
  cases h with
  | folded => exact .inl ⟨_, rfl⟩
  | selected _ shape | dropped _ shape | filled _ shape => exact .inr ⟨_, _, _, shape⟩

/-- Whether a node is an `if` statement that has given way. -/
def Decided (t : Tree) (changes : List Change) (b : NodeId) : Prop :=
  t.IsBranch b ∧ ∃ change ∈ changes, change.node = b

theorem Decided.cons (h : Decided t changes x) (change : Change) :
    Decided t (change :: changes) x := by
  obtain ⟨hbranch, change', hmem, hnode⟩ := h
  exact ⟨hbranch, change', List.mem_cons_of_mem _ hmem, hnode⟩

/-- A step keeps the first child of a node, unless this is what gives way. If it is folded, the
new literal is the first child. -/
theorem Step.head?_children (h : Step st t change t') {n n' : Node} (hn : t.get? y = some n)
    (hn' : t'.get? y = some n') :
    n'.shape.children.head? = n.shape.children.head? ∨
      n.shape.children.head? = some change.node ∧
        ((∃ v, change = .folded change.node t.next v ∧
          n'.shape.children.head? = some t.next) ∨ t.IsBranch change.node) := by
  obtain ⟨holder, -, hm⟩ := h.moves
  rw [hm.get?_of_some hn] at hn'
  cases hn'
  simp only [relink]
  split
  · by_cases hhead : n.shape.children.head? = some change.node
    · refine .inr ⟨hhead, h.folded_or_branch.imp_left ?_⟩
      rintro ⟨v, hchange⟩
      have hnew : change.replacement = some t.next := by
        rw [hchange]
        rfl
      exact ⟨v, hchange, by rw [hnew, Shape.head?_exchange_self _ hhead]⟩
    · exact .inl (Shape.head?_exchange_of_ne _ hhead)
  · exact .inl rfl

namespace Steps

/-- The literals that nodes were folded to are still there. -/
theorem shape_literal (h : Steps st D t changes t') {n ℓ : NodeId} {v : Value}
    (hmem : .folded n ℓ v ∈ changes) :
    t.size ≤ ℓ.index ∧ ∃ l, v.toLiteral? = some l ∧ t'.shape ℓ = .ok (.literal l) := by
  induction h with
  | start => cases hmem
  | @vain _ u l _ ih =>
    obtain ⟨hsize, l', hl', hs⟩ := ih hmem
    exact ⟨hsize, l', hl', ((Grows.refl u).withLiteral l).shape_literal hs⟩
  | @next _ _ u _ steps _ step ih =>
    rcases List.mem_cons.1 hmem with rfl | hmem
    · obtain ⟨rfl, l, hl, hs⟩ := step.shape_literal
      exact ⟨steps.grows.size, l, hl, hs⟩
    · obtain ⟨hsize, l, hl, hs⟩ := ih hmem
      exact ⟨hsize, l, hl, step.grows.shape_literal hs⟩

/-- The first child of a node stays, or it was folded and the first child is now its literal, or
it was an `if` statement that has given way. -/
theorem head?_children (h : Steps st D t changes t') (hg : t.Graded Everywhere rank t.size)
    {n n' : Node} (hn : t.get? y = some n) (hn' : t'.get? y = some n') :
    n'.shape.children.head? = n.shape.children.head? ∨
      ∃ a, n.shape.children.head? = some a ∧
        ((∃ ℓ v, .folded a ℓ v ∈ changes ∧ n'.shape.children.head? = some ℓ) ∨
          Decided t changes a) := by
  induction h generalizing n' with
  | start =>
    rw [hn] at hn'
    cases hn'
    exact .inl rfl
  | @vain _ u l steps ih =>
    obtain ⟨k, hk, -⟩ := steps.grows.kept y n hn
    rw [Tree.withLiteral, get?_push_of_ne (ne_next_of_get? hk), hk] at hn'
    cases hn'
    exact ih hk
  | @next changes change u t' steps _ step ih =>
    obtain ⟨k, hk, -⟩ := steps.grows.kept y n hn
    rcases step.head?_children hk hn' with heq | ⟨hhead, hcases⟩
    · rw [heq]
      rcases ih hk with hsame | ⟨a, ha, ⟨ℓ, v, hmem, hℓ⟩ | hdecided⟩
      · exact .inl hsame
      · exact .inr ⟨a, ha, .inl ⟨ℓ, v, List.mem_cons_of_mem _ hmem, hℓ⟩⟩
      · exact .inr ⟨a, ha, .inr (hdecided.cons change)⟩
    · rcases ih hk with hsame | ⟨a, ha, ⟨ℓ, v, hmem, hℓ⟩ | hdecided⟩
      · refine .inr ⟨change.node, hsame ▸ hhead, ?_⟩
        rcases hcases with ⟨v, hchange, hnew⟩ | hbranch
        · exact .inl ⟨u.next, v, hchange ▸ List.mem_cons_self, hnew⟩
        · exact .inr ⟨steps.isBranch hg hbranch, change, List.mem_cons_self, rfl⟩
      · -- a literal does not give way
        obtain rfl : ℓ = change.node := Option.some.inj (hℓ.symm.trans hhead)
        have hgives := (steps.graded hg).givesWay steps.grows step.givesWay
        exact absurd hgives.lt_size (Nat.not_lt.2 (steps.shape_literal hmem).1)
      · exact .inr ⟨a, ha, .inr (hdecided.cons change)⟩

end Steps

/-! ## 2. Openings -/

/-- Whether a node stands first in the operand of an operator, in parentheses or not. -/
def Tree.Heads (t : Tree) (op : UnaryOperator) (m n : NodeId) : Prop :=
  ∃ a, t.shape m = .ok (.unary op a) ∧
    (n = a ∨ ¬t.IsBinary a ∧ ∃ w, t.Opens a w ∧ t.Starts w n)

theorem Tree.IsBranch.not_isBinary (h : t.IsBranch x) : ¬t.IsBinary x := by
  rintro ⟨s, hs, hbinary⟩
  obtain ⟨c, a, b, hs'⟩ := h
  rw [hs] at hs'
  cases hs'
  cases hbinary

/-- Nothing stands in front within a literal. -/
theorem Tree.Opens.eq_of_literal {l : Literal} (h : t.Opens x z)
    (hs : t.shape x = .ok (.literal l)) : z = x := by
  rcases ReflTransGen.cases_head h with rfl | ⟨y, ⟨⟨s, hs', hopener⟩, -⟩, -⟩
  · rfl
  · rw [hs] at hs'
    cases hs'
    cases hopener

theorem Tree.Grows.isBinary_iff (h : t.Grows t') (hx : x.index < t.size) :
    t'.IsBinary x ↔ t.IsBinary x := by
  obtain ⟨n, hn⟩ := exists_get? hx
  obtain ⟨n', hn', hb, -⟩ := h.kept x n hn
  simp only [IsBinary, shape_of_get? hn, shape_of_get? hn', Except.ok.injEq, exists_eq_left']
  rw [← Shape.isBinary_bare, hb, Shape.isBinary_bare]

namespace Steps

/-- What the text of a node begins with in the end, it began with at the start, or it began with
something that was folded to it or with an `if` statement that has given way. -/
theorem starts (h : Steps st D t changes t') (hg : t.Graded Everywhere rank t.size)
    (hlt : y.index < t.size) (hyz : t'.Starts y z) :
    t.Starts y z ∨
      ∃ a, t.Starts y a ∧ ((∃ v, .folded a z v ∈ changes) ∨ Decided t changes a) := by
  obtain ⟨n, hn⟩ := exists_get? hlt
  obtain ⟨n', hn', hb, -⟩ := h.grows.kept y n hn
  obtain ⟨s', hs', hopener⟩ := hyz
  rw [shape_of_get? hn'] at hs'
  cases hs'
  have hopened : n.shape.isOpened = true := by
    rw [← Shape.isOpened_bare, ← hb, Shape.isOpened_bare]
    by_contra hnot
    rw [Shape.opener, if_neg hnot] at hopener
    cases hopener
  have hopened' : n'.shape.isOpened = true := by
    rw [← Shape.isOpened_bare, hb, Shape.isOpened_bare, hopened]
  have hstarts : ∀ {a}, n.shape.children.head? = some a → t.Starts y a := fun ha =>
    ⟨n.shape, shape_of_get? hn, by rw [Shape.opener, if_pos hopened, ha]⟩
  rw [Shape.opener, if_pos hopened'] at hopener
  rcases h.head?_children hg hn hn' with heq | ⟨a, ha, ⟨ℓ, v, hmem, hℓ⟩ | hdecided⟩
  · exact .inl (hstarts (heq ▸ hopener))
  · obtain rfl : ℓ = z := Option.some.inj (hℓ.symm.trans hopener)
    exact .inr ⟨a, hstarts ha, .inl ⟨v, hmem⟩⟩
  · exact .inr ⟨a, hstarts ha, .inr hdecided⟩

/-- The same for what stands at the very front of a node. -/
theorem opens (h : Steps st D t changes t') (hg : t.Graded Everywhere rank t.size)
    (hlt : a.index < t.size) (hz : t'.Opens a z) :
    (z.index < t.size ∧ t.Opens a z) ∨
      (∃ w n v, t.Opens a w ∧ t.Starts w n ∧ .folded n z v ∈ changes) ∨
      ∃ b, t.Opens a b ∧ Decided t changes b := by
  induction hz with
  | refl => exact .inl ⟨hlt, .refl⟩
  | @tail w z _ hwz ih =>
    rcases ih with ⟨hw, hopens⟩ | ⟨w', n, v, hopens, hstarts, hmem⟩ | hdecided
    · rcases h.starts hg hw hwz.1 with hstarts | ⟨b, hstarts, ⟨v, hmem⟩ | hdecided⟩
      · have hz : z.index < t.size := by
          obtain ⟨s, hs, hopener⟩ := hstarts
          have hholds := holds_of_shape hs (Shape.mem_children_of_opener hopener)
          exact (hg.children w z trivial hholds).2
        refine .inl ⟨hz, hopens.tail ⟨hstarts, ?_⟩⟩
        rw [← h.grows.isBinary_iff hw, ← h.grows.isBinary_iff hz]
        exact hwz.2
      · exact .inr (.inl ⟨w, b, v, hopens, hstarts, hmem⟩)
      · refine .inr (.inr ⟨b, hopens.tail ⟨hstarts, fun hbinary => ?_⟩, hdecided⟩)
        exact hdecided.1.not_isBinary hbinary.2
    · -- there is nothing below a literal
      obtain ⟨-, l, -, hs⟩ := h.shape_literal hmem
      have heq := Opens.eq_of_literal (.single hwz) hs
      exact .inr (.inl ⟨w', n, v, hopens, hstarts, heq ▸ hmem⟩)
    · exact .inr (.inr hdecided)

/-- The same for what stands directly behind an operator. -/
theorem behind (h : Steps st D t changes t') (hg : t.Graded Everywhere rank t.size)
    {op : UnaryOperator} {m : NodeId} (hm : t'.Behind op m z) :
    (z.index < t.size ∧ t.Behind op m z) ∨
      (∃ n v, t.Heads op m n ∧ .folded n z v ∈ changes) ∨
      ∃ b, t.Behind op m b ∧ Decided t changes b := by
  obtain ⟨a', hs', hbinary, hz⟩ := hm
  have hlt : m.index < t.size := (h.graded hg).lt_limit_of_not_leaf hs' (by simp [Shape.IsLeaf])
  obtain ⟨n, hn⟩ := exists_get? hlt
  obtain ⟨n', hn', hb, -⟩ := h.grows.kept m n hn
  rw [shape_of_get? hn', Except.ok.injEq] at hs'
  -- it was an operand at the start
  obtain ⟨a, hs⟩ : ∃ a, n.shape = .unary op a := Shape.bare_eq_unary.1 (by rw [← hb, hs']; rfl)
  have hshape : t.shape m = .ok (.unary op a) := by rw [shape_of_get? hn, hs]
  rcases h.head?_children hg hn hn' with heq | ⟨b, ha, hcases⟩
  · obtain rfl : a' = a := by simpa [hs, hs'] using heq
    have ha : a'.index < t.size :=
      (hg.children m a' trivial (holds_of_shape hshape List.mem_cons_self)).2
    rw [h.grows.isBinary_iff ha] at hbinary
    rcases h.opens hg ha hz with ⟨hlt, hopens⟩ | ⟨w, n, v, hopens, hstarts, hmem⟩ | ⟨b, hopens, hb⟩
    · exact .inl ⟨hlt, a', hshape, hbinary, hopens⟩
    · exact .inr (.inl ⟨n, v, ⟨a', hshape, .inr ⟨hbinary, w, hopens, hstarts⟩⟩, hmem⟩)
    · exact .inr (.inr ⟨b, ⟨a', hshape, hbinary, hopens⟩, hb⟩)
  · obtain rfl : a = b := by simpa [hs] using ha
    rcases hcases with ⟨ℓ, v, hmem, hℓ⟩ | hdecided
    · obtain rfl : a' = ℓ := by simpa [hs'] using hℓ
      obtain ⟨-, l, -, hliteral⟩ := h.shape_literal hmem
      obtain rfl := hz.eq_of_literal hliteral
      exact .inr (.inl ⟨a, v, ⟨a, hshape, .inl rfl⟩, hmem⟩)
    · exact .inr (.inr ⟨a, ⟨a, hshape, hdecided.1.not_isBinary, .refl⟩, hdecided⟩)

end Steps

/-! ## 3. What is there in the end -/

theorem Tree.Grows.shape_literal_iff (h : t.Grows t') {l : Literal} (hx : x.index < t.size) :
    t'.shape x = .ok (.literal l) ↔ t.shape x = .ok (.literal l) := by
  refine ⟨fun hs' => ?_, h.shape_literal⟩
  obtain ⟨s, hs, hb⟩ := h.exists_bare_eq hx hs'
  rw [hs, Shape.eq_literal_of_bare hb.symm]

/-- What a node is spelled with, it was spelled with before. -/
theorem Tree.Grows.exists_spelling (h : t.Grows t') (hx : x.index < t.size) {s' : Shape NodeId}
    (hs' : t'.shape x = .ok s') : ∃ s, t.shape x = .ok s ∧ s.spelling = s'.spelling := by
  obtain ⟨s, hs, hb⟩ := h.exists_bare_eq hx hs'
  exact ⟨s, hs, by rw [← Shape.spelling_bare, ← hb, Shape.spelling_bare]⟩

namespace Steps

/-- A new literal that has a place is one that a node was folded to. -/
theorem exists_folded (h : Steps st D t changes t') (hg : t.Graded Everywhere rank t.size)
    (hz : t'.Holds y z) (hnew : t.size ≤ z.index) {l : Literal}
    (hs : t'.shape z = .ok (.literal l)) : ∃ n v, .folded n z v ∈ changes := by
  induction h generalizing y with
  | start => exact absurd (hg.children y z trivial hz).2 (Nat.not_lt.2 hnew)
  | @vain _ u l' steps ih =>
    have hz := (holds_push rfl).1 hz
    have hlt := ((steps.graded hg).children y z trivial hz).2
    exact ih hz ((((Grows.refl u).withLiteral l').shape_literal_iff hlt).1 hs)
  | @next changes change u t' steps _ step ih =>
    have hearlier : ∀ {g}, u.Holds g z → ∃ n v, .folded n z v ∈ change :: changes := by
      intro g hz
      have hlt := ((steps.graded hg).children g z trivial hz).2
      obtain ⟨n, v, hmem⟩ := ih hz ((step.grows.shape_literal_iff hlt).1 hs)
      exact ⟨n, v, List.mem_cons_of_mem _ hmem⟩
    rcases step.holds_cases hz with hz | ⟨-, hreplacement⟩
    · exact hearlier hz
    · cases step with
      | @folded _ old _ v =>
        cases hreplacement
        exact ⟨old, v, List.mem_cons_self⟩
      | selected _ shape _ chosen _ =>
        cases hreplacement
        exact hearlier (holds_of_branch shape (chosen_mem chosen))
      | dropped => cases hreplacement
      | filled _ _ _ _ _ _ relinked =>
        -- an empty statement is no literal
        cases hreplacement
        obtain ⟨s', hs', hb⟩ := (Grows.relinked relinked).exists_shape
          (shape_of_get? (get?_push_next u ⟨.emptyStatement, none, none⟩))
        rw [hs] at hs'
        cases hs'
        cases hb

end Steps

/-- The only statement that the text of a node begins with is the first one of a source file. -/
theorem Shape.exists_file {s : Shape NodeId} {b : NodeId} (hopener : s.opener = some b)
    (h : ∀ q, (q, b) ∈ s.spots → q.isStatement = true) : ∃ rest, s = .sourceFile (b :: rest) := by
  cases s with
  | sourceFile statements =>
    obtain ⟨rest, heq⟩ := List.head?_eq_some_iff.1 (by simpa [opener, isOpened] using hopener)
    exact ⟨rest, by rw [heq]⟩
  | binary a op b' =>
    obtain rfl : a = b := by simpa [opener, isOpened] using hopener
    have hplace := h (.left op) (by simp [spots])
    rw [Place.isStatement_eq_false_of_isExpression (Place.isExpression_left op)] at hplace
    cases hplace
  | call a as =>
    obtain rfl : a = b := by simpa [opener, isOpened] using hopener
    cases h .expression (by simp [spots])
  | expressionStatement a =>
    obtain rfl : a = b := by simpa [opener, isOpened] using hopener
    cases h .expression (by simp [spots])
  | variableStatement a | declaration a =>
    obtain rfl : a = b := by simpa [opener, isOpened] using hopener
    cases h .fixed (by simp [spots])
  | _ => cases hopener

/-- An `if` statement that stands directly behind an operator is the first statement of a source
file in the operand. -/
theorem Tree.WellFormed.exists_file (h : t.WellFormed) {op : UnaryOperator} {m b : NodeId}
    (hb : t.Behind op m b) (hbranch : t.IsBranch b) :
    ∃ f rest, t.Behind op m f ∧ t.shape f = .ok (.sourceFile (b :: rest)) := by
  obtain ⟨c, whenTrue, whenFalse, hs⟩ := hbranch
  obtain ⟨a, hm, hbinary, hopens⟩ := hb
  have hplace : ∀ {g s q}, t.shape g = .ok s → (q, b) ∈ s.spots → q.isStatement = true := by
    intro g s q hg hq
    obtain ⟨n, hn, rfl⟩ := shape_eq_ok.1 hg
    exact h.branches g n q b c whenTrue whenFalse hn hq hs
  rcases ReflTransGen.cases_tail hopens with rfl | ⟨f, hf, ⟨s, hfile, hopener⟩, -⟩
  · exact absurd (hplace hm List.mem_cons_self) Bool.false_ne_true
  · obtain ⟨rest, rfl⟩ := Shape.exists_file hopener fun q => hplace hfile
    exact ⟨f, rest, ⟨a, hm, hbinary, hf⟩, hfile⟩

end ScriptReduce
