/-
ScriptReduce.Proofs.Tree.InPlace: edits of a tree, and what they leave alone.

An edit looks through the slots of the parent, in source order, for the first
that holds the node. `Shape.FirstExchanged` says what becomes of the parent: in
the list of its children the first occurrence of the node is given to another
or taken out. That holds of shapes that hold the same node several times, too.

`replaceInPlace` and `removeInPlace` edit a tree where it stands, so that there
is a tree afterwards even if the edit is refused. They do the same as `replace`
and `remove`, and the tree they leave behind when they are refused is the one
they were given. A removal that needs a placeholder adds it before it hands
over to the replacement, but it only gets there if that is not refused.

Of the tree nothing is asked but that the nodes named are there.
-/
import ScriptReduce.Proofs.Tree.Edit

namespace ScriptReduce

/-! ## 1. The first slot -/

/-- Whether a slot has to be filled. -/
def Slot.isRequired {α : Type} : Slot α → Bool
  | .single _ => true
  | .optional _ | .sequence _ => false

namespace Shape

variable {α : Type} {old : α} {new : Option α} {s s' rest : Shape α}

/-- Whether a shape differs from another in this only: the first occurrence of
a child was given to another, or was taken out. -/
structure FirstExchanged (old : α) (new : Option α) (s s' : Shape α) : Prop where
  bare : s'.bare = s.bare
  children : ∃ before after, s.children = before ++ old :: after ∧ old ∉ before ∧
    s'.children = before ++ new.toList ++ after

variable [DecidableEq α]

/-- Whether the first slot that holds a child has to be filled. -/
def requires (s : Shape α) (x : α) : Bool :=
  (s.slots.find? fun slot => slot.children.contains x).any Slot.isRequired

theorem firstExchanged_replace (h : old ∈ s.children) (new : α) :
    FirstExchanged old (some new) s (s.replace old new) where
  bare := bare_replace old new s
  children := by
    obtain ⟨before, after, hs, hfirst⟩ := List.eq_append_cons_of_mem h
    refine ⟨before, after, hs, hfirst, ?_⟩
    rw [children_replace, hs, List.replace_append, if_neg hfirst]
    simp

theorem firstExchanged_vacate (h : old ∈ s.children) (hv : s.vacate old = some rest) :
    FirstExchanged old none s rest where
  bare := bare_vacate hv
  children := by
    obtain ⟨before, after, hs, hfirst⟩ := List.eq_append_cons_of_mem h
    refine ⟨before, after, hs, hfirst, ?_⟩
    rw [children_vacate hv, hs, List.erase_append_right _ hfirst]
    simp

theorem firstExchanged_exchange {s : Shape NodeId} {old : NodeId} {new : Option NodeId}
    (h : old ∈ s.children) (hnew : new = none → s.vacate old ≠ none) :
    FirstExchanged old new s (s.exchange old new) := by
  cases new with
  | some m => exact firstExchanged_replace h m
  | none =>
    obtain ⟨rest, hrest⟩ := Option.ne_none_iff_exists'.1 (hnew rfl)
    rw [exchange, hrest]
    exact firstExchanged_vacate h hrest

/-- A slot cannot be emptied just if it is the first to hold the child and has
to be filled. -/
theorem vacate_eq_none_iff_requires (h : old ∈ s.children) :
    s.vacate old = none ↔ s.requires old = true := by
  cases s with
  | literal _ | identifier _ | emptyStatement => cases h
  | unary _ a | expressionStatement a | variableStatement a =>
    simp [vacate, requires, slots, Slot.children, Slot.isRequired, List.mem_singleton.1 h]
  | sourceFile as | block as | declarationList _ as | other _ as =>
    have has : old ∈ as := by simpa using h
    simp [vacate, requires, slots, Slot.children, Slot.isRequired, has]
  | binary a op b =>
    by_cases ha : old = a
    · simp [vacate, requires, slots, Slot.children, Slot.isRequired, ha]
    · have hb : old = b := by simpa [ha] using h
      subst hb
      simp [vacate, requires, slots, Slot.children, Slot.isRequired, ha]
  | call a as =>
    by_cases ha : old = a
    · simp [vacate, requires, slots, Slot.children, Slot.isRequired, ha]
    · have has : old ∈ as := by simpa [ha] using h
      simp [vacate, requires, slots, Slot.children, Slot.isRequired, ha, Ne.symm ha, has]
  | branch a b c =>
    by_cases ha : old = a
    · simp [vacate, requires, slots, Slot.children, Slot.isRequired, ha]
    by_cases hb : old = b
    · subst hb
      simp [vacate, requires, slots, Slot.children, Slot.isRequired, ha]
    have hc : c = some old := by simpa [ha, hb] using h
    simp [vacate, requires, slots, Slot.children, Slot.isRequired, ha, hb, Ne.symm ha,
      Ne.symm hb, hc]
  | declaration a b =>
    by_cases ha : old = a
    · simp [vacate, requires, slots, Slot.children, Slot.isRequired, ha]
    · have hb : b = some old := by simpa [ha] using h
      simp [vacate, requires, slots, Slot.children, Slot.isRequired, ha, Ne.symm ha, hb]

end Shape

/-! ## 2. Edits in place -/

/-- What edits a tree where it stands. A refusal does not take back what was
done to the tree before. -/
abbrev Editing (α : Type) := ExceptT EditError (StateT Tree (Except Fault)) α

namespace Editing

variable {α β : Type}

/-- Makes the edit: whether it was refused, and the tree afterwards. -/
def on (x : Editing α) (t : Tree) : Except Fault (Except EditError α × Tree) :=
  (ExceptT.run x).run t

/-- To look at the tree does not change it. -/
theorem on_read (look : Tree → Except Fault α) (f : α → Editing β) (t : Tree) :
    on (do let a ← look (← get); f a) t = look t >>= fun a => (f a).on t := by
  change on (liftM (look t) >>= f) t = _
  cases look t <;> rfl

/-- What is done to the tree is there for what follows. -/
theorem on_write (change : Tree → Except Fault Tree) (x : Editing β) (t : Tree) :
    on (do set (← change (← get)); x) t = change t >>= x.on := by
  change on (liftM (change t) >>= fun u => set u >>= fun _ => x) t = _
  cases change t <;> rfl

/-- What is returned after an edit was made does not matter to the edit. -/
theorem on_then_return (u : Tree) (x : Editing α) (b : β) (t : Tree) :
    on (do set u; let _ ← x; return b) t = (fun p => (p.1.map fun _ => b, p.2)) <$> x.on u := by
  change on (x >>= fun _ => pure b) u = _
  unfold on
  rw [ExceptT.run_bind, StateT.run_bind]
  cases (ExceptT.run x).run u with
  | error e => rfl
  | ok p =>
    obtain ⟨r, t'⟩ := p
    cases r <;> rfl

end Editing

namespace Tree

/-- Puts `new` into the slot that holds `old`, in place. -/
def replaceInPlace (old new : NodeId) : Editing Unit := do
  match ← (← get).parent old with
  | none => throw (.detached old)
  | some parent =>
    let shape ← (← get).shape parent
    if shape.children.contains old then
      set (← (← get).setShape parent (shape.replace old new))
      set (← (← get).setParent new (some parent))
      set (← (← get).setParent old none)
      return ()
    else throw (.notHeld old parent)

/-- Takes `old` out of its parent, in place. -/
def removeInPlace (old : NodeId) : Editing (Option NodeId) := do
  match ← (← get).parent old with
  | none => throw (.detached old)
  | some parent =>
    let shape ← (← get).shape parent
    if shape.children.contains old then
      match shape.vacate old with
      | some rest =>
        set (← (← get).setShape parent rest)
        set (← (← get).setParent old none)
        return none
      | none =>
        let (placeholder, t) ← (← get).add .emptyStatement
        set t
        replaceInPlace old placeholder
        return some placeholder
    else throw (.notHeld old parent)

variable {t : Tree} {old new : NodeId}

/-- An edit with its outcome, and the tree as it was if it was refused. -/
def settle {α : Type} (t : Tree) : Except EditError (α × Tree) → Except EditError α × Tree
  | .ok (a, t') => (.ok a, t')
  | .error e => (.error e, t)

/-- A replacement in place is a replacement, and leaves the tree as it was if
it is refused. -/
theorem replaceInPlace_on (t : Tree) (old new : NodeId) :
    (replaceInPlace old new).on t =
      (fun r => settle t (r.map fun t' => ((), t'))) <$> t.replace old new := by
  unfold replaceInPlace replace
  rw [Editing.on_read, map_bind]
  refine bind_congr fun p => ?_
  cases p with
  | none => rfl
  | some p =>
    simp only
    rw [Editing.on_read, map_bind]
    refine bind_congr fun s => ?_
    by_cases hold : s.children.contains old
    · rw [if_pos hold, if_pos hold, Editing.on_write, map_bind]
      refine bind_congr fun u => ?_
      rw [Editing.on_write, map_bind]
      refine bind_congr fun v => ?_
      rw [Editing.on_write, map_bind]
      rfl
    · rw [if_neg hold, if_neg hold]
      rfl

/-- A removal in place is a removal, and leaves the tree as it was if it is
refused: the replacement that it hands over to is not refused then. -/
theorem removeInPlace_on (t : Tree) (old : NodeId) :
    (removeInPlace old).on t = settle t <$> t.remove old := by
  unfold removeInPlace remove
  rw [Editing.on_read, map_bind]
  -- what is read is kept as an equation here: together they say that the node is linked
  cases hp : t.parent old with
  | error e => rfl
  | ok p =>
    rw [bind_of_ok _ rfl, bind_of_ok _ rfl]
    cases p with
    | none => rfl
    | some p =>
      simp only
      rw [Editing.on_read, map_bind]
      cases hs : t.shape p with
      | error e => rfl
      | ok s =>
        rw [bind_of_ok _ rfl, bind_of_ok _ rfl]
        by_cases hold : s.children.contains old
        · rw [if_pos hold, if_pos hold]
          cases hv : s.vacate old with
          | some rest =>
            simp only
            rw [Editing.on_write, map_bind]
            refine bind_congr fun u => ?_
            rw [Editing.on_write, map_bind]
            rfl
          | none =>
            simp only
            rw [Editing.on_read, add_leaf rfl, bind_of_ok _ rfl, bind_of_ok _ rfl,
              Editing.on_then_return, replaceInPlace_on]
            cases hr : (t.push ⟨.emptyStatement, none, none⟩).replace old t.next with
            | error e => rfl
            | ok r =>
              cases r with
              | ok t' => rfl
              | error e =>
                obtain ⟨n, hn, hparent⟩ := parent_eq_ok.1 hp
                obtain ⟨k, hk, rfl⟩ := shape_eq_ok.1 hs
                have hl : t.Linked p old := ⟨⟨k, hk, by simpa using hold⟩, n, hn, hparent⟩
                exact absurd (hl.push _) ((refused_of_replace hr).2 p)
        · rw [if_neg hold, if_neg hold]
          rfl

/-! ## 3. Refusals and effects -/

/-- Whether an edit of a node is refused, and why. -/
def Refuses (t : Tree) (old : NodeId) : EditError → Prop
  | .detached x => x = old ∧ t.parent old = .ok none
  | .notHeld x p => x = old ∧ t.parent old = .ok (some p) ∧ ¬t.Holds p old

/-- Whether a tree differs from another in this only: the first occurrence of
`old` among the children of `holder` was given to `new`, or was taken out, with
the parent links that belong to it. -/
structure Exchanges (t : Tree) (holder old : NodeId) (new : Option NodeId) (t' : Tree) :
    Prop where
  root : t'.root = t.root
  size : t'.size = t.size
  slots : ∃ s s', t.shape holder = .ok s ∧ t'.shape holder = .ok s' ∧
    s.FirstExchanged old new s'
  shapes : ∀ y, y ≠ holder → t'.shape y = t.shape y
  spans : ∀ y, t'.span y = t.span y
  taken : t'.parent old = .ok none
  given : ∀ m, new = some m → m ≠ old → t'.parent m = .ok (some holder)
  parents : ∀ y, y ≠ old → new ≠ some y → t'.parent y = t.parent y

variable {t t' : Tree} {holder old new y : NodeId} {n : Node}

/-- What is read off the nodes agrees where it agrees on the nodes. -/
theorem node_bind_congr {β : Type} {f : Node → β} (h : (t'.get? y).map f = (t.get? y).map f) :
    (t'.node y >>= fun n => pure (f n) : Except Fault β) = t.node y >>= fun n => pure (f n) := by
  unfold get? at h
  unfold node
  cases h' : t'.nodes[y.index]? with
  | none =>
    cases h'' : t.nodes[y.index]? with
    | none => rfl
    | some n => simp [h', h''] at h
  | some n' =>
    cases h'' : t.nodes[y.index]? with
    | none => simp [h', h''] at h
    | some n =>
      rw [h', h''] at h
      exact congrArg Except.ok (Option.some.inj h)

/-- Giving a slot away does just that. -/
theorem Relinked.exchanges {new : Option NodeId} (hr : t.Relinked holder old new t')
    (hl : t.Linked holder old) (hnew : ∀ m, new = some m → m.index < t.size)
    (hvacates : ∀ n, t.get? holder = some n → new = none → n.shape.vacate old ≠ none) :
    t.Exchanges holder old new t' where
  root := hr.root
  size := hr.size
  slots := by
    obtain ⟨⟨n, hn, hmem⟩, -⟩ := hl
    have hn' : t'.get? holder = some (relink holder old new holder n) := by rw [hr.get, hn]; rfl
    refine ⟨n.shape, _, shape_of_get? hn, shape_of_get? hn', ?_⟩
    simp only [relink, if_true]
    exact Shape.firstExchanged_exchange hmem (hvacates n hn)
  shapes y hy := node_bind_congr (by rw [hr.get, Option.map_map]; simp [Function.comp_def, relink, hy])
  spans y := node_bind_congr (by rw [hr.get, Option.map_map]; rfl)
  taken := by
    obtain ⟨-, n, hn, -⟩ := hl
    exact parent_eq_ok.2 ⟨relink holder old new old n, by rw [hr.get, hn]; rfl, by simp [relink]⟩
  given m hm hne := by
    obtain ⟨n, hn⟩ := exists_get? (hnew m hm)
    exact parent_eq_ok.2
      ⟨relink holder old new m n, by rw [hr.get, hn]; rfl, by simp [relink, hne, hm]⟩
  parents y hy hne := node_bind_congr <| by
    rw [hr.get, Option.map_map]
    simp [Function.comp_def, relink, hy, Ne.symm hne]

namespace Refuses

variable {e e' : EditError}

/-- There is one reason to refuse an edit at most. -/
theorem unique (h : t.Refuses old e) (h' : t.Refuses old e') : e' = e := by
  cases e with
  | detached x =>
    obtain ⟨rfl, hp⟩ := h
    cases e' with
    | detached x' => rw [h'.1]
    | notHeld x' p' => cases hp.symm.trans h'.2.1
  | notHeld x p =>
    obtain ⟨rfl, hp, -⟩ := h
    cases e' with
    | detached x' => cases hp.symm.trans h'.2
    | notHeld x' p' =>
      obtain ⟨rfl, hp', -⟩ := h'
      cases hp.symm.trans hp'
      rfl

/-- What stands in the way of one edit stands in the way of the other. -/
theorem refused (h : t.Refuses old e)
    (hparent : ∀ p, t.parent old = .ok (some p) → p.index < t.size) (new : NodeId) :
    t.replace old new = .ok (.error e) ∧ t.remove old = .ok (.error e) := by
  unfold replace remove
  cases e with
  | detached x =>
    obtain ⟨rfl, hp⟩ := h
    rw [bind_of_ok _ hp, bind_of_ok _ hp]
    exact ⟨rfl, rfl⟩
  | notHeld x p =>
    obtain ⟨rfl, hp, hh⟩ := h
    obtain ⟨k, hk⟩ := exists_get? (hparent p hp)
    have hnot : ¬k.shape.children.contains x := by simpa [holds_iff hk] using hh
    rw [bind_of_ok _ hp, bind_of_ok _ hp]
    simp only
    rw [bind_of_ok _ (shape_of_get? hk), bind_of_ok _ (shape_of_get? hk), if_neg hnot, if_neg hnot]
    exact ⟨rfl, rfl⟩

end Refuses

/-- A linked node is not refused. -/
theorem not_refuses_of_linked (hl : t.Linked holder old) (e : EditError) : ¬t.Refuses old e := by
  obtain ⟨hholds, n, hn, hparent⟩ := hl
  have hparent : t.parent old = .ok (some holder) := parent_eq_ok.2 ⟨n, hn, hparent⟩
  intro h
  cases e with
  | detached x => cases hparent.symm.trans h.2
  | notHeld x p =>
    obtain ⟨-, hp, hh⟩ := h
    cases hparent.symm.trans hp
    exact hh hholds

/-- A node is linked, or there is a reason to refuse it. -/
theorem linked_or_refuses (hn : t.get? old = some n) :
    (∃ holder, t.Linked holder old) ∨ ∃ e, t.Refuses old e := by
  cases hparent : n.parent with
  | none => exact .inr ⟨.detached old, rfl, parent_eq_ok.2 ⟨n, hn, hparent⟩⟩
  | some holder =>
    by_cases hh : t.Holds holder old
    · exact .inl ⟨holder, hh, n, hn, hparent⟩
    · exact .inr ⟨.notHeld old holder, rfl, parent_eq_ok.2 ⟨n, hn, hparent⟩, hh⟩

/-- Whether the tree is what a removal leaves behind, given the holder and the
placeholder: the slot was emptied, or given to a new empty statement if it has
to be filled. -/
def Removes (t : Tree) (old holder : NodeId) (placeholder : Option NodeId) (t' : Tree) : Prop :=
  ∃ s, t.shape holder = .ok s ∧
    if s.requires old then
      placeholder = some t.next ∧
        (t.push ⟨.emptyStatement, none, none⟩).Exchanges holder old (some t.next) t' ∧
        t'.get? t.next = some ⟨.emptyStatement, some holder, none⟩
    else placeholder = none ∧ t.Exchanges holder old none t'

/-- What an edit of a node comes to, by its result and by what it does in
place: it is refused if the node is not linked, and the tree is what it was; or
else it has its effect on the holder. -/
structure Settles {α : Type} (t : Tree) (old : NodeId) (x : Editing α)
    (r : Except EditError (α × Tree)) (effect : NodeId → α → Tree → Prop) : Prop where
  refused : ∀ e, r = .error e ↔ t.Refuses old e
  unchanged : ∀ e, r = .error e → x.on t = .ok (.error e, t)
  done : ∀ a t', r = .ok (a, t') → x.on t = .ok (.ok a, t') ∧
    ∃ holder, t.parent old = .ok (some holder) ∧ effect holder a t'

namespace Settles

variable {α : Type} {x : Editing α} {effect : NodeId → α → Tree → Prop}

theorem of_refused {e : EditError} (h : t.Refuses old e) (hx : x.on t = .ok (.error e, t)) :
    t.Settles old x (.error e) effect where
  refused e' := by
    rw [Except.error.injEq]
    constructor
    · intro he
      exact he ▸ h
    · exact fun h' => (h.unique h').symm
  unchanged e' he := by
    cases he
    exact hx
  done a t' h := by cases h

theorem of_linked {a : α} (hl : t.Linked holder old) (hx : x.on t = .ok (.ok a, t'))
    (he : effect holder a t') : t.Settles old x (.ok (a, t')) effect where
  refused e := by
    simp only [reduceCtorEq, false_iff]
    exact not_refuses_of_linked hl e
  unchanged e h := by cases h
  done b u h := by
    cases h
    obtain ⟨-, n, hn, hp⟩ := hl
    exact ⟨hx, holder, parent_eq_ok.2 ⟨n, hn, hp⟩, he⟩

end Settles

/-! ## 4. Edits are exact -/

/-- A node is linked to one holder. -/
theorem Linked.eq_holder {p : NodeId} (h : t.Linked holder old) (hp : n.parent = some p)
    (hn : t.get? old = some n) : p = holder := by
  rw [linked_iff hn, hp] at h
  exact Option.some.inj h.1

theorem Linked.parent_lt (h : t.Linked holder old) (hn : t.get? old = some n) (p : NodeId)
    (hp : n.parent = some p) : p.index < t.size := by
  rw [h.eq_holder hp hn]
  obtain ⟨⟨k, hk, -⟩, -⟩ := h
  exact lt_size_of_get? hk

/-- A linked node is replaced. -/
theorem exchanges_of_replace (hl : t.Linked holder old) (hnew : new.index < t.size) :
    ∃ t', t.replace old new = .ok (.ok t') ∧ t.Exchanges holder old (some new) t' := by
  obtain ⟨-, n, hn, hp⟩ := id hl
  rcases replace_total hn (hl.parent_lt hn) hnew with ⟨t', h⟩ | ⟨_, _, _, hnot⟩
  · obtain ⟨_, holder', hl', hr⟩ := relinked_of_replace h
    obtain rfl := hl'.eq_holder hp hn
    exact ⟨t', h, hr.exchanges hl (fun m hm => by cases hm; exact hnew) fun _ _ h => by cases h⟩
  · exact absurd hl (hnot holder)

/-- A linked node is removed. -/
theorem removes_of_remove (hl : t.Linked holder old) :
    ∃ placeholder t', t.remove old = .ok (.ok (placeholder, t')) ∧
      t.Removes old holder placeholder t' := by
  obtain ⟨⟨k, hk, hmem⟩, n, hn, hp⟩ := id hl
  rcases remove_total hn (hl.parent_lt hn) with ⟨⟨placeholder, t'⟩, h⟩ | ⟨_, _, _, hnot⟩
  · refine ⟨placeholder, t', h, k.shape, shape_of_get? hk, ?_⟩
    obtain ⟨holder', k', hl', hk', hcases⟩ := relinked_of_remove h
    obtain rfl := hl'.eq_holder hp hn
    rw [hk] at hk'
    cases hk'
    rcases hcases with ⟨rfl, hv, hr⟩ | ⟨rfl, hv, hr⟩
    · rw [if_neg fun hreq => hv ((Shape.vacate_eq_none_iff_requires hmem).2 hreq)]
      refine ⟨rfl, hr.exchanges hl (fun _ h => by cases h) fun k' hk' _ => ?_⟩
      rw [hk] at hk'
      cases hk'
      exact hv
    · rw [if_pos ((Shape.vacate_eq_none_iff_requires hmem).1 hv)]
      refine ⟨rfl, hr.exchanges (hl.push _) (fun m hm => ?_) fun _ _ h => (by cases h), ?_⟩
      · cases hm
        rw [size_push]
        exact Nat.lt_succ_self _
      · rw [hr.get, get?_push_next]
        simp [relink, (ne_next_of_get? hk).symm, (ne_next_of_get? hn).symm]
  · exact absurd hl (hnot holder)

/-- What replacing and removing a node comes to, in any tree in which the nodes
named are there. -/
theorem edits_exact (hn : t.get? old = some n) (hp : ∀ p, n.parent = some p → p.index < t.size)
    (hnew : new.index < t.size) :
    (∃ r, t.replace old new = .ok r ∧
      t.Settles old (replaceInPlace old new) (r.map fun t' => ((), t'))
        fun holder _ => t.Exchanges holder old (some new)) ∧
    ∃ r, t.remove old = .ok r ∧ t.Settles old (removeInPlace old) r (t.Removes old) := by
  have hreplace := replaceInPlace_on t old new
  have hremove := removeInPlace_on t old
  rcases linked_or_refuses hn with ⟨holder, hl⟩ | ⟨e, he⟩
  · obtain ⟨t₁, hr, hexchanges⟩ := exchanges_of_replace hl hnew
    obtain ⟨placeholder, t₂, hm, hremoves⟩ := removes_of_remove hl
    rw [hr] at hreplace
    rw [hm] at hremove
    exact ⟨⟨_, hr, .of_linked hl hreplace hexchanges⟩, _, hm, .of_linked hl hremove hremoves⟩
  · have hparent : ∀ p, t.parent old = .ok (some p) → p.index < t.size := by
      intro p h
      obtain ⟨k, hk, hkp⟩ := parent_eq_ok.1 h
      rw [hn] at hk
      cases hk
      exact hp p hkp
    obtain ⟨hr, hm⟩ := he.refused hparent new
    rw [hr] at hreplace
    rw [hm] at hremove
    exact ⟨⟨_, hr, .of_refused he hreplace⟩, _, hm, .of_refused he hremove⟩

end Tree

namespace Sample

/-- The statement `if (x) x else x` with one node for its three children, and
another node. -/
def threefold : Tree where
  nodes := #[
    ⟨.identifier "x", some ⟨1⟩, none⟩,
    ⟨.branch ⟨0⟩ ⟨0⟩ (some ⟨0⟩), some ⟨1⟩, none⟩,
    ⟨.emptyStatement, some ⟨0⟩, none⟩]
  root := some ⟨1⟩

end Sample

theorem edits_exact_threefold :
    (∃ r, Sample.threefold.replace ⟨0⟩ ⟨2⟩ = .ok r ∧
      Sample.threefold.Settles ⟨0⟩ (Tree.replaceInPlace ⟨0⟩ ⟨2⟩) (r.map fun t' => ((), t'))
        fun holder _ => Sample.threefold.Exchanges holder ⟨0⟩ (some ⟨2⟩)) ∧
    ∃ r, Sample.threefold.remove ⟨0⟩ = .ok r ∧
      Sample.threefold.Settles ⟨0⟩ (Tree.removeInPlace ⟨0⟩) r (Sample.threefold.Removes ⟨0⟩) :=
  Tree.edits_exact (t := Sample.threefold) (n := ⟨.identifier "x", some ⟨1⟩, none⟩) rfl
    (fun p hp => by cases hp; decide) (by decide)

end ScriptReduce
