/-
ScriptReduce.Proofs.Symbol.Walk: binding, step by step.

The binder goes through a tree by recursion, with a state that it hands on. Here the
recursion is unrolled: binding a tree is a run of small steps (`Binding.Step`),
each of which comes to a node, declares one thing, looks up one identifier or
closes a scope. The steps carry along what the binder itself does not keep, so that
it can be spoken of: which scopes are open, which nodes the walk has come to, and
which declarations it has met, in order and with repetitions.

`Binding.exists_run` shows that every walk is such a run, in whatever tree: nodes
may be shared, and the root may be of any kind. What a step keeps holds at its end.
-/
import ScriptReduce.Proofs.Symbol.Declarations

namespace ScriptReduce

open ScriptReduce.Tree Relation

variable {t : Tree} {r x y d : NodeId} {opened passed after order part : List NodeId}
  {b b' : Binding} {name : String}

/-! ## 1. Ways down -/

/-- A way down from a root to a node, with the scopes that it goes through, the
innermost first. -/
inductive Tree.Path (t : Tree) (r : NodeId) : List NodeId → NodeId → Prop where
  | root : Path t r [] r
  | inner {opened : List NodeId} {x y : NodeId} (path : Path t r opened x)
    (opens : t.OpensScope x) (holds : t.Holds x y) : Path t r (x :: opened) y
  | beside {opened : List NodeId} {x y : NodeId} (path : Path t r opened x)
    (closed : ¬t.OpensScope x) (holds : t.Holds x y) : Path t r opened y

theorem Tree.Path.reaches (h : t.Path r opened x) : t.Reaches r x := by
  induction h with
  | root => exact .refl
  | inner _ _ holds ih => exact ih.trans_holds holds
  | beside _ _ holds ih => exact ih.trans_holds holds

/-- An item stands in a list that some way through the open scopes leads to. -/
def Tree.ListedIn (t : Tree) (r : NodeId) (opened : List NodeId) (e : BindingKind × NodeId) :
    Prop :=
  ∃ l ds, t.Path r opened l ∧ t.shape l = .ok (.declarationList e.1 ds) ∧ e.2 ∈ ds

/-- What the walk declares when it comes to a node: the items of a list, or all that
stands in the statements of a scope. -/
def Tree.announced (t : Tree) (x : NodeId) : List (BindingKind × NodeId) :=
  match t.shape x with
  | .ok (.declarationList kind ds) => ds.map (kind, ·)
  | _ => t.items x

section

variable {kind : BindingKind} {ds ss : List NodeId} {shape : Shape NodeId}

theorem Tree.announced_of_list (h : t.shape x = .ok (.declarationList kind ds)) :
    t.announced x = ds.map (kind, ·) := by
  rw [announced, h]

theorem Tree.announced_of_scope (h : t.shape x = .ok shape)
    (hkind : shape = .sourceFile ss ∨ shape = .block ss) :
    t.announced x = ss.flatMap t.listed := by
  rcases hkind with rfl | rfl
  · rw [announced, h, items, statements_of_sourceFile h]
  · rw [announced, h, items, statements_of_block h]

theorem Tree.announced_eq_nil (h : t.shape x = .ok shape) (hopens : ¬shape.OpensScope)
    (hlist : ∀ kind ds, shape ≠ .declarationList kind ds) : t.announced x = [] := by
  unfold announced items statements
  rw [h]
  cases shape with
  | sourceFile ss | block ss => exact absurd trivial hopens
  | declarationList kind ds => exact absurd rfl (hlist kind ds)
  | _ => rfl

/-- What is declared at a node stands in a list at or below it. -/
theorem Tree.of_mem_announced {e : BindingKind × NodeId} (h : e ∈ t.announced x) :
    (∃ ds, t.shape x = .ok (.declarationList e.1 ds) ∧ e.2 ∈ ds) ∨ e ∈ t.items x := by
  unfold announced at h
  split at h
  · rename_i kind ds hx
    obtain ⟨d, hd, rfl⟩ := List.mem_map.1 h
    exact .inl ⟨ds, hx, hd⟩
  · exact .inr h

/-- What is declared at a scope stands in lists inside it. -/
theorem Tree.Path.listedIn_of_opens (h : t.Path r opened x) (hx : t.OpensScope x)
    {e : BindingKind × NodeId} (he : e ∈ t.announced x) : t.ListedIn r (x :: opened) e := by
  rcases of_mem_announced he with ⟨ds, hlist, -⟩ | he
  · exact absurd hx (not_opensScope hlist id)
  · obtain ⟨v, hv, he⟩ := List.mem_flatMap.1 he
    obtain ⟨l, ds, hshape, hl, hd, hvl, -⟩ := of_mem_listed he
    have hpath := h.inner hx (of_mem_statements hv).2
    exact ⟨l, ds, hpath.beside (not_opensScope hshape id) hvl, hl, hd⟩

/-- What is declared at another node stands in the node itself. -/
theorem Tree.Path.listedIn_of_not_opens (h : t.Path r opened x) (hx : ¬t.OpensScope x)
    {e : BindingKind × NodeId} (he : e ∈ t.announced x) : t.ListedIn r opened e := by
  rcases of_mem_announced he with ⟨ds, hlist, hd⟩ | he
  · exact ⟨x, ds, h, hlist, hd⟩
  · exact absurd (of_mem_items he).1 hx

end

namespace Binding

/-! ## 2. Steps -/

/-- A moment of binding: the state, with the scopes that are open, the nodes that the
walk has come to and the declarations that it has met. -/
structure Moment where
  opened : List NodeId
  passed : List NodeId
  met : List (BindingKind × NodeId)
  binding : Binding

section

variable (t : Tree) (r : NodeId) (order : List NodeId)

/-- What binding does at a time, in a walk that comes to nodes in a given order. When it
comes to a node, all that the nodes before announce has been met. -/
inductive Step : Moment → Moment → Prop where
  /-- It passes by a node. -/
  | pass {opened passed after : List NodeId} {x : NodeId} {b : Binding}
    (path : t.Path r opened x) (next : order = passed ++ x :: after)
    (closed : ¬t.OpensScope x) (other : ∀ name, t.shape x ≠ .ok (.identifier name)) :
    Step ⟨opened, passed, passed.flatMap t.announced, b⟩
      ⟨opened, passed ++ [x], passed.flatMap t.announced, b⟩
  /-- It opens the scope of a node. -/
  | enter {opened passed after : List NodeId} {x : NodeId} {b : Binding}
    (path : t.Path r opened x) (next : order = passed ++ x :: after) (opens : t.OpensScope x) :
    Step ⟨opened, passed, passed.flatMap t.announced, b⟩
      ⟨x :: opened, passed ++ [x], passed.flatMap t.announced,
        { b with scopes := [] :: b.scopes }⟩
  /-- It looks up an identifier. -/
  | refer {opened passed after : List NodeId} {x : NodeId} {b : Binding} {name : String}
    (path : t.Path r opened x) (next : order = passed ++ x :: after)
    (identifier : t.shape x = .ok (.identifier name)) :
    Step ⟨opened, passed, passed.flatMap t.announced, b⟩
      ⟨opened, passed ++ [x], passed.flatMap t.announced, b.refer x name⟩
  /-- It declares an item. -/
  | declare {opened passed : List NodeId} {met : List (BindingKind × NodeId)} {b b' : Binding}
    {e : BindingKind × NodeId} (listed : t.ListedIn r opened e)
    (declares : Binding.declare t e.1 b e.2 = .ok b') :
    Step ⟨opened, passed, met, b⟩ ⟨opened, passed, met ++ [e], b'⟩
  /-- It closes the innermost scope. -/
  | leave {opened passed : List NodeId} {met : List (BindingKind × NodeId)} {x : NodeId}
    {b : Binding} : Step ⟨x :: opened, passed, met, b⟩ ⟨opened, passed, met, b.leave⟩

/-- A run of steps. -/
abbrev Run : Moment → Moment → Prop := ReflTransGen (Step t r order)

end

/-! ## 3. Walks are runs -/

section

variable (hc : ∀ g x, t.Holds g x → x.index < t.size)

include hc

theorem exists_declare {l : NodeId} {ds : List NodeId} {kind : BindingKind}
    (hl : t.shape l = .ok (.declarationList kind ds)) (hd : d ∈ ds) (b : Binding) :
    ∃ b', declare t kind b d = .ok b' := by
  by_cases hmem : d ∈ b.declared
  · exact ⟨b, declare_of_mem hmem⟩
  · have hholds : t.Holds l d := holds_of_shape hl (by simpa using hd)
    exact ⟨_, declare_of_not_mem hc (hc l d hholds) hmem⟩

/-- Declaring items is a run, one step for each. -/
theorem exists_run_items {items : List (BindingKind × NodeId)} :
    ∀ {met : List (BindingKind × NodeId)} {b : Binding}, (∀ e ∈ items, t.ListedIn r opened e) →
      ∃ b', declareItems t items b = .ok b' ∧
        Run t r order ⟨opened, passed, met, b⟩ ⟨opened, passed, met ++ items, b'⟩ := by
  induction items with
  | nil =>
    intro met b _
    rw [List.append_nil]
    exact ⟨b, rfl, .refl⟩
  | cons e items ih =>
    intro met b hitems
    obtain ⟨⟨l, ds, hpath, hl, hd⟩, hitems⟩ := List.forall_mem_cons.1 hitems
    obtain ⟨b₁, h₁⟩ := exists_declare hc hl hd b
    obtain ⟨b', h', hrun⟩ := @ih (met ++ [e]) b₁ hitems
    rw [List.append_assoc] at hrun
    exact ⟨b', declareItems_cons h₁ h', .head (.declare ⟨l, ds, hpath, hl, hd⟩ h₁) hrun⟩

/-- Declaring what a node announces is a run, after the step that comes to the node. -/
theorem exists_run_announced {items : List (BindingKind × NodeId)} {m : Moment}
    (hitems : t.announced x = items) (hlisted : ∀ e ∈ t.announced x, t.ListedIn r opened e)
    (hstep : Step t r order m ⟨opened, passed ++ [x], passed.flatMap t.announced, b⟩) :
    ∃ b', declareItems t items b = .ok b' ∧ Run t r order m
      ⟨opened, passed ++ [x], (passed ++ [x]).flatMap t.announced, b'⟩ := by
  subst hitems
  obtain ⟨b', h', hrun⟩ := exists_run_items hc hlisted
  refine ⟨b', h', .head hstep ?_⟩
  simpa using hrun

omit hc

/-- Where each node of a list is walked by a run, so is the whole list. -/
theorem exists_run_children {f : Binding → NodeId → Except Fault Binding}
    {P : NodeId → List NodeId → Prop} {ys : List NodeId} {parts : List (List NodeId)}
    (h : List.Forall₂ P ys parts)
    (hf : ∀ {y : NodeId} {part passed after : List NodeId} {b : Binding}, y ∈ ys → P y part →
      order = passed ++ part ++ after → ∃ b', f b y = .ok b' ∧
        Run t r order ⟨opened, passed, passed.flatMap t.announced, b⟩
          ⟨opened, passed ++ part, (passed ++ part).flatMap t.announced, b'⟩) :
    ∀ {passed after : List NodeId} {b : Binding}, order = passed ++ parts.flatten ++ after →
      ∃ b', ys.foldlM f b = .ok b' ∧
        Run t r order ⟨opened, passed, passed.flatMap t.announced, b⟩
          ⟨opened, passed ++ parts.flatten, (passed ++ parts.flatten).flatMap t.announced, b'⟩ := by
  induction h with
  | nil =>
    intro passed after b _
    rw [List.flatten_nil, List.append_nil]
    exact ⟨b, rfl, .refl⟩
  | @cons y part ys parts hy _ ih =>
    intro passed after b horder
    rw [List.flatten_cons] at horder ⊢
    obtain ⟨b₁, h₁, hrun₁⟩ := @hf y part passed (parts.flatten ++ after) b List.mem_cons_self hy
      (by simp [horder])
    obtain ⟨b', h', hrun'⟩ := @ih (fun hy => hf (List.mem_cons_of_mem y hy)) (passed ++ part) after
      b₁ (by simp [horder])
    rw [List.append_assoc] at hrun'
    exact ⟨b', foldlM_cons_eq_ok.2 ⟨b₁, h₁, h'⟩, hrun₁.trans hrun'⟩

/-- So is what a node holds, after the node itself. -/
theorem exists_run_below {f : Binding → NodeId → Except Fault Binding}
    {P : NodeId → List NodeId → Prop} {ys : List NodeId} {parts : List (List NodeId)}
    (h : List.Forall₂ P ys parts)
    (hf : ∀ {y : NodeId} {part passed after : List NodeId} {b : Binding}, y ∈ ys → P y part →
      order = passed ++ part ++ after → ∃ b', f b y = .ok b' ∧
        Run t r order ⟨opened, passed, passed.flatMap t.announced, b⟩
          ⟨opened, passed ++ part, (passed ++ part).flatMap t.announced, b'⟩)
    (horder : order = passed ++ x :: (parts.flatten ++ after)) :
    ∃ b', ys.foldlM f b = .ok b' ∧
      Run t r order ⟨opened, passed ++ [x], (passed ++ [x]).flatMap t.announced, b⟩
        ⟨opened, passed ++ x :: parts.flatten, (passed ++ x :: parts.flatten).flatMap t.announced,
          b'⟩ := by
  obtain ⟨b', h', hrun⟩ := exists_run_children (b := b) h hf
    (show order = passed ++ [x] ++ parts.flatten ++ after by simp [horder])
  rw [List.append_assoc, List.singleton_append] at hrun
  exact ⟨b', h', hrun⟩

include hc

/-- Binding a node and what is below it is a run, through the nodes that a walk comes to. -/
theorem exists_run {depth : Nat} : ∀ {x : NodeId} {opened passed after part : List NodeId}
    {b : Binding}, t.Path r opened x → t.preorderWithin depth x = .ok part →
    order = passed ++ part ++ after →
    ∃ b', visitWithin t depth b x = .ok b' ∧
      Run t r order ⟨opened, passed, passed.flatMap t.announced, b⟩
        ⟨opened, passed ++ part, (passed ++ part).flatMap t.announced, b'⟩ := by
  induction depth with
  | zero =>
    intro x opened passed after part b _ hpart _
    cases hpart
  | succ depth ih =>
    intro x opened passed after part b hpath hpart horder
    obtain ⟨n, parts, hn, hparts, rfl⟩ := preorderWithin_eq_ok.1 hpart
    have hshape := shape_of_get? hn
    have hnext : order = passed ++ x :: (parts.flatten ++ after) := by simp [horder]
    -- the children come after the node, in whatever scopes it leaves open for them
    have hchildren := fun {opened b} (hpaths : ∀ y ∈ n.shape.children, t.Path r opened y) =>
      exists_run_below (b := b) hparts (fun hy hpart => ih (hpaths _ hy) hpart) hnext
    have hbeside : ¬t.OpensScope x → ∀ y ∈ n.shape.children, t.Path r opened y :=
      fun hclosed y hy => hpath.beside hclosed ⟨n, hn, hy⟩
    cases hs : n.shape with
    | sourceFile ss | block ss =>
      rw [hs] at hshape hchildren
      have hopens : t.OpensScope x := ⟨_, hshape, trivial⟩
      have hitems : t.announced x = ss.flatMap t.listed := announced_of_scope hshape (by simp)
      obtain ⟨b₁, h₁, hrun₁⟩ := exists_run_announced hc hitems
        (fun _ => hpath.listedIn_of_opens hopens)
        (.enter (b := b) hpath hnext hopens)
      obtain ⟨b₂, h₂, hrun₂⟩ := hchildren (b := b₁) fun y hy => hpath.inner hopens ⟨n, hn, hs ▸ hy⟩
      have hstatements : ∀ v ∈ ss, v.index < t.size :=
        fun v hv => hc x v (holds_of_shape hshape (by simpa using hv))
      rw [← enter_eq hc b hstatements] at h₁
      simp only [Shape.children_sourceFile, Shape.children_block] at h₂
      exact ⟨b₂.leave, visit_scope hshape (by simp) h₁ h₂, .tail (hrun₁.trans hrun₂) .leave⟩
    | declarationList kind ds =>
      rw [hs] at hshape hchildren
      have hclosed : ¬t.OpensScope x := not_opensScope hshape id
      obtain ⟨b₁, h₁, hrun₁⟩ := exists_run_announced hc (announced_of_list hshape)
        (fun _ => hpath.listedIn_of_not_opens hclosed)
        (.pass (b := b) hpath hnext hclosed (by simp [hshape]))
      obtain ⟨b₂, h₂, hrun₂⟩ := hchildren (b := b₁) (hs ▸ hbeside hclosed)
      rw [← declareList_eq hshape] at h₁
      rw [Shape.children_declarationList] at h₂
      exact ⟨b₂, visit_list hshape h₁ h₂, hrun₁.trans hrun₂⟩
    | identifier name =>
      rw [hs] at hshape hparts
      obtain rfl := List.forall₂_nil_left_iff.1 hparts
      have hnil : t.announced x = [] := announced_eq_nil hshape (fun h => h) (by simp)
      refine ⟨b.refer x name, visit_identifier hshape, ?_⟩
      have hstep := Step.refer (b := b) hpath hnext hshape
      simpa [hnil] using ReflTransGen.single hstep
    | _ =>
      rw [hs] at hshape hchildren
      have hclosed : ¬t.OpensScope x := not_opensScope hshape id
      have hnil : t.announced x = [] := announced_eq_nil hshape (fun h => h) (by simp)
      obtain ⟨b₁, h₁, hrun₁⟩ := hchildren (b := b) (hs ▸ hbeside hclosed)
      have hstep := Step.pass (b := b) hpath hnext hclosed (by simp [hshape])
      refine ⟨b₁, ?_, .head hstep (by simpa [hnil] using hrun₁)⟩
      rw [visit_other hshape id (by simp) (by simp)]
      exact h₁

end

end Binding

/-- Binding a tree in which no node is below itself is a run from the root, and gives a
table. -/
theorem SymbolTable.exists_run (hacyclic : t.Acyclic)
    (hchildren : ∀ g x, t.Holds g x → x.index < t.size) (hr : t.root = some r)
    (hroot : r.index < t.size) :
    ∃ order b, t.preorder r = .ok order ∧ ofTree t = .ok b.table ∧
      Binding.Run t r order ⟨[], [], [], .start⟩ ⟨[], order, order.flatMap t.announced, b⟩ := by
  obtain ⟨order, horder⟩ := exists_preorderWithin hacyclic hchildren hroot
    (Nat.lt_succ_of_le (rank_le_size t r))
  have hnext : order = [] ++ order ++ [] := by simp
  obtain ⟨b, hb, hrun⟩ := Binding.exists_run (b := .start) hchildren .root horder hnext
  refine ⟨order, b, horder, ?_, hrun⟩
  rw [ofTree, hr]
  simp only
  rw [bind_of_ok _ (show Binding.start.visitWithin t t.depthLimit r = .ok b from hb)]
  rfl

end ScriptReduce
