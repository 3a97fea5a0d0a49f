/-
ScriptReduce.Proofs.Tree.Term: terms, and the terms that a tree shows.

`Term.fold` is recursion over terms, and `Term.induct` the induction that goes
with it: both see the children of a node through its shape. `Shows` relates a
tree to the term below one of its nodes. It says what every node of the term
is in the tree, its parent link included, so it holds exactly where the tree
hangs together, and it only depends on the nodes of the term (`Shows.congr`).
A term that is shown and has no node twice is what the tree's own reader
gives (`Shows.term_eq`). `Presents` says this of the root.
-/
import ScriptReduce.Proofs.Tree.Edit
import ScriptReduce.Tree.Term
import Mathlib.Data.List.FinRange
import Mathlib.Data.Fintype.Card

namespace ScriptReduce

/-! ## 1. Recursion and induction -/

namespace Term

variable {ι κ β : Type}

mutual

/-- Combines a term from its leaves upwards. -/
def fold (f : ι → Shape β → β) : Term ι → β
  | .mk n s => f n (foldShape f s)

def foldShape (f : ι → Shape β → β) : Shape (Term ι) → Shape β
  | .sourceFile statements => .sourceFile (foldList f statements)
  | .literal l => .literal l
  | .identifier name => .identifier name
  | .unary op operand => .unary op (fold f operand)
  | .binary left op right => .binary (fold f left) op (fold f right)
  | .call callee arguments => .call (fold f callee) (foldList f arguments)
  | .branch condition whenTrue whenFalse =>
    .branch (fold f condition) (fold f whenTrue) (foldOption f whenFalse)
  | .block statements => .block (foldList f statements)
  | .expressionStatement expression => .expressionStatement (fold f expression)
  | .variableStatement declarations => .variableStatement (fold f declarations)
  | .declarationList kind declarations => .declarationList kind (foldList f declarations)
  | .declaration name initializer => .declaration (fold f name) (foldOption f initializer)
  | .emptyStatement => .emptyStatement
  | .other label children => .other label (foldList f children)

def foldList (f : ι → Shape β → β) : List (Term ι) → List β
  | [] => []
  | c :: cs => fold f c :: foldList f cs

def foldOption (f : ι → Shape β → β) : Option (Term ι) → Option β
  | none => none
  | some c => some (fold f c)

end

theorem foldList_eq_map (f : ι → Shape β → β) : ∀ cs : List (Term ι),
    foldList f cs = cs.map (fold f)
  | [] => rfl
  | c :: cs => by rw [foldList, foldList_eq_map f cs, List.map_cons]

theorem foldOption_eq_map (f : ι → Shape β → β) : ∀ o : Option (Term ι),
    foldOption f o = o.map (fold f)
  | none => rfl
  | some _ => rfl

theorem foldShape_eq_map (f : ι → Shape β → β) (s : Shape (Term ι)) :
    foldShape f s = s.map (fold f) := by
  cases s <;> simp [foldShape, Shape.map, foldList_eq_map, foldOption_eq_map]

theorem fold_mk (f : ι → Shape β → β) (n : ι) (s : Shape (Term ι)) :
    fold f (.mk n s) = f n (s.map (fold f)) := by
  rw [fold, foldShape_eq_map]

section

variable {motive : Term ι → Prop}

mutual

/-- What holds of a node whenever it holds of its children, holds of every
term. -/
theorem induct (h : ∀ n s, (∀ c ∈ s.children, motive c) → motive (.mk n s)) :
    ∀ T, motive T
  | .mk n s => h n s (inductShape h s)

theorem inductShape (h : ∀ n s, (∀ c ∈ s.children, motive c) → motive (.mk n s)) :
    ∀ (s : Shape (Term ι)), ∀ c ∈ s.children, motive c
  | .sourceFile cs | .block cs | .declarationList _ cs | .other _ cs => by
    simpa using inductList h cs
  | .literal _ | .identifier _ | .emptyStatement => by simp
  | .unary _ a | .expressionStatement a | .variableStatement a => by
    simpa using induct h a
  | .binary a _ b => by simpa using ⟨induct h a, induct h b⟩
  | .call a cs => by simpa using ⟨induct h a, inductList h cs⟩
  | .branch a b o => by simpa using ⟨induct h a, induct h b, inductOption h o⟩
  | .declaration a o => by simpa using ⟨induct h a, inductOption h o⟩

theorem inductList (h : ∀ n s, (∀ c ∈ s.children, motive c) → motive (.mk n s)) :
    ∀ (cs : List (Term ι)), ∀ c ∈ cs, motive c
  | [] => by simp
  | c :: cs => by simpa using ⟨induct h c, inductList h cs⟩

theorem inductOption (h : ∀ n s, (∀ c ∈ s.children, motive c) → motive (.mk n s)) :
    ∀ (o : Option (Term ι)), ∀ c, o = some c → motive c
  | none => by simp
  | some c => by simpa using induct h c

end

end

/-! ## 2. Labels -/

/-- The labels of a term, each node before its children. -/
def labels : Term ι → List ι := fold fun n s => n :: s.children.flatten

/-- The term with each label changed. -/
def relabel (f : ι → κ) : Term ι → Term κ := fold fun n s => .mk (f n) s

@[simp] theorem label_mk (n : ι) (s : Shape (Term ι)) : (mk n s).label = n := rfl

@[simp] theorem shape_mk (n : ι) (s : Shape (Term ι)) : (mk n s).shape = s := rfl

@[simp] theorem labels_mk (n : ι) (s : Shape (Term ι)) :
    (mk n s).labels = n :: s.children.flatMap labels := by
  rw [labels, fold_mk, Shape.children_map, List.flatMap]

@[simp] theorem relabel_mk (f : ι → κ) (n : ι) (s : Shape (Term ι)) :
    (mk n s).relabel f = .mk (f n) (s.map (relabel f)) := by
  rw [relabel, fold_mk]

theorem eta (T : Term ι) : .mk T.label T.shape = T := by
  cases T
  rfl

theorem labels_eq (T : Term ι) : T.labels = T.label :: T.shape.children.flatMap labels := by
  rw [← labels_mk, eta]

theorem label_mem_labels (T : Term ι) : T.label ∈ T.labels := by
  rw [labels_eq]
  exact List.mem_cons_self

theorem mem_labels_of_child {T c : Term ι} (hc : c ∈ T.shape.children) {x : ι}
    (hx : x ∈ c.labels) : x ∈ T.labels := by
  rw [labels_eq]
  exact List.mem_cons_of_mem _ (List.mem_flatMap.2 ⟨c, hc, hx⟩)

/-- Where no label occurs twice, the children of a node have different labels. -/
theorem nodup_children {T : Term ι} (h : T.labels.Nodup) :
    (T.shape.children.map label).Nodup := by
  rw [labels_eq, List.nodup_cons, List.nodup_flatMap] at h
  refine List.pairwise_map.2 (h.2.2.imp ?_)
  intro c c' hdisj heq
  exact hdisj c.label_mem_labels (heq ▸ c'.label_mem_labels)

end Term

/-! ## 3. Terms in a tree -/

namespace Tree

variable {t t' : Tree} {p : Option NodeId} {T : Term NodeId}

/-- A tree shows a term below a node with a given parent link: each node of
the term is in the tree with its shape, and its children link back to it. -/
inductive Shows (t : Tree) : Option NodeId → Term NodeId → Prop where
  | mk {p : Option NodeId} {n : NodeId} {s : Shape (Term NodeId)} {span : Option Span}
    (node : t.get? n = some ⟨s.map Term.label, p, span⟩)
    (below : ∀ c ∈ s.children, Shows t (some n) c) : Shows t p (.mk n s)

namespace Shows

theorem get? (h : t.Shows p T) :
    ∃ span, t.get? T.label = some ⟨T.shape.map Term.label, p, span⟩ := by
  cases h with
  | mk node _ => exact ⟨_, node⟩

theorem child (h : t.Shows p T) {c : Term NodeId} (hc : c ∈ T.shape.children) :
    t.Shows (some T.label) c := by
  cases h with
  | mk _ below => exact below c hc

/-- What a tree shows depends on the nodes of the term only. -/
theorem congr (h : t.Shows p T) (heq : ∀ x ∈ T.labels, t'.get? x = t.get? x) : t'.Shows p T := by
  induction h with
  | @mk p n s span node _ ih =>
    have hnode : t'.get? n = some ⟨s.map Term.label, p, span⟩ := by
      rw [← node]
      exact heq n (Term.label_mem_labels (.mk n s))
    exact .mk hnode fun c hc => ih c hc fun x hx =>
      heq x (Term.mem_labels_of_child (T := .mk n s) hc hx)

/-- The same, for a topmost node that gets another parent. -/
theorem congr_top (h : t.Shows p T) {p' : Option NodeId}
    (htop : ∀ n, t.get? T.label = some n → ∃ span, t'.get? T.label = some ⟨n.shape, p', span⟩)
    (heq : ∀ c ∈ T.shape.children, ∀ x ∈ c.labels, t'.get? x = t.get? x) : t'.Shows p' T := by
  cases h with
  | mk node below =>
    obtain ⟨span, hspan⟩ := htop _ node
    exact .mk hspan fun c hc => (below c hc).congr (heq c hc)

theorem lt_size (h : t.Shows p T) : ∀ x ∈ T.labels, x.index < t.size := by
  induction h with
  | mk node _ ih =>
    intro x hx
    rw [Term.labels_mk] at hx
    rcases List.mem_cons.1 hx with rfl | hx
    · exact lt_size_of_get? node
    · obtain ⟨c, hc, hx⟩ := List.mem_flatMap.1 hx
      exact ih c hc x hx

end Shows

end Tree

/-! ## 4. Reading out -/

namespace Shape

variable {ε α β γ : Type} {f : α → Except ε β} {l : γ → α} {g : γ → β}

theorem mapM_map_ok : ∀ {cs : List γ}, (∀ c ∈ cs, f (l c) = .ok (g c)) →
    (cs.map l).mapM f = .ok (cs.map g)
  | [], _ => rfl
  | c :: cs, h => by
    rw [List.map_cons, List.mapM_cons, bind_of_ok _ (h c List.mem_cons_self),
      bind_of_ok _ (mapM_map_ok fun d hd => h d (List.mem_cons_of_mem c hd))]
    rfl

theorem option_mapM_map_ok {o : Option γ} (h : ∀ c, o = some c → f (l c) = .ok (g c)) :
    (o.map l).mapM f = .ok (o.map g) := by
  cases o with
  | none => rfl
  | some c =>
    show (do let b ← f (l c); pure (some b)) = _
    rw [bind_of_ok _ (h c rfl)]
    rfl

/-- Doing something at each child succeeds if it succeeds at every one. -/
theorem traverse_map_ok {s : Shape γ} (h : ∀ c ∈ s.children, f (l c) = .ok (g c)) :
    (s.map l).traverse f = .ok (s.map g) := by
  cases s with
  | sourceFile cs | block cs | declarationList _ cs | other _ cs =>
    rw [map, traverse, bind_of_ok _ (mapM_map_ok (by simpa using h))]
    rfl
  | literal _ | identifier _ | emptyStatement => rfl
  | unary _ a | expressionStatement a | variableStatement a =>
    rw [map, traverse, bind_of_ok _ (h a (by simp))]
    rfl
  | binary a _ b =>
    rw [map, traverse, bind_of_ok _ (h a (by simp)), bind_of_ok _ (h b (by simp))]
    rfl
  | call a cs =>
    rw [map, traverse, bind_of_ok _ (h a (by simp)),
      bind_of_ok _ (mapM_map_ok fun c hc => h c (by simp [hc]))]
    rfl
  | branch a b o =>
    rw [map, traverse, bind_of_ok _ (h a (by simp)), bind_of_ok _ (h b (by simp)),
      bind_of_ok _ (option_mapM_map_ok fun c hc => h c (by simp [hc]))]
    rfl
  | declaration a o =>
    rw [map, traverse, bind_of_ok _ (h a (by simp)),
      bind_of_ok _ (option_mapM_map_ok fun c hc => h c (by simp [hc]))]
    rfl

end Shape

namespace Tree

variable {t : Tree} {p : Option NodeId} {T : Term NodeId}

/-- A list of different nodes of a tree is no longer than the tree. -/
theorem length_le_size {ids : List NodeId} (hnodup : ids.Nodup)
    (hlt : ∀ x ∈ ids, x.index < t.size) : ids.length ≤ t.size := by
  have hinj : (ids.map Id.index).Nodup :=
    hnodup.map fun _ _ h => Id.ext_index h
  have hsub : ids.map Id.index ⊆ List.range t.size := by
    intro i hi
    obtain ⟨x, hx, rfl⟩ := List.mem_map.1 hi
    exact List.mem_range.2 (hlt x hx)
  simpa using (hinj.subperm hsub).length_le

theorem Shows.termWithin_eq (h : t.Shows p T) : ∀ {depth : Nat}, T.labels.length ≤ depth →
    t.termWithin depth T.label = .ok T := by
  induction h with
  | @mk p n s span node _ ih =>
    intro depth hdepth
    rw [Term.labels_mk, List.length_cons] at hdepth
    cases depth with
    | zero => omega
    | succ depth =>
      have hbelow : ∀ c ∈ s.children, t.termWithin depth c.label = .ok (id c) := by
        intro c hc
        have := (List.sublist_flatten_of_mem (List.mem_map_of_mem (f := Term.labels) hc)).length_le
        refine ih c hc ?_
        rw [List.flatMap] at hdepth
        omega
      rw [Term.label_mk, termWithin, bind_of_ok _ (shape_of_get? node),
        bind_of_ok _ (Shape.traverse_map_ok hbelow), Shape.map_id]
      rfl

theorem Shows.preorderWithin_eq (h : t.Shows p T) : ∀ {depth : Nat}, T.labels.length ≤ depth →
    t.preorderWithin depth T.label = .ok T.labels := by
  induction h with
  | @mk p n s span node _ ih =>
    intro depth hdepth
    rw [Term.labels_mk, List.length_cons] at hdepth
    cases depth with
    | zero => omega
    | succ depth =>
      have hbelow : ∀ c ∈ s.children, t.preorderWithin depth c.label = .ok c.labels := by
        intro c hc
        have := (List.sublist_flatten_of_mem (List.mem_map_of_mem (f := Term.labels) hc)).length_le
        refine ih c hc ?_
        rw [List.flatMap] at hdepth
        omega
      rw [Term.label_mk, preorderWithin, bind_of_ok _ (children_of_get? node), Shape.children_map,
        bind_of_ok _ (Shape.mapM_map_ok hbelow), Term.labels_mk]
      rfl

/-- The term that a tree shows is the one that is read out, if it has no node
twice. -/
theorem Shows.term_eq (h : t.Shows p T) (hnodup : T.labels.Nodup) : t.term T.label = .ok T :=
  h.termWithin_eq (Nat.le_succ_of_le (length_le_size hnodup h.lt_size))

/-- Its labels are the nodes in the order in which a walk comes to them. -/
theorem Shows.preorder_eq (h : t.Shows p T) (hnodup : T.labels.Nodup) :
    t.preorder T.label = .ok T.labels :=
  h.preorderWithin_eq (Nat.le_succ_of_le (length_le_size hnodup h.lt_size))

/-! ## 5. The term of a whole tree -/

/-- A tree presents a term: at its root it shows a source file without a node
twice. -/
structure Presents (t : Tree) (p : Option NodeId) (T : Term NodeId) : Prop where
  root : t.root = some T.label
  file : T.shape.bare = .sourceFile []
  shows : t.Shows p T
  nodup : T.labels.Nodup

theorem Presents.term_eq (h : t.Presents p T) : t.term T.label = .ok T :=
  h.shows.term_eq h.nodup

end Tree

end ScriptReduce
