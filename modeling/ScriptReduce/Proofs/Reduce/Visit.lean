/-
ScriptReduce.Proofs.Reduce.Visit: what a walk does below a node.

`Reduces` relates a term to what a run makes of it, where every evaluation is
made in one tree `t₀`. The walk itself evaluates in the tree as it is at each
moment; a `Guide` says that this makes no difference. It comes with an
invariant of trees that every step keeps and under which evaluations agree
with those in `t₀`.

`visit_held` is the theorem about walks. A walk at a held term leaves a term
in its place or nothing, changes nothing but the nodes of that term, and what
it leaves is what the term reduces to, as far as the guide goes. The induction
is on the depth of the walk; along the children of a node it is on the list of
those that are still to be visited, while the holder already has the others in
their new form.
-/
import ScriptReduce.Proofs.Reduce.Local
import ScriptReduce.Proofs.Tree.WellFormed

namespace ScriptReduce

open ScriptReduce.Tree

variable {st : Setting} {t t' t₀ : Tree}

/-! ## 1. What a term reduces to -/

/-- What a term at a place becomes, by evaluations in a tree. -/
inductive Reduces (st : Setting) (t : Tree) : Place → Term NodeId → Option (Term NodeId) → Prop where
  | folded {q : Place} {T : Term NodeId} {m : NodeId} {v : Value} {l : Literal}
    (folds : Folds st t q.isSite T.label v) (literal : v.toLiteral? = some l)
    (fresh : t.size ≤ m.index) : Reduces st t q T (some (.mk m (.literal l)))
  | selected {q : Place} {n : NodeId} {c a V : Term NodeId} {b U : Option (Term NodeId)}
    {v : Value} (decides : Decides st t n v) (chosen : chosen v a b = some V)
    (rest : Reduces st t q V U) : Reduces st t q (.mk n (.branch c a b)) U
  | dropped {q : Place} {n : NodeId} {c a : Term NodeId} {b : Option (Term NodeId)} {v : Value}
    (decides : Decides st t n v) (chosen : chosen v a b = none) (optional : q.isRequired = false) :
    Reduces st t q (.mk n (.branch c a b)) none
  | filled {q : Place} {n m : NodeId} {c a : Term NodeId} {b : Option (Term NodeId)} {v : Value}
    (decides : Decides st t n v) (chosen : chosen v a b = none) (required : q.isRequired = true)
    (fresh : t.size ≤ m.index) :
    Reduces st t q (.mk n (.branch c a b)) (some (.mk m .emptyStatement))
  /-- The node stays, with what its children become. -/
  | kept {q : Place} {n : NodeId} {s s' : Shape (Term NodeId)} {g : NodeId → Option (Term NodeId)}
    (stays : Stays st t q.isSite n) (below : ∀ e ∈ s.spots, Reduces st t e.1 e.2 (g e.2.label))
    (sieved : s.sieve (fun _ c => g c.label) = some s') :
    Reduces st t q (.mk n s) (some (.mk n s'))

/-- A position that has to be filled is not left empty. -/
theorem Reduces.isSome_of_required {q : Place} {T : Term NodeId} {U : Option (Term NodeId)}
    (h : Reduces st t q T U) (hq : q.isRequired = true) : U.isSome := by
  induction h with
  | selected _ _ _ ih => exact ih hq
  | dropped _ _ optional =>
    rw [hq] at optional
    cases optional
  | _ => rfl

/-! ## 2. Guides -/

/-- What makes evaluations during a run agree with those in the tree `t₀`: an
invariant that holds as long as all changes are safe. -/
structure Guide (st : Setting) (t₀ : Tree) where
  Inv : Tree → Prop
  Safe : Change → Prop
  step : ∀ {t t' : Tree} {change : Change}, Inv t → Safe change →
    (∀ holder, t.Linked holder change.node → Live t holder) → Step st t change t' → Inv t'
  folds : ∀ {t : Tree} {id p : NodeId} {site : Bool} {v : Value}, Inv t →
    t.parent id = .ok (some p) → (Folds st t site id v ↔ Folds st t₀ site id v)
  decides : ∀ {t : Tree} {id p : NodeId} {v : Value}, Inv t →
    t.parent id = .ok (some p) → (Decides st t id v ↔ Decides st t₀ id v)

namespace Guide

variable (g : Guide st t₀)

theorem stays {id p : NodeId} {site : Bool} (h : g.Inv t) (hp : t.parent id = .ok (some p)) :
    Stays st t site id ↔ Stays st t₀ site id := by
  simp only [Stays, g.folds h hp, g.decides h hp]

/-- No knowledge, about any tree. -/
def blind (st : Setting) (t₀ : Tree) : Guide st t₀ where
  Inv _ := False
  Safe _ := False
  step h := h.elim
  folds h := h.elim
  decides h := h.elim

end Guide

/-! ## 3. Visits -/

/-- What a part of a walk below a holder comes to. -/
structure Visited (p : NodeId) (region result : List NodeId) (news : List Change) (w w' : Walk) :
    Prop extends Local p region result news w.tree w'.tree where
  follows : w.context.Follows news w'.context
  changed : w'.changed = (w.changed || !news.isEmpty)

namespace Visited

variable {p k : NodeId} {R R' O O' : List NodeId} {news news' : List Change} {w w₁ w' : Walk}

theorem changed_append (h : w₁.changed = (w.changed || !news.isEmpty))
    (h' : w'.changed = (w₁.changed || !news'.isEmpty)) :
    w'.changed = (w.changed || !(news' ++ news).isEmpty) := by
  rw [h', h]
  cases news <;> cases news' <;> simp

theorem beside (h : Visited p R O news w w₁) (h' : Visited p R' O' news' w₁ w')
    (hlt : ∀ x ∈ R ++ R', x.index < w.tree.size) (hnodup : (p :: (R ++ R')).Nodup) :
    Visited p (R ++ R') (O ++ O') (news' ++ news) w w' where
  toLocal := h.toLocal.beside h'.toLocal hlt hnodup
  follows := h.follows.trans h'.follows
  changed := changed_append h.changed h'.changed

theorem andThen (h : Visited p R O news w w₁) (h' : Visited p O O' news' w₁ w')
    (hO : ∀ x ∈ O, x ∈ R) (hp : p ∉ R) : Visited p R O' (news' ++ news) w w' where
  toLocal := h.toLocal.andThen h'.toLocal hO hp
  follows := h.follows.trans h'.follows
  changed := changed_append h.changed h'.changed

theorem live (h : Visited p R O news w w') (hp : p.index < w.tree.size) (hl : Live w.tree p) :
    Live w'.tree p := by
  obtain ⟨n, hn⟩ := exists_get? hp
  obtain ⟨n', hn', hb, hparent, _⟩ := h.holder n hn
  exact hl.of_holder hn hn' hb hparent

end Visited

/-- Nothing happens to a leaf. -/
theorem visit_leaf {depth : Nat} {w w' : Walk} {id : NodeId} {n : Node}
    (hn : w.tree.get? id = some n) (hleaf : n.shape.IsLeaf)
    (h : Walk.visitWithin depth w id = .ok w') : w' = w := by
  cases depth with
  | zero => cases h
  | succ depth =>
    have hreduce : w.reduce id = .ok (.unchanged, w) := by
      rw [Walk.reduce, bind_of_ok _ (shape_of_get? hn)]
      rcases hleaf with ⟨l, hl⟩ | hl <;> rw [hl] <;> rfl
    rw [Walk.visitWithin, bind_of_ok _ hreduce] at h
    simp only at h
    rw [bind_of_ok _ (children_of_get? hn), hleaf.children] at h
    cases h
    rfl

/-- The course that a walk takes through terms that a node holds, with what it
leaves of them. It tells how the walk stands whenever a node is offered, and
every evaluation is made in the tree as it is then. -/
inductive Course : Walk → NodeId → List (Place × Term NodeId) → List (Place × Term NodeId) → Walk →
    Prop where
  | done {w : Walk} {p : NodeId} : Course w p [] [] w
  /-- The first term is left alone, and the walk goes through what it holds. -/
  | kept {w w₁ w₂ w' : Walk} {p : NodeId} {q : Place} {T : Term NodeId} {s' : Shape (Term NodeId)}
    {Ls Ls' : List (Place × Term NodeId)} {depth : Nat}
    (reduced : w.reduce T.label = .ok (.unchanged, w₁)) (shows : w₁.tree.Shows (some p) T)
    (below : Course w₁ T.label T.shape.spots s'.spots w₂) (bare : s'.bare = T.shape.bare)
    (visited : Walk.visitWithin depth w T.label = .ok w₂) (rest : Course w₂ p Ls Ls' w') :
    Course w p ((q, T) :: Ls) ((q, .mk T.label s') :: Ls') w'
  /-- The first term gives way to a leaf or to nothing. -/
  | turned {w w₁ w' : Walk} {p : NodeId} {q : Place} {T : Term NodeId} {U : Option (Term NodeId)}
    {r : Reduction} {Ls Ls' : List (Place × Term NodeId)} {depth : Nat}
    (shows : w.tree.Shows (some p) T) (reduced : w.reduce T.label = .ok (r, w₁))
    (turns : Turns w.context.setting w.tree q T U r)
    (leaf : ∀ V, U = some V → (V.shape.map Term.label).IsLeaf)
    (visited : Walk.visitWithin depth w T.label = .ok { w₁ with changed := true })
    (rest : Course { w₁ with changed := true } p Ls Ls' w') :
    Course w p ((q, T) :: Ls) (U.toList.map (q, ·) ++ Ls') w'
  /-- The first term gives way to one of its branches, and the walk goes on
  there. -/
  | selected {w w₁ w' : Walk} {p n : NodeId} {q : Place} {c a V : Term NodeId}
    {b : Option (Term NodeId)} {v : Value} {Ls Ls' : List (Place × Term NodeId)}
    (shows : w.tree.Shows (some p) (.mk n (.branch c a b)))
    (reduced : w.reduce n = .ok (.replaced V.label, w₁))
    (decides : Decides w.context.setting w.tree n v) (chosen : chosen v a b = some V)
    (onward : Course { w₁ with changed := true } p ((q, V) :: Ls) Ls' w') :
    Course w p ((q, .mk n (.branch c a b)) :: Ls) Ls' w'

/-- What a visit of a held term comes to: the term that is left in its place,
the changes that were made, how the walk goes on to further terms, and what the
guide knows about all this. -/
def Leaves (g : Guide st t₀) (p : NodeId) (pre post : List (Place × Term NodeId)) (q : Place)
    (T : Term NodeId) (w w' : Walk) : Prop :=
  ∃ U news, Held w'.tree p (pre ++ U.toList.map (q, ·) ++ post) ∧
    Visited p T.labels (resultOf U) news w w' ∧
    (∀ Ls Ls' w'', Course w' p Ls Ls' w'' →
      Course w p ((q, T) :: Ls) (U.toList.map (q, ·) ++ Ls') w'') ∧
    (g.Inv w.tree → Live w.tree p → (∀ change ∈ news, g.Safe change) →
      g.Inv w'.tree ∧ Reduces st t₀ q T U)

/-- What is left of the terms of a list. -/
def remaining (G : NodeId → Option (Term NodeId)) (Ls : List (Place × Term NodeId)) :
    List (Place × Term NodeId) :=
  Ls.filterMap fun e => (G e.2.label).map (e.1, ·)

theorem remaining_cons (G : NodeId → Option (Term NodeId)) (e : Place × Term NodeId)
    (Ls : List (Place × Term NodeId)) :
    remaining G (e :: Ls) = (G e.2.label).toList.map (e.1, ·) ++ remaining G Ls := by
  unfold remaining
  cases h : G e.2.label <;> simp [h]

theorem remaining_congr {G G' : NodeId → Option (Term NodeId)} {Ls : List (Place × Term NodeId)}
    (h : ∀ e ∈ Ls, G e.2.label = G' e.2.label) : remaining G Ls = remaining G' Ls :=
  List.filterMap_congr fun e he => by rw [h e he]

/-- Terms have different nodes, so one function can tell what became of each. -/
theorem exists_remaining {q : Place} {T : Term NodeId} {Ls : List (Place × Term NodeId)}
    (hne : ∀ e ∈ Ls, e.2.label ≠ T.label) (U : Option (Term NodeId))
    (G : NodeId → Option (Term NodeId)) :
    ∃ G', G' T.label = U ∧ (∀ e ∈ Ls, G' e.2.label = G e.2.label) ∧
      remaining G' ((q, T) :: Ls) = U.toList.map (q, ·) ++ remaining G Ls := by
  refine ⟨fun x => if x = T.label then U else G x, if_pos rfl, fun e he => if_neg (hne e he), ?_⟩
  rw [remaining_cons, remaining_congr fun e he => if_neg (hne e he), if_pos rfl]

variable {g : Guide st t₀}

/-- Visiting one term after another. The terms of `pre` were visited before. -/
theorem visitAll_held {f : Walk → NodeId → Except Fault Walk} {p : NodeId}
    (hf : ∀ {w w' : Walk} {pre post : List (Place × Term NodeId)} {q : Place} {T : Term NodeId},
      w.context.setting = st → t₀.size ≤ w.tree.size → Held w.tree p (pre ++ (q, T) :: post) →
      f w T.label = .ok w' → Leaves g p pre post q T w w') {Ls : List (Place × Term NodeId)} :
    ∀ {w w' : Walk} {pre : List (Place × Term NodeId)}, w.context.setting = st →
      t₀.size ≤ w.tree.size → Held w.tree p (pre ++ Ls) →
      (Ls.map fun e => e.2.label).foldlM f w = .ok w' →
      ∃ G news, Held w'.tree p (pre ++ remaining G Ls) ∧
        Visited p (labelsOf Ls) (labelsOf (remaining G Ls)) news w w' ∧
        Course w p Ls (remaining G Ls) w' ∧
        (g.Inv w.tree → Live w.tree p → (∀ change ∈ news, g.Safe change) →
          g.Inv w'.tree ∧ ∀ e ∈ Ls, Reduces st t₀ e.1 e.2 (G e.2.label)) := by
  induction Ls with
  | nil =>
    intro w w' pre _ _ h hv
    cases hv
    exact ⟨fun _ => none, [], h, ⟨.refl p _ _, .refl _, by simp⟩, .done,
      fun hinv _ _ => ⟨hinv, by simp⟩⟩
  | cons e Ls ih =>
    obtain ⟨q, T⟩ := e
    intro w w' pre hset hsize h hv
    obtain ⟨w₁, h₁, hv⟩ := foldlM_cons_eq_ok.1 hv
    obtain ⟨U, news, hheld, hvisited, hcourse, hguide⟩ := hf hset hsize h h₁
    obtain ⟨G, news', hheld', hvisited', hcourse', hguide'⟩ :=
      ih (hvisited.follows.setting.trans hset) (Nat.le_trans hsize hvisited.size) hheld hv
    have hne : ∀ e ∈ Ls, e.2.label ≠ T.label := by
      intro e he heq
      refine (h.not_mem_others T.label_mem_labels).2 ?_
      rw [labelsOf_append, ← heq]
      exact List.mem_append_right _ (mem_labelsOf.2 ⟨e, he, e.2.label_mem_labels⟩)
    obtain ⟨G', hhead, hrest, hremaining⟩ := exists_remaining (q := q) hne U G
    have hregion : ∀ x ∈ p :: (T.labels ++ labelsOf Ls),
        x ∈ p :: labelsOf (pre ++ (q, T) :: Ls) := by
      intro x hx
      rw [labelsOf_append, labelsOf_cons]
      rcases List.mem_cons.1 hx with rfl | hx
      · exact List.mem_cons_self
      · exact List.mem_cons_of_mem p (List.mem_append_right _ hx)
    have hnodup : (p :: (T.labels ++ labelsOf Ls)).Nodup := by
      have := h.nodup
      rw [labelsOf_append, labelsOf_cons, List.nodup_cons, List.nodup_append] at this
      refine List.nodup_cons.2 ⟨fun hp => this.1 (List.mem_append_right _ hp), this.2.2.1⟩
    refine ⟨G', news' ++ news, ?_, ?_, hremaining ▸ hcourse _ _ _ hcourse',
      fun hinv hlive hsafe => ?_⟩
    · rw [hremaining, ← List.append_assoc]
      exact hheld'
    · rw [hremaining, labelsOf_append, labelsOf_toList, labelsOf_cons]
      exact hvisited.beside hvisited'
        (fun x hx => h.lt_size x (hregion x (List.mem_cons_of_mem p hx))) hnodup
    · obtain ⟨hinv₁, hred⟩ := hguide hinv hlive fun change hchange =>
        hsafe change (List.mem_append_right news' hchange)
      have hlive₁ := hvisited.live (h.lt_size p List.mem_cons_self) hlive
      obtain ⟨hinv', hreds⟩ := hguide' hinv₁ hlive₁ fun change hchange =>
        hsafe change (List.mem_append_left news hchange)
      refine ⟨hinv', fun e he => ?_⟩
      rcases List.mem_cons.1 he with rfl | he
      · rw [hhead]
        exact hred
      · rw [hrest e he]
        exact hreds e he

/-- What remains of the children of a shape is a shape again, if it has the
same kind. -/
theorem sieve_of_remaining {s s' : Shape (Term NodeId)} {G : NodeId → Option (Term NodeId)}
    (hb : s'.bare = s.bare) (hs : s'.spots = remaining G s.spots)
    (hred : ∀ e ∈ s.spots, Reduces st t₀ e.1 e.2 (G e.2.label)) :
    s.sieve (fun _ c => G c.label) = some s' := by
  obtain ⟨s'', hsieve⟩ := Shape.exists_sieve (s := s) (f := fun _ c => G c.label)
    fun place c hc hreq => (hred (place, c) hc).isSome_of_required hreq
  obtain ⟨hb', hs'⟩ := Shape.spots_sieve hsieve
  have hchildren : s''.children = s'.children := by
    rw [← Shape.map_snd_spots s'', ← Shape.map_snd_spots s', hs, hs']
    rfl
  rw [hsieve, Shape.ext_bare (hb'.trans hb.symm) hchildren]

section

variable {p : NodeId} {pre post : List (Place × Term NodeId)} {q : Place} {T : Term NodeId}
  {w w₁ w' : Walk}

/-- Visiting the children of a node leaves a node of the same kind. -/
theorem visit_below {f : Walk → NodeId → Except Fault Walk}
    (hf : ∀ {w w' : Walk} {p : NodeId} {pre post : List (Place × Term NodeId)} {q : Place}
      {T : Term NodeId}, w.context.setting = st → t₀.size ≤ w.tree.size →
      Held w.tree p (pre ++ (q, T) :: post) → f w T.label = .ok w' → Leaves g p pre post q T w w')
    {parent : Option NodeId} (hset : w.context.setting = st) (hsize : t₀.size ≤ w.tree.size)
    (hT : w.tree.Shows parent T) (hnodup : T.labels.Nodup)
    (hv : (T.shape.children.map Term.label).foldlM f w = .ok w') :
    ∃ s' news, s'.bare = T.shape.bare ∧ w'.tree.Shows parent (.mk T.label s') ∧
      (Term.mk T.label s').labels.Nodup ∧
      Visited T.label (labelsOf T.shape.spots) (labelsOf s'.spots) news w w' ∧
      Course w T.label T.shape.spots s'.spots w' ∧
      (g.Inv w.tree → Live w.tree T.label → (∀ change ∈ news, g.Safe change) →
        g.Inv w'.tree ∧ ∀ q : Place, Stays st t₀ q.isSite T.label →
          Reduces st t₀ q T (some (.mk T.label s'))) := by
  have hall : Held w.tree T.label ([] ++ T.shape.spots) := Held.of_shows hT hnodup
  rw [← Shape.map_snd_spots, List.map_map] at hv
  obtain ⟨G, news, hheld, hvisited, hcourse, hguide⟩ :=
    visitAll_held (g := g) hf hset hsize hall hv
  rw [List.nil_append] at hheld
  obtain ⟨span, hget⟩ := hT.get?
  obtain ⟨n', hn', hbare, hparent, _⟩ := hvisited.holder _ hget
  obtain ⟨s', hspots, hmap⟩ := hheld.exists_shape hn'
  have hb : s'.bare = T.shape.bare := by
    rw [← Shape.bare_map Term.label s', hmap, hbare, Shape.bare_map]
  rw [← hspots] at hheld hvisited hcourse
  have hshows := hheld.shows_term hn' hmap
  rw [hparent] at hshows
  refine ⟨s', news, hb, hshows, hheld.nodup_term, hvisited, hcourse, fun hinv hlive hsafe => ?_⟩
  obtain ⟨hinv', hred⟩ := hguide hinv hlive hsafe
  refine ⟨hinv', fun q hstays => ?_⟩
  have hreduces : Reduces st t₀ q (.mk T.label T.shape) (some (.mk T.label s')) :=
    .kept hstays hred (sieve_of_remaining hb hspots hred)
  rwa [Term.eta] at hreduces

/-- A node that is left alone keeps its place, and its children are visited. -/
theorem visit_kept {f : Walk → NodeId → Except Fault Walk}
    (hf : ∀ {w w' : Walk} {p : NodeId} {pre post : List (Place × Term NodeId)} {q : Place}
      {T : Term NodeId}, w.context.setting = st → t₀.size ≤ w.tree.size →
      Held w.tree p (pre ++ (q, T) :: post) → f w T.label = .ok w' → Leaves g p pre post q T w w')
    (hset : w.context.setting = st) (hsize : t₀.size ≤ w.tree.size)
    (h : Held w.tree p (pre ++ (q, T) :: post)) (hstays : Stays st w.tree q.isSite T.label)
    (hreduced : w.reduce T.label = .ok (.unchanged, w₁)) (htree : w₁.tree = w.tree)
    (hchanged : w₁.changed = w.changed) (hfollows : w.context.Follows [] w₁.context)
    (hv : (T.shape.children.map Term.label).foldlM f w₁ = .ok w') {depth : Nat}
    (hvisit : Walk.visitWithin depth w T.label = .ok w') : Leaves g p pre post q T w w' := by
  have hT : w.tree.Shows (some p) T := h.shows (q, T) (by simp)
  have hnodup : T.labels.Nodup := h.nodup_labels (q := q) (by simp)
  obtain ⟨span, hget⟩ := hT.get?
  obtain ⟨s', news, hbare, hshows, hnodup', hvisited, hcourse, hguide⟩ :=
    visit_below (g := g) hf (hfollows.setting.trans hset) (htree ▸ hsize) (htree ▸ hT) hnodup hv
  have hlabels : T.labels = T.label :: labelsOf T.shape.spots := by
    rw [labelsOf_spots, ← Term.labels_eq]
  have hlabels' : (Term.mk T.label s').labels = T.label :: labelsOf s'.spots := by
    rw [labelsOf_spots, Term.labels_mk]
  have hp : p ∉ T.label :: labelsOf T.shape.spots := fun hp =>
    (h.not_mem_others (hlabels ▸ hp)).1 rfl
  have hbelow := hvisited.toLocal
  rw [htree] at hbelow
  have hlocal := hbelow.up (h.lt_size p List.mem_cons_self) hp (List.nodup_cons.1 (hlabels ▸ hnodup)).1
  rw [← hlabels, ← hlabels'] at hlocal
  have hfollows' : w.context.Follows news w'.context := by
    simpa using hfollows.trans hvisited.follows
  refine ⟨some (.mk T.label s'), news, ?_, ⟨hlocal, hfollows', hchanged ▸ hvisited.changed⟩,
    fun Ls Ls' w'' hrest => ?_, fun hinv hlive hsafe => ?_⟩
  · have := h.below_changed (fun x hx hxT => hbelow.frame x hx ?_ ?_) hshows rfl hnodup'
      hlocal.result_from
    · simpa using this
    · rintro rfl
      exact hxT T.label_mem_labels
    · exact fun hx => hxT (hlabels ▸ List.mem_cons_of_mem _ hx)
  · exact .kept hreduced (htree ▸ hT) hcourse hbare hvisit hrest
  · have hlive' : Live w.tree T.label := by
      intro n c a b hn _
      rw [hget] at hn
      cases hn
      simp
    rw [htree] at hguide
    obtain ⟨hinv', hred⟩ := hguide hinv hlive' hsafe
    exact ⟨hinv', hred q ((g.stays hinv (parent_of_get? hget)).1 hstays)⟩

variable {change : Change} {r : Reduction}

/-- A guide is kept by a safe step at a held term whose holder is live. -/
theorem Guide.step_held {t t' : Tree} (h : Held t p (pre ++ (q, T) :: post))
    (hstep : Step st t change t') (hnode : change.node = T.label) (hinv : g.Inv t)
    (hlive : Live t p) (hsafe : g.Safe change) : g.Inv t' := by
  refine g.step hinv hsafe (fun holder hl => ?_) hstep
  rw [hnode] at hl
  exact h.holder_eq hl ▸ hlive

/-- The walk ends at a term that has given way to a leaf, or to nothing. -/
theorem visit_turned {U : Option (Term NodeId)} (hset : w.context.setting = st)
    (h : Held w.tree p (pre ++ (q, T) :: post)) (hreduced : w.reduce T.label = .ok (r, w₁))
    (hstep : Step st w.tree change w₁.tree) (hnode : change.node = T.label)
    (hheld : Held w₁.tree p (pre ++ U.toList.map (q, ·) ++ post))
    (hvisited : Visited p T.labels (resultOf U) [change] w { w₁ with changed := true })
    (hturns : Turns st w.tree q T U r) (hleaf : ∀ V, U = some V → (V.shape.map Term.label).IsLeaf)
    (hred : g.Inv w.tree → Reduces st t₀ q T U) {depth : Nat}
    (hvisit : Walk.visitWithin depth w T.label = .ok { w₁ with changed := true }) :
    Leaves g p pre post q T w { w₁ with changed := true } := by
  have hshows : w.tree.Shows (some p) T := h.shows (q, T) (by simp)
  refine ⟨U, [change], hheld, hvisited, fun Ls Ls' w'' hrest => ?_, fun hinv hlive hsafe => ?_⟩
  · exact .turned hshows hreduced (hset ▸ hturns) hleaf hvisit hrest
  · exact ⟨g.step_held h hstep hnode hinv hlive (hsafe change (by simp)), hred hinv⟩

/-- The walk goes on at the branch that an `if` statement has given way to. -/
theorem visit_selected {n : NodeId} {c a V : Term NodeId} {b : Option (Term NodeId)} {v : Value}
    (hset : w.context.setting = st) (h : Held w.tree p (pre ++ (q, .mk n (.branch c a b)) :: post))
    (hreduced : w.reduce n = .ok (.replaced V.label, w₁)) (hstep : Step st w.tree change w₁.tree)
    (hnode : change.node = n)
    (hvisited : Visited p (Term.mk n (.branch c a b)).labels V.labels [change] w
      { w₁ with changed := true })
    (hdecides : Decides st w.tree n v) (hchosen : chosen v a b = some V)
    (hrest : Leaves g p pre post q V { w₁ with changed := true } w') :
    Leaves g p pre post q (.mk n (.branch c a b)) w w' := by
  have hshows : w.tree.Shows (some p) (.mk n (.branch c a b)) := h.shows (q, _) (by simp)
  obtain ⟨span, hget⟩ := hshows.get?
  have hV : ∀ x ∈ V.labels, x ∈ (Term.mk n (.branch c a b)).labels := fun x hx =>
    Term.mem_labels_of_child (Shape.mem_children_branch (chosen_mem hchosen)) hx
  obtain ⟨U, news, hheld', hvisited', hcourse', hguide'⟩ := hrest
  refine ⟨U, news ++ [change], hheld', hvisited.andThen hvisited' hV ?_,
    fun Ls Ls' w'' hrest => ?_, fun hinv hlive hsafe => ?_⟩
  · exact fun hp => (h.not_mem_others hp).1 rfl
  · exact .selected hshows hreduced (hset ▸ hdecides) hchosen (hcourse' Ls Ls' w'' hrest)
  · have hinv₁ := g.step_held h hstep hnode hinv hlive (hsafe change (by simp))
    have hlive₁ : Live w₁.tree p := hvisited.live (h.lt_size p List.mem_cons_self) hlive
    obtain ⟨hinv', hred⟩ := hguide' hinv₁ hlive₁ fun change' hchange' =>
      hsafe change' (List.mem_append_left _ hchange')
    exact ⟨hinv', .selected ((g.decides hinv (parent_of_get? hget)).1 hdecides) hchosen hred⟩

end

/-- A visit of a held term leaves what the term reduces to in its place. -/
theorem visit_held (g : Guide st t₀) {depth : Nat} : ∀ {w w' : Walk} {p : NodeId}
    {pre post : List (Place × Term NodeId)} {q : Place} {T : Term NodeId},
    w.context.setting = st → t₀.size ≤ w.tree.size → Held w.tree p (pre ++ (q, T) :: post) →
    Walk.visitWithin depth w T.label = .ok w' → Leaves g p pre post q T w w' := by
  induction depth with
  | zero =>
    intro w w' p pre post q T _ _ _ hv
    cases hv
  | succ depth ih =>
    intro w w' p pre post q T hset hsize h hv
    have hshows : w.tree.Shows (some p) T := h.shows (q, T) (by simp)
    obtain ⟨span, hget⟩ := hshows.get?
    have hvisit := hv
    rw [Walk.visitWithin] at hv
    obtain ⟨⟨r, w₁⟩, hr, hv⟩ := bind_eq_ok.1 hv
    cases Walk.reduce_cases (h.site (q := q) (by simp)) hr with
    | failed unlinked => exact absurd (h.linked (q := q) (by simp)) (unlinked p)
    | kept stays tree changed follows =>
      obtain ⟨cs, hcs, hv⟩ := bind_eq_ok.1 hv
      rw [tree, children_of_get? hget, Shape.children_map] at hcs
      cases hcs
      rw [hset] at stays
      exact visit_kept ih hset hsize h stays hr tree changed follows hv hvisit
    | @made _ change step node changed follows =>
      rw [hset] at step
      obtain ⟨U, hheld, hlocal, hturns⟩ := h.step step node
      have hparent : w.tree.parent T.label = .ok (some p) := parent_of_get? hget
      have hvisited : Visited p T.labels (resultOf U) [change] w { w₁ with changed := true } :=
        ⟨hlocal, follows, by simp⟩
      -- a visit of the leaf that has taken the place does nothing
      have hleaf : ∀ m s, U = some (.mk m s) → (s.map Term.label).IsLeaf →
          Walk.visitWithin depth { w₁ with changed := true } m = .ok w' →
          w' = { w₁ with changed := true } := by
        rintro m s rfl hs hv
        obtain ⟨_, hget⟩ := (hheld.shows (q, .mk m s) (by simp)).get?
        exact visit_leaf hget hs hv
      generalize change.reduction = r at hv hr hturns
      have hended := visit_turned (g := g) hset h hr step node hheld hvisited hturns
      cases hturns with
      | @folded _ m v l folds literal fresh =>
        have hl : ((Shape.literal l : Shape (Term NodeId)).map Term.label).IsLeaf := Or.inl ⟨l, rfl⟩
        obtain rfl := hleaf m _ rfl hl hv
        refine hended (fun V hV => by cases hV; exact hl) (fun hinv => ?_) hvisit
        exact .folded ((g.folds hinv hparent).1 folds) literal (Nat.le_trans hsize fresh)
      | dropped decides chosen optional =>
        cases hv
        refine hended (by simp) (fun hinv => ?_) hvisit
        exact .dropped ((g.decides hinv hparent).1 decides) chosen optional
      | @filled _ m _ _ _ _ decides chosen required fresh =>
        have hl : ((Shape.emptyStatement : Shape (Term NodeId)).map Term.label).IsLeaf := Or.inr rfl
        obtain rfl := hleaf m _ rfl hl hv
        refine hended (fun V hV => by cases hV; exact hl) (fun hinv => ?_) hvisit
        exact .filled ((g.decides hinv hparent).1 decides) chosen required
          (Nat.le_trans hsize fresh)
      | @selected n c a V b v decides chosen =>
        have hheld₁ : Held w₁.tree p (pre ++ (q, V) :: post) := by simpa using hheld
        refine visit_selected hset h hr step node hvisited decides chosen ?_
        exact @ih { w₁ with changed := true } w' p pre post q V (follows.setting.trans hset)
          (Nat.le_trans hsize hlocal.size) hheld₁ hv

end ScriptReduce
