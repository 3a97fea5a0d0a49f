/-
ScriptReduce.Proofs.Reduce.Local: changes that stay below one node.

`Local` bounds what a part of a walk does to a tree. It works below one
holder, on nodes of a region, and leaves there what is listed as its result:
all other nodes stay as they are, the holder keeps its kind and its parent,
and each node that gave way is out of the result and has no parent. Such parts
can be put next to each other (`Local.beside`), one after another
(`Local.andThen`), and one level up (`Local.up`).

`Held.step` shows this of a single step, together with the term that takes the
place of the old one (`Turns`). The journal misses nothing: a node that loses
its parent is one that gave way (`Tree.DetachesOnly`).
-/
import ScriptReduce.Proofs.Reduce.Held

namespace ScriptReduce

open ScriptReduce.Tree

/-! ## 1. Local changes -/

/-- Whatever has a parent keeps having one, but for the nodes that gave way. -/
def Tree.DetachesOnly (news : List Change) (t t' : Tree) : Prop :=
  ∀ x n, t.get? x = some n → n.parent ≠ none →
    (∃ change ∈ news, change.node = x) ∨ ∃ n', t'.get? x = some n' ∧ n'.parent ≠ none

namespace Tree.DetachesOnly

variable {news news' : List Change} {t t₁ t' : Tree}

theorem refl (t : Tree) : DetachesOnly [] t t := fun _ n hn hp => Or.inr ⟨n, hn, hp⟩

theorem trans (h : DetachesOnly news t t₁) (h' : DetachesOnly news' t₁ t') :
    DetachesOnly (news' ++ news) t t' := by
  intro x n hn hp
  rcases h x n hn hp with ⟨change, hchange, heq⟩ | ⟨n₁, hn₁, hp₁⟩
  · exact Or.inl ⟨change, List.mem_append_right news' hchange, heq⟩
  · exact (h' x n₁ hn₁ hp₁).imp_left fun ⟨change, hchange, heq⟩ =>
      ⟨change, List.mem_append_left news hchange, heq⟩

end Tree.DetachesOnly

/-- What happened between two trees happened below a holder, to the nodes of a
region. -/
structure Local (p : NodeId) (region result : List NodeId) (news : List Change) (t t' : Tree) :
    Prop where
  root : t'.root = t.root
  size : t.size ≤ t'.size
  holder : ∀ n, t.get? p = some n → ∃ n', t'.get? p = some n' ∧ n'.shape.bare = n.shape.bare ∧
    n'.parent = n.parent ∧ n'.span = n.span
  frame : ∀ x, x.index < t.size → x ≠ p → x ∉ region → t'.get? x = t.get? x
  result_from : ∀ x ∈ result, x ∈ region ∨ t.size ≤ x.index
  gone : ∀ change ∈ news, change.node ∈ region ∧ change.node ∉ result ∧
    ∃ n, t'.get? change.node = some n ∧ n.parent = none
  detaches : DetachesOnly news t t'

namespace Local

variable {p k : NodeId} {R R' O O' : List NodeId} {news news' : List Change} {t t₁ t' : Tree}

theorem refl (p : NodeId) (R : List NodeId) (t : Tree) : Local p R R [] t t where
  root := rfl
  size := Nat.le_refl _
  holder n hn := ⟨n, hn, rfl, rfl, rfl⟩
  frame _ _ _ _ := rfl
  result_from _ hx := Or.inl hx
  gone _ h := by cases h
  detaches := .refl t

theorem holder_trans (h : Local p R O news t t₁) (h' : Local p R' O' news' t₁ t') {n : Node}
    (hn : t.get? p = some n) : ∃ n', t'.get? p = some n' ∧ n'.shape.bare = n.shape.bare ∧
      n'.parent = n.parent ∧ n'.span = n.span := by
  obtain ⟨n₁, hn₁, hb, hp, hs⟩ := h.holder n hn
  obtain ⟨n', hn', hb', hp', hs'⟩ := h'.holder n₁ hn₁
  exact ⟨n', hn', hb'.trans hb, hp'.trans hp, hs'.trans hs⟩

/-- Two changes in regions apart from each other. -/
theorem beside (h : Local p R O news t t₁) (h' : Local p R' O' news' t₁ t')
    (hlt : ∀ x ∈ R ++ R', x.index < t.size) (hnodup : (p :: (R ++ R')).Nodup) :
    Local p (R ++ R') (O ++ O') (news' ++ news) t t' where
  root := h'.root.trans h.root
  size := Nat.le_trans h.size h'.size
  holder _ hn := h.holder_trans h' hn
  frame x hx hp hR := by
    rw [List.mem_append, not_or] at hR
    rw [h'.frame x (Nat.lt_of_lt_of_le hx h.size) hp hR.2, h.frame x hx hp hR.1]
  result_from x hx := by
    rcases List.mem_append.1 hx with hx | hx
    · exact (h.result_from x hx).imp_left (List.mem_append_left R')
    · refine (h'.result_from x hx).imp (List.mem_append_right R) fun hx => ?_
      exact Nat.le_trans h.size hx
  gone change hchange := by
    obtain ⟨hp, hapart⟩ := List.nodup_cons.1 hnodup
    have hdisj : ∀ x, x ∈ R → x ∉ R' := fun x hx hx' =>
      (List.nodup_append.1 hapart).2.2 x hx x hx' rfl
    rcases List.mem_append.1 hchange with hchange | hchange
    · obtain ⟨hR', hO', hparent⟩ := h'.gone change hchange
      have hin : change.node ∈ R ++ R' := List.mem_append_right R hR'
      refine ⟨hin, ?_, hparent⟩
      rw [List.mem_append, not_or]
      refine ⟨fun hO => ?_, hO'⟩
      rcases h.result_from _ hO with hR | hsize
      · exact hdisj _ hR hR'
      · exact absurd (hlt _ hin) (by omega)
    · obtain ⟨hR, hO, n, hn, hparent⟩ := h.gone change hchange
      have hin : change.node ∈ R ++ R' := List.mem_append_left R' hR
      have hsize : change.node.index < t₁.size := lt_size_of_get? hn
      refine ⟨hin, ?_, n, ?_, hparent⟩
      · rw [List.mem_append, not_or]
        refine ⟨hO, fun hO' => ?_⟩
        rcases h'.result_from _ hO' with hR' | hle
        · exact hdisj _ hR hR'
        · omega
      · rw [h'.frame _ hsize (by rintro rfl; exact hp hin) (hdisj _ hR), hn]
  detaches := h.detaches.trans h'.detaches

/-- A change that goes on with what is left of the region. -/
theorem andThen (h : Local p R O news t t₁) (h' : Local p O O' news' t₁ t')
    (hO : ∀ x ∈ O, x ∈ R) (hp : p ∉ R) : Local p R O' (news' ++ news) t t' where
  root := h'.root.trans h.root
  size := Nat.le_trans h.size h'.size
  holder _ hn := h.holder_trans h' hn
  frame x hx hp hR := by
    rw [h'.frame x (Nat.lt_of_lt_of_le hx h.size) hp fun hx => hR (hO x hx), h.frame x hx hp hR]
  result_from x hx := (h'.result_from x hx).imp (hO x) (Nat.le_trans h.size)
  gone change hchange := by
    rcases List.mem_append.1 hchange with hchange | hchange
    · obtain ⟨hin, hout, hparent⟩ := h'.gone change hchange
      exact ⟨hO _ hin, hout, hparent⟩
    · obtain ⟨hin, hout, n, hn, hparent⟩ := h.gone change hchange
      have hsize : change.node.index < t₁.size := lt_size_of_get? hn
      refine ⟨hin, fun hO' => ?_, n, ?_, hparent⟩
      · rcases h'.result_from _ hO' with hmem | hle
        · exact hout hmem
        · omega
      · rw [h'.frame _ hsize (by rintro rfl; exact hp hin) hout, hn]
  detaches := h.detaches.trans h'.detaches

/-- A change below a node is a change below what holds the node. -/
theorem up (h : Local k R O news t t') (hp : p.index < t.size) (hpR : p ∉ k :: R) (hkR : k ∉ R) :
    Local p (k :: R) (k :: O) news t t' where
  root := h.root
  size := h.size
  holder n hn := by
    rw [List.mem_cons, not_or] at hpR
    exact ⟨n, (h.frame p hp hpR.1 hpR.2).trans hn, rfl, rfl, rfl⟩
  frame x hx _ hR := by
    rw [List.mem_cons, not_or] at hR
    exact h.frame x hx hR.1 hR.2
  result_from x hx := by
    rcases List.mem_cons.1 hx with rfl | hx
    · exact Or.inl List.mem_cons_self
    · exact (h.result_from x hx).imp_left (List.mem_cons_of_mem k)
  gone change hchange := by
    obtain ⟨hin, hout, hparent⟩ := h.gone change hchange
    refine ⟨List.mem_cons_of_mem k hin, ?_, hparent⟩
    rw [List.mem_cons, not_or]
    exact ⟨by rintro heq; exact hkR (heq ▸ hin), hout⟩
  detaches := h.detaches

end Local

/-! ## 2. Single steps -/

/-- What takes the place of a term in one step, and how the walk goes on. The
evaluations are made in a tree `t`. -/
inductive Turns (st : Setting) (t : Tree) (q : Place) :
    Term NodeId → Option (Term NodeId) → Reduction → Prop where
  | folded {T : Term NodeId} {m : NodeId} {v : Value} {l : Literal}
    (folds : Folds st t q.isSite T.label v) (literal : v.toLiteral? = some l)
    (fresh : t.size ≤ m.index) : Turns st t q T (some (.mk m (.literal l))) (.replaced m)
  | selected {n : NodeId} {c a V : Term NodeId} {b : Option (Term NodeId)} {v : Value}
    (decides : Decides st t n v) (chosen : chosen v a b = some V) :
    Turns st t q (.mk n (.branch c a b)) (some V) (.replaced V.label)
  | dropped {n : NodeId} {c a : Term NodeId} {b : Option (Term NodeId)} {v : Value}
    (decides : Decides st t n v) (chosen : chosen v a b = none) (optional : q.isRequired = false) :
    Turns st t q (.mk n (.branch c a b)) none .removed
  | filled {n m : NodeId} {c a : Term NodeId} {b : Option (Term NodeId)} {v : Value}
    (decides : Decides st t n v) (chosen : chosen v a b = none) (required : q.isRequired = true)
    (fresh : t.size ≤ m.index) :
    Turns st t q (.mk n (.branch c a b)) (some (.mk m .emptyStatement)) (.replaced m)

/-- The labels of a term that may be missing. -/
def resultOf (U : Option (Term NodeId)) : List NodeId := U.elim [] Term.labels

variable {st : Setting} {t t' u : Tree} {p : NodeId} {pre post : List (Place × Term NodeId)}
  {q : Place} {T : Term NodeId} {U : Option (Term NodeId)} {change : Change}

theorem labelsOf_toList (q : Place) (U : Option (Term NodeId)) :
    labelsOf (U.toList.map (q, ·)) = resultOf U := by
  cases U <;> simp [resultOf]

/-- Giving away the slot of a term changes nothing beyond the term. -/
theorem Held.relinked_local (h : Held t p (pre ++ (q, T) :: post)) (hsize : t.size ≤ u.size)
    (hroot : u.root = t.root) (hu : ∀ x, x.index < t.size → u.get? x = t.get? x)
    (hr : u.Relinked p T.label (U.map Term.label) t') (hchange : change.node = T.label)
    (hresult : ∀ x ∈ resultOf U, x ≠ T.label ∧ (x ∈ T.labels ∨ t.size ≤ x.index)) :
    Local p T.labels (resultOf U) [change] t t' where
  root := hr.root.trans hroot
  size := hr.size ▸ hsize
  holder n hn := by
    refine ⟨relink p T.label (U.map Term.label) p n, ?_, ?_, ?_, rfl⟩
    · rw [hr.get, hu p (lt_size_of_get? hn), hn]
      rfl
    · simp [relink, Shape.bare_exchange]
    · have hpT := (h.not_mem_others T.label_mem_labels).1
      have hpU : some p ≠ U.map Term.label := by
        intro hp
        obtain ⟨V, rfl, hV⟩ := Option.map_eq_some_iff.1 hp.symm
        obtain ⟨_, hmem | hle⟩ := hresult p (hV ▸ V.label_mem_labels)
        · exact (h.not_mem_others hmem).1 rfl
        · exact absurd (lt_size_of_get? hn) (by omega)
      simp [relink, hpT.symm, hpU]
  frame x hx hxp hxT := by
    rw [hr.get?_of_ne hxp, hu x hx]
    · rintro rfl
      exact hxT T.label_mem_labels
    · intro hxU
      obtain ⟨V, rfl, rfl⟩ := Option.map_eq_some_iff.1 hxU.symm
      obtain ⟨_, hmem | hle⟩ := hresult _ V.label_mem_labels
      · exact hxT hmem
      · omega
  result_from x hx := (hresult x hx).2
  gone change' hchange' := by
    rw [List.mem_singleton.1 hchange', hchange]
    refine ⟨T.label_mem_labels, fun hT => (hresult _ hT).1 rfl, ?_⟩
    obtain ⟨n, hn⟩ := exists_get? (h.lt_size T.label (by simp [T.label_mem_labels]))
    refine ⟨relink p T.label (U.map Term.label) T.label n, ?_, by simp [relink]⟩
    rw [hr.get, hu _ (lt_size_of_get? hn), hn]
    rfl
  detaches x n hn hp := by
    by_cases hx : x = T.label
    · exact Or.inl ⟨change, List.mem_singleton_self change, hchange.trans hx.symm⟩
    · refine Or.inr ⟨relink p T.label (U.map Term.label) x n, ?_, ?_⟩
      · rw [hr.get, hu x (lt_size_of_get? hn), hn]
        rfl
      · simp only [relink, if_neg hx]
        split
        · simp
        · exact hp

/-- A new leaf takes the slot of a term. -/
theorem Held.relinked_leaf (h : Held t p (pre ++ (q, T) :: post)) {s : Shape (Term NodeId)}
    (hs : s.children = [])
    (hr : (t.push ⟨s.map Term.label, none, none⟩).Relinked p T.label (some t.next) t')
    (hchange : change.node = T.label) :
    Held t' p (pre ++ (q, .mk t.next s) :: post) ∧
      Local p T.labels [t.next] [change] t t' := by
  have hu : ∀ x, x.index < t.size → (t.push ⟨s.map Term.label, none, none⟩).get? x = t.get? x :=
    fun x hx => get?_push_of_ne (ne_next hx)
  have hlabels : (Term.mk t.next s).labels = [t.next] := by simp [hs]
  have hne : ∀ x ∈ p :: labelsOf (pre ++ (q, T) :: post), t.next ≠ x := by
    rintro x hx rfl
    exact absurd (h.lt_size _ hx) (Nat.lt_irrefl _)
  have hget : t'.get? t.next = some ⟨s.map Term.label, some p, none⟩ := by
    rw [hr.get, get?_push_next]
    simp [relink, hne p (by simp), hne T.label (by simp [T.label_mem_labels])]
  have hshows : t'.Shows (some p) (.mk t.next s) := .mk hget fun c hc => by simp [hs] at hc
  constructor
  · have := h.relinked (U := some (.mk t.next s)) hu hr (by simp)
      (fun V hV => by cases hV; exact hshows) (fun V hV => by cases hV; simp [hlabels])
      (fun V hV x hx => by
        cases hV
        rw [hlabels, List.mem_singleton] at hx
        exact Or.inr (hx ▸ Nat.le_refl _))
    simpa using this
  · have := h.relinked_local (U := some (.mk t.next s)) (by simp) (root_push t _) hu hr hchange
      (fun x hx => by
        rw [resultOf, Option.elim_some, hlabels, List.mem_singleton] at hx
        subst hx
        exact ⟨hne T.label (by simp [T.label_mem_labels]), Or.inr (Nat.le_refl _)⟩)
    simpa [resultOf, hs] using this

theorem Shape.exists_of_map_eq_branch {α β : Type} {f : α → β} {s : Shape α} {c a : β}
    {b : Option β} (h : s.map f = .branch c a b) :
    ∃ C A B, s = .branch C A B ∧ f C = c ∧ f A = a ∧ B.map f = b := by
  cases s <;> cases h
  exact ⟨_, _, _, rfl, rfl, rfl, rfl⟩

namespace Held

/-- A held node has one holder. -/
theorem holder_eq (h : Held t p (pre ++ (q, T) :: post)) {holder : NodeId}
    (hl : t.Linked holder T.label) : holder = p := by
  obtain ⟨_, n, hn, hp⟩ := hl
  obtain ⟨_, k, hk, hp'⟩ := h.linked (q := q) (T := T) (by simp)
  rw [hn] at hk
  cases hk
  rw [hp] at hp'
  exact Option.some.inj hp'

/-- The term of an `if` statement. -/
theorem exists_branch (h : Held t p (pre ++ (q, T) :: post)) {condition whenTrue : NodeId}
    {whenFalse : Option NodeId}
    (hs : t.shape T.label = .ok (.branch condition whenTrue whenFalse)) :
    ∃ c a b, T = .mk T.label (.branch c a b) ∧ c.label = condition ∧ a.label = whenTrue ∧
      b.map Term.label = whenFalse := by
  obtain ⟨span, hget⟩ := (h.shows (q, T) (by simp)).get?
  rw [shape_of_get? hget] at hs
  obtain ⟨c, a, b, hshape, hc, ha, hb⟩ := Shape.exists_of_map_eq_branch (Except.ok.inj hs)
  exact ⟨c, a, b, by rw [← hshape, Term.eta], hc, ha, hb⟩

/-- What a vacated slot says about its place. -/
theorem vacate_iff (h : Held t p (pre ++ (q, T) :: post)) {n : Node} (hn : t.get? p = some n) :
    n.shape.vacate T.label = none ↔ q.isRequired = true :=
  Shape.vacate_eq_none_iff (h.nodup_children hn) (h.mem_spots hn (by simp))

/-- The branch that is selected moves up to the slot of its statement. -/
theorem step_selected {n : NodeId} {c a V : Term NodeId} {b : Option (Term NodeId)} {v : Value}
    (h : Held t p (pre ++ (q, .mk n (.branch c a b)) :: post)) (hV : chosen v a b = some V)
    (hr : t.Relinked p n (some V.label) t') (hchange : change.node = n) :
    Held t' p (pre ++ (q, V) :: post) ∧
      Local p (Term.mk n (.branch c a b)).labels V.labels [change] t t' := by
  have hchild : V ∈ (Term.mk n (.branch c a b)).shape.children :=
    Shape.mem_children_branch (chosen_mem hV)
  have hbelow := h.below (q := q) (T := .mk n (.branch c a b)) (by simp)
  obtain ⟨place, hspot⟩ := Shape.mem_children_iff.1 hchild
  have hVn : n ∉ V.labels := fun hn =>
    (List.nodup_cons.1 hbelow.nodup).1 (mem_labelsOf.2 ⟨(place, V), hspot, hn⟩)
  have hVT : ∀ x ∈ V.labels, x ∈ (Term.mk n (.branch c a b)).labels := fun x hx =>
    Term.mem_labels_of_child hchild hx
  have hnodup : V.labels.Nodup :=
    (List.nodup_flatMap.1 (List.nodup_cons.1 hbelow.nodup).2).1 (place, V) hspot
  have hshows : t'.Shows (some p) V := by
    refine (hbelow.shows (place, V) hspot).congr_top (fun m hm => ?_) fun d hd x hx => ?_
    · have hVp : V.label ≠ p := (h.not_mem_others (hVT _ V.label_mem_labels)).1
      have hVn' : V.label ≠ n := fun heq => hVn (heq ▸ V.label_mem_labels)
      refine ⟨m.span, ?_⟩
      rw [hr.get, hm]
      simp [relink, hVp, hVn']
    · have hxV : x ∈ V.labels := Term.mem_labels_of_child hd hx
      refine hr.get?_of_ne (h.not_mem_others (hVT x hxV)).1 ?_ ?_
      · rintro rfl
        exact hVn hxV
      · rintro ⟨⟩
        rw [Term.labels_eq, List.nodup_cons] at hnodup
        exact hnodup.1 (List.mem_flatMap.2 ⟨d, hd, hx⟩)
  constructor
  · have := h.relinked (U := some V) (fun _ _ => rfl) hr (by simp)
      (fun W hW => by cases hW; exact hshows) (fun W hW => by cases hW; exact hnodup)
      (fun W hW x hx => by cases hW; exact Or.inl (hVT x hx))
    simpa using this
  · refine h.relinked_local (U := some V) (Nat.le_refl _) rfl (fun _ _ => rfl) hr hchange ?_
    intro x hx
    refine ⟨?_, Or.inl (hVT x hx)⟩
    rintro rfl
    exact hVn hx

/-- A step at a held term leaves the term that it turns into, and nothing else
changes. -/
theorem step (h : Held t p (pre ++ (q, T) :: post)) (hs : Step st t change t')
    (hchange : change.node = T.label) :
    ∃ U, Held t' p (pre ++ U.toList.map (q, ·) ++ post) ∧
      Local p T.labels (resultOf U) [change] t t' ∧ Turns st t q T U change.reduction := by
  cases hs with
  | @folded holder old site v l _ linked atSite folds literal relinked =>
    have hold : old = T.label := hchange
    subst hold
    obtain rfl := h.holder_eq linked
    rw [h.site (q := q) (T := T) (by simp)] at atSite
    cases atSite
    obtain ⟨hheld, hlocal⟩ := h.relinked_leaf (s := .literal l) rfl relinked hchange
    refine ⟨some (.mk t.next (.literal l)), by simpa using hheld, ?_,
      .folded folds literal (Nat.le_refl _)⟩
    simpa [resultOf] using hlocal
  | @selected holder old condition whenTrue selected whenFalse v _ linked shape decides hchosen
      relinked =>
    have hold : old = T.label := hchange
    subst hold
    obtain rfl := h.holder_eq linked
    obtain ⟨c, a, b, hT, rfl, rfl, rfl⟩ := h.exists_branch shape
    generalize T.label = n at hT linked decides shape relinked hchange
    subst hT
    rw [chosen_map] at hchosen
    obtain ⟨V, hV, rfl⟩ := Option.map_eq_some_iff.1 hchosen
    obtain ⟨hheld, hlocal⟩ := h.step_selected hV relinked hchange
    exact ⟨some V, by simpa using hheld, hlocal, .selected decides hV⟩
  | @dropped holder old condition whenTrue whenFalse n v _ linked shape decides hchosen node
      vacates relinked =>
    have hold : old = T.label := hchange
    subst hold
    obtain rfl := h.holder_eq linked
    have hreq : q.isRequired = false := by
      rw [Ne, h.vacate_iff node] at vacates
      simpa using vacates
    obtain ⟨c, a, b, hT, rfl, rfl, rfl⟩ := h.exists_branch shape
    rw [chosen_map, Option.map_eq_none_iff] at hchosen
    refine ⟨none, ?_, ?_, ?_⟩
    · refine h.relinked (U := none) (fun _ _ => rfl) relinked (fun _ k hk => ?_) (by simp) (by simp)
        (by simp)
      rw [node] at hk
      cases hk
      exact vacates
    · exact h.relinked_local (U := none) (Nat.le_refl _) rfl (fun _ _ => rfl) relinked hchange
        (by simp [resultOf])
    · rw [hT]
      exact .dropped decides hchosen hreq
  | @filled holder old condition whenTrue whenFalse n v _ linked shape decides hchosen node
      vacates relinked =>
    have hold : old = T.label := hchange
    subst hold
    obtain rfl := h.holder_eq linked
    have hreq : q.isRequired = true := (h.vacate_iff node).1 vacates
    obtain ⟨c, a, b, hT, rfl, rfl, rfl⟩ := h.exists_branch shape
    rw [chosen_map, Option.map_eq_none_iff] at hchosen
    obtain ⟨hheld, hlocal⟩ := h.relinked_leaf (s := .emptyStatement) rfl relinked hchange
    refine ⟨some (.mk t.next .emptyStatement), by simpa using hheld, ?_, ?_⟩
    · simpa [resultOf] using hlocal
    · rw [hT]
      exact .filled decides hchosen hreq (Nat.le_refl _)

end Held

end ScriptReduce
