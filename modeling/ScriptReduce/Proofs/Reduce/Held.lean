/-
ScriptReduce.Proofs.Reduce.Held: a node with the terms of its children.

A walk works below one node at a time. `Held` says what that node holds: its
spots are those of a list of terms, each shown below it, and no node occurs
twice in all of this. So giving away the slot of one term changes that term in
the list and nothing else (`Held.relinked`).
-/
import ScriptReduce.Proofs.Reduce.Step
import ScriptReduce.Proofs.Tree.Term

namespace ScriptReduce

open ScriptReduce.Tree

/-! ## 1. Lists without repetition -/

/-- The labels of all terms of a list. -/
def labelsOf (Ls : List (Place × Term NodeId)) : List NodeId := Ls.flatMap fun e => e.2.labels

@[simp] theorem labelsOf_nil : labelsOf [] = [] := rfl

@[simp] theorem labelsOf_cons (e : Place × Term NodeId) (Ls : List (Place × Term NodeId)) :
    labelsOf (e :: Ls) = e.2.labels ++ labelsOf Ls := rfl

@[simp] theorem labelsOf_append (Ls Ms : List (Place × Term NodeId)) :
    labelsOf (Ls ++ Ms) = labelsOf Ls ++ labelsOf Ms :=
  List.flatMap_append

theorem mem_labelsOf {Ls : List (Place × Term NodeId)} {x : NodeId} :
    x ∈ labelsOf Ls ↔ ∃ e ∈ Ls, x ∈ e.2.labels :=
  List.mem_flatMap

theorem labelsOf_spots (s : Shape (Term NodeId)) :
    labelsOf s.spots = s.children.flatMap Term.labels := by
  rw [← Shape.map_snd_spots, List.flatMap_map]
  rfl

/-- The middle of a list may be exchanged for other elements. -/
theorem nodup_middle {α : Type} {A B B' C : List α} (h : (A ++ (B ++ C)).Nodup) (hB : B'.Nodup)
    (hnew : ∀ x ∈ B', x ∈ B ∨ (x ∉ A ∧ x ∉ C)) : (A ++ (B' ++ C)).Nodup := by
  rw [List.nodup_append] at h ⊢
  obtain ⟨hA, hBC, hAB⟩ := h
  rw [List.nodup_append] at hBC ⊢
  obtain ⟨_, hC, hdisj⟩ := hBC
  refine ⟨hA, ⟨hB, hC, ?_⟩, ?_⟩
  · rintro x hx y hy rfl
    rcases hnew x hx with hxB | ⟨_, hxC⟩
    · exact hdisj x hxB x hy rfl
    · exact hxC hy
  · rintro x hx y hy rfl
    rcases List.mem_append.1 hy with hy | hy
    · rcases hnew x hy with hxB | ⟨hxA, _⟩
      · exact hAB x hx x (List.mem_append_left _ hxB) rfl
      · exact hxA hx
    · exact hAB x hx x (List.mem_append_right _ hy) rfl

/-! ## 2. Holding terms -/

/-- A node holds terms at given places. -/
structure Held (t : Tree) (p : NodeId) (Ls : List (Place × Term NodeId)) : Prop where
  node : ∃ n, t.get? p = some n ∧ n.shape.spots = Ls.map (Prod.map id Term.label)
  shows : ∀ e ∈ Ls, t.Shows (some p) e.2
  nodup : (p :: labelsOf Ls).Nodup

namespace Held

variable {t t' u : Tree} {p : NodeId} {Ls pre post : List (Place × Term NodeId)} {q : Place}
  {T : Term NodeId}

theorem nodup_children (h : Held t p Ls) {n : Node} (hn : t.get? p = some n) :
    n.shape.children.Nodup := by
  obtain ⟨n', hn', hspots⟩ := h.node
  rw [hn] at hn'
  cases hn'
  have hnodup := (List.nodup_flatMap.1 (List.nodup_cons.1 h.nodup).2).2
  rw [← Shape.map_snd_spots, hspots, List.map_map]
  refine List.pairwise_map.2 (hnodup.imp ?_)
  intro e e' hdisj heq
  have hl : e.2.label = e'.2.label := heq
  exact hdisj e.2.label_mem_labels (hl ▸ e'.2.label_mem_labels)

theorem mem_spots (h : Held t p Ls) {n : Node} (hn : t.get? p = some n) (hT : (q, T) ∈ Ls) :
    (q, T.label) ∈ n.shape.spots := by
  obtain ⟨n', hn', hspots⟩ := h.node
  rw [hn] at hn'
  cases hn'
  rw [hspots]
  exact List.mem_map_of_mem hT

/-- A held term is linked to its holder. -/
theorem linked (h : Held t p Ls) (hT : (q, T) ∈ Ls) : t.Linked p T.label := by
  obtain ⟨n, hn, _⟩ := h.node
  obtain ⟨span, hget⟩ := (h.shows _ hT).get?
  exact ⟨⟨n, hn, Shape.mem_children_of_mem_spots (h.mem_spots hn hT)⟩, _, hget, rfl⟩

/-- Whether a literal may stand for a held identifier is a matter of its
place. -/
theorem site (h : Held t p Ls) (hT : (q, T) ∈ Ls) :
    Walk.isSubstitutionSite t T.label = .ok q.isSite := by
  obtain ⟨n, hn, _⟩ := h.node
  obtain ⟨span, hget⟩ := (h.shows _ hT).get?
  have hspot := h.mem_spots hn hT
  have hnodup := h.nodup_children hn
  unfold Walk.isSubstitutionSite
  rw [bind_of_ok _ (parent_of_get? hget)]
  simp only
  rw [bind_of_ok _ (shape_of_get? hn), ← Shape.isSite_of_spot hnodup hspot]
  cases n.shape <;> rfl

/-- The topmost node of a term holds the terms of its children. -/
theorem of_shows {parent : Option NodeId} (h : t.Shows parent T) (hnodup : T.labels.Nodup) :
    Held t T.label T.shape.spots where
  node := by
    obtain ⟨span, hget⟩ := h.get?
    exact ⟨_, hget, Shape.spots_map _ _⟩
  shows e he := h.child (Shape.mem_children_of_mem_spots he)
  nodup := by
    rw [labelsOf_spots, ← Term.labels_eq]
    exact hnodup

theorem nodup_labels (h : Held t p Ls) (hT : (q, T) ∈ Ls) : T.labels.Nodup :=
  (List.nodup_flatMap.1 (List.nodup_cons.1 h.nodup).2).1 _ hT

/-- What a held term holds itself. -/
theorem below (h : Held t p Ls) (hT : (q, T) ∈ Ls) : Held t T.label T.shape.spots :=
  of_shows (h.shows _ hT) (h.nodup_labels hT)

theorem lt_size (h : Held t p Ls) : ∀ x ∈ p :: labelsOf Ls, x.index < t.size := by
  intro x hx
  rcases List.mem_cons.1 hx with rfl | hx
  · obtain ⟨n, hn, _⟩ := h.node
    exact lt_size_of_get? hn
  · obtain ⟨e, he, hx⟩ := mem_labelsOf.1 hx
    exact (h.shows e he).lt_size x hx

end Held

/-! ## 3. Giving a slot away -/

namespace Held

variable {t t' u : Tree} {p : NodeId} {pre post : List (Place × Term NodeId)} {q : Place}
  {T : Term NodeId} {U : Option (Term NodeId)}

/-- What belongs to one term belongs neither to the holder nor to another
term. -/
theorem not_mem_others (h : Held t p (pre ++ (q, T) :: post)) {x : NodeId} (hx : x ∈ T.labels) :
    x ≠ p ∧ x ∉ labelsOf (pre ++ post) := by
  have hnodup := h.nodup
  rw [labelsOf_append, labelsOf_cons, List.nodup_cons, List.nodup_append, List.nodup_append]
    at hnodup
  obtain ⟨hp, _, ⟨_, _, hpost⟩, hpre⟩ := hnodup
  refine ⟨?_, fun hother => ?_⟩
  · rintro rfl
    exact hp (by simp [hx])
  · rw [labelsOf_append] at hother
    rcases List.mem_append.1 hother with hmem | hmem
    · exact hpre x hmem x (List.mem_append_left _ hx) rfl
    · exact hpost x hx x hmem rfl

theorem holder_not_mem (h : Held t p (pre ++ (q, T) :: post)) : p ∉ labelsOf (pre ++ post) := by
  intro hp
  refine (List.nodup_cons.1 h.nodup).1 ?_
  rw [labelsOf_append] at hp
  rcases List.mem_append.1 hp with hp | hp <;> simp [hp]

theorem lt_size_of_other (h : Held t p (pre ++ (q, T) :: post)) {x : NodeId}
    (hx : x ∈ labelsOf (pre ++ post)) : x.index < t.size := by
  refine h.lt_size x (List.mem_cons_of_mem p ?_)
  rw [labelsOf_append] at hx
  rcases List.mem_append.1 hx with hx | hx <;> simp [hx]

/-- One term may be exchanged for another that has nothing in common with the
rest. -/
theorem nodup_exchange (h : Held t p (pre ++ (q, T) :: post))
    (hnodup : ∀ V, U = some V → V.labels.Nodup)
    (hapart : ∀ V, U = some V → ∀ x ∈ V.labels, x ≠ p ∧ x ∉ labelsOf (pre ++ post)) :
    (p :: labelsOf (pre ++ U.toList.map (q, ·) ++ post)).Nodup := by
  have hrest := (List.nodup_cons.1 h.nodup).2
  rw [labelsOf_append, labelsOf_cons] at hrest
  have hp := h.holder_not_mem
  rw [labelsOf_append, List.mem_append, not_or] at hp
  rw [labelsOf_append, labelsOf_append, List.append_assoc, List.nodup_cons, List.mem_append,
    List.mem_append, not_or, not_or]
  cases U with
  | none => exact ⟨⟨hp.1, by simp, hp.2⟩, nodup_middle hrest List.nodup_nil (by simp)⟩
  | some V =>
    simp only [Option.toList_some, List.map_cons, List.map_nil, labelsOf_cons, labelsOf_nil,
      List.append_nil]
    refine ⟨⟨hp.1, fun hpV => (hapart V rfl p hpV).1 rfl, hp.2⟩,
      nodup_middle hrest (hnodup V rfl) fun x hx => Or.inr ?_⟩
    simpa using (hapart V rfl x hx).2

/-- The slot of one term is given to another term, or emptied: the tree `u`
has what the tree had before, and maybe a new leaf. -/
theorem relinked (h : Held t p (pre ++ (q, T) :: post))
    (hu : ∀ x, x.index < t.size → u.get? x = t.get? x)
    (hr : u.Relinked p T.label (U.map Term.label) t')
    (hvacates : U = none → ∀ n, t.get? p = some n → n.shape.vacate T.label ≠ none)
    (hshows : ∀ V, U = some V → t'.Shows (some p) V)
    (hnodup : ∀ V, U = some V → V.labels.Nodup)
    (hlabels : ∀ V, U = some V → ∀ x ∈ V.labels, x ∈ T.labels ∨ t.size ≤ x.index) :
    Held t' p (pre ++ U.toList.map (q, ·) ++ post) := by
  have hapart : ∀ V, U = some V → ∀ x ∈ V.labels, x ≠ p ∧ x ∉ labelsOf (pre ++ post) := by
    intro V hV x hx
    rcases hlabels V hV x hx with hx | hx
    · exact h.not_mem_others hx
    · refine ⟨?_, fun hother => absurd (h.lt_size_of_other hother) (by omega)⟩
      rintro rfl
      exact absurd (h.lt_size x List.mem_cons_self) (by omega)
  refine ⟨?_, fun e he => ?_, h.nodup_exchange hnodup hapart⟩
  · obtain ⟨n, hn, hspots⟩ := h.node
    refine ⟨relink p T.label (U.map Term.label) p n, ?_, ?_⟩
    · rw [hr.get, hu p (lt_size_of_get? hn), hn]
      rfl
    · simp only [relink, if_pos]
      rw [List.map_append, List.map_cons] at hspots
      rw [Shape.spots_exchange (h.nodup_children hn) hspots]
      · cases U <;> simp
      · intro hnone
        exact hvacates (by simpa using hnone) n hn
  · by_cases hnew : ∃ V, U = some V ∧ e = (q, V)
    · obtain ⟨V, hV, rfl⟩ := hnew
      exact hshows V hV
    -- the other terms are not touched
    have hmem : e ∈ pre ++ post := by
      rcases List.mem_append.1 he with he | he
      · rcases List.mem_append.1 he with he | he
        · exact List.mem_append_left _ he
        · obtain ⟨V, hV, rfl⟩ := List.mem_map.1 he
          exact absurd ⟨V, Option.mem_toList.1 hV, rfl⟩ hnew
      · exact List.mem_append_right _ he
    have hmem' : e ∈ pre ++ (q, T) :: post := by
      rcases List.mem_append.1 hmem with he | he <;> simp [he]
    refine (h.shows e hmem').congr fun x hx => ?_
    have hx : x ∈ labelsOf (pre ++ post) := mem_labelsOf.2 ⟨e, hmem, hx⟩
    rw [hr.get?_of_ne ?_ ?_ ?_, hu x (h.lt_size_of_other hx)]
    · rintro rfl
      exact h.holder_not_mem hx
    · rintro rfl
      exact (h.not_mem_others T.label_mem_labels).2 hx
    · intro hx'
      obtain ⟨V, hV, rfl⟩ := Option.map_eq_some_iff.1 hx'.symm
      exact (hapart V hV _ V.label_mem_labels).2 hx

/-- What happens within one term changes that term only. -/
theorem below_changed (h : Held t p (pre ++ (q, T) :: post))
    (hframe : ∀ x, x.index < t.size → x ∉ T.labels → t'.get? x = t.get? x) {V : Term NodeId}
    (hV : t'.Shows (some p) V) (hlabel : V.label = T.label) (hnodup : V.labels.Nodup)
    (hlabels : ∀ x ∈ V.labels, x ∈ T.labels ∨ t.size ≤ x.index) :
    Held t' p (pre ++ (q, V) :: post) := by
  have hp : p.index < t.size := h.lt_size p List.mem_cons_self
  refine ⟨?_, fun e he => ?_, ?_⟩
  · obtain ⟨n, hn, hspots⟩ := h.node
    have hpT : p ∉ T.labels := fun hpT => (h.not_mem_others hpT).1 rfl
    exact ⟨n, (hframe p hp hpT).trans hn, by simpa [hlabel] using hspots⟩
  · have hcases : e = (q, V) ∨ e ∈ pre ++ post := by
      simp only [List.mem_append, List.mem_cons] at he ⊢
      tauto
    rcases hcases with rfl | hmem
    · exact hV
    have hmem' : e ∈ pre ++ (q, T) :: post := by
      rcases List.mem_append.1 hmem with he | he <;> simp [he]
    refine (h.shows e hmem').congr fun x hx => ?_
    have hx : x ∈ labelsOf (pre ++ post) := mem_labelsOf.2 ⟨e, hmem, hx⟩
    exact hframe x (h.lt_size_of_other hx) fun hxT => (h.not_mem_others hxT).2 hx
  · have := h.nodup_exchange (U := some V) (fun W hW => by cases hW; exact hnodup)
      (fun W hW x hx => by
        cases hW
        rcases hlabels x hx with hx | hx
        · exact h.not_mem_others hx
        · refine ⟨?_, fun hother => absurd (h.lt_size_of_other hother) (by omega)⟩
          rintro rfl
          omega)
    simpa using this

/-! ## 4. The term of a holder -/

/-- The terms that a node holds are the children of a term of its own. -/
theorem exists_shape {Ls : List (Place × Term NodeId)} (h : Held t p Ls) {n : Node}
    (hn : t.get? p = some n) :
    ∃ s : Shape (Term NodeId), s.spots = Ls ∧ s.map Term.label = n.shape := by
  obtain ⟨n', hn', hspots⟩ := h.node
  rw [hn] at hn'
  cases hn'
  have hchildren : (Ls.map Prod.snd).map Term.label = n.shape.children := by
    rw [← Shape.map_snd_spots, hspots, List.map_map, List.map_map]
    rfl
  obtain ⟨s, hs, hc⟩ := Shape.exists_map_eq Term.label hchildren
  refine ⟨s, ?_, hs⟩
  have hfst : s.spots.map Prod.fst = Ls.map Prod.fst := by
    have := congrArg (List.map Prod.fst) hspots
    rw [← hs, Shape.spots_map, List.map_map, List.map_map] at this
    exact this
  have hsnd : s.spots.map Prod.snd = Ls.map Prod.snd := by
    rw [Shape.map_snd_spots, hc]
  rw [List.zip_of_prod hfst hsnd, ← List.zip_of_prod rfl rfl]

/-- A holder shows the term that consists of what it holds. -/
theorem shows_term {s : Shape (Term NodeId)} (h : Held t p s.spots) {n : Node}
    (hn : t.get? p = some n) (hs : s.map Term.label = n.shape) :
    t.Shows n.parent (.mk p s) := by
  have hget : t.get? p = some ⟨s.map Term.label, n.parent, n.span⟩ := by rw [hn, hs]
  refine .mk hget fun c hc => ?_
  obtain ⟨place, hspot⟩ := Shape.mem_children_iff.1 hc
  exact h.shows (place, c) hspot

theorem nodup_term {s : Shape (Term NodeId)} (h : Held t p s.spots) :
    (Term.mk p s).labels.Nodup := by
  rw [Term.labels_mk, ← labelsOf_spots]
  exact h.nodup

end Held

end ScriptReduce
