/-
ScriptReduce.Proofs.Reduce.Settled: one run is enough.

A walk offers a node before its children, so it might miss what comes to light
later: a condition that becomes known, an identifier that moves to a place
where a literal may stand. It does not. What a run leaves was decided by
evaluations in the tree at the start, and the tree at the end, being faithful
to it, gives the same answers. So each node that is left stays
(`Reduces.settled`), and a walk through a settled term changes nothing
(`visit_settled`).

The default optimizer therefore runs twice at most, and a tree that it has left
is left as it is (`foldConstants_stable`).
-/
import ScriptReduce.Proofs.Reduce.Run

namespace ScriptReduce

open ScriptReduce.Tree

variable {st : Setting} {t t' t₀ : Tree} {c c' c₂ : Context} {changed : Bool} {p : NodeId}
  {parent : Option NodeId} {q : Place} {T : Term NodeId}

/-! ## 1. Settled terms -/

/-- Every node of a term is left alone. -/
inductive Settled (st : Setting) (t : Tree) : Place → Term NodeId → Prop where
  | mk {q : Place} {T : Term NodeId} (stays : Stays st t q.isSite T.label)
    (below : ∀ e ∈ T.shape.spots, Settled st t e.1 e.2) : Settled st t q T

theorem Settled.stays (h : Settled st t q T) : Stays st t q.isSite T.label := by
  cases h with
  | mk stays _ => exact stays

theorem Settled.child (h : Settled st t q T) : ∀ e ∈ T.shape.spots, Settled st t e.1 e.2 := by
  cases h with
  | mk _ below => exact below

/-- A leaf is left alone. -/
theorem stays_of_leaf {site : Bool} {id : NodeId} {n : Node} (hn : t.get? id = some n)
    (hleaf : n.shape.IsLeaf) : Stays st t site id := by
  constructor
  · rintro v ⟨_, s, hs, hmay⟩
    rw [shape_of_get? hn] at hs
    cases hs
    rcases hleaf with ⟨l, hl⟩ | hl <;> rw [hl] at hmay <;> cases hmay
  · rintro v ⟨_, _, _, hs, _⟩
    rw [shape_of_get? hn] at hs
    rcases hleaf with ⟨l, hl⟩ | hl <;> rw [hl] at hs <;> cases hs

theorem Settled.of_leaf {m : NodeId} {s : Shape (Term NodeId)}
    (hT : t.Shows parent (.mk m s)) (hleaf : (s.map Term.label).IsLeaf) :
    Settled st t q (.mk m s) := by
  obtain ⟨span, hget⟩ := hT.get?
  refine .mk (stays_of_leaf hget hleaf) fun e he => ?_
  have hmem := Shape.mem_children_of_mem_spots he
  have hnone := hleaf.children
  rw [Shape.children_map, List.map_eq_nil_iff] at hnone
  rw [Term.shape_mk, hnone] at hmem
  cases hmem

/-! ## 2. What a run leaves is settled -/

/-- The children of a node that was kept come from children that it had. -/
theorem exists_of_sieved {s s' : Shape (Term NodeId)} {G : NodeId → Option (Term NodeId)}
    (h : s.sieve (fun _ c => G c.label) = some s') {e : Place × Term NodeId} (he : e ∈ s'.spots) :
    ∃ e₀ ∈ s.spots, e₀.1 = e.1 ∧ G e₀.2.label = some e.2 := by
  rw [(Shape.spots_sieve h).2] at he
  obtain ⟨e₀, he₀, hmap⟩ := List.mem_filterMap.1 he
  obtain ⟨U, hU, rfl⟩ := Option.map_eq_some_iff.1 hmap
  exact ⟨e₀, he₀, rfl, hU⟩

/-- What stays in the tree that a term reduces in stays in the tree that is
left, so the result of a reduction is settled. -/
theorem Reduces.settled (hf : Faithful st t₀ t) {U : Option (Term NodeId)}
    (h : Reduces st t₀ q T U) : ∀ T', U = some T' → ∀ p, t.Shows (some p) T' →
      Settled st t q T' := by
  induction h with
  | @folded _ _ m v l =>
    rintro _ ⟨⟩ p hshows
    exact .of_leaf hshows (Or.inl ⟨l, rfl⟩)
  | selected _ _ _ ih => exact ih
  | dropped => rintro _ ⟨⟩
  | filled =>
    rintro _ ⟨⟩ p hshows
    exact .of_leaf hshows (Or.inr rfl)
  | @kept q n s s' G stays below sieved ih =>
    rintro _ ⟨⟩ p hshows
    obtain ⟨span, hget⟩ := hshows.get?
    refine .mk (((faithfulGuide st t₀).stays hf (parent_of_get? hget)).2 stays) fun e he => ?_
    obtain ⟨e₀, he₀, hplace, hG⟩ := exists_of_sieved sieved he
    have := ih e₀ he₀ e.2 hG n (hshows.child (Shape.mem_children_of_mem_spots he))
    rwa [hplace] at this

/-- The same at the root, which may have no parent. -/
theorem Reduces.settled_root (hf : Faithful st t₀ t) {T' : Term NodeId}
    (hT : t₀.Presents parent T) (h : Reduces st t₀ q T (some T')) (hT' : t.Presents parent T') :
    Settled st t q T' := by
  have hstays : Stays st t₀ q.isSite T.label := stays_of_file hT q.isSite
  have hshape : ∀ n c a b, T ≠ .mk n (.branch c a b) := by
    rintro n c a b rfl
    cases hT.file
  cases h with
  | folded folds literal =>
    rw [hstays.1 _ folds] at literal
    cases literal
  | selected | filled => exact absurd rfl (hshape _ _ _ _)
  | @kept _ n s s' G _ below sieved =>
    refine .mk (stays_of_file hT' q.isSite) fun e he => ?_
    obtain ⟨e₀, he₀, hplace, hG⟩ := exists_of_sieved sieved he
    have := (below e₀ he₀).settled hf e.2 hG n
      (hT'.shows.child (Shape.mem_children_of_mem_spots he))
    rwa [hplace] at this

/-! ## 3. A walk through a settled term -/

/-- A part of a walk that leaves everything as it was. -/
structure Idle (w w' : Walk) : Prop where
  tree : w'.tree = w.tree
  changed : w'.changed = w.changed
  follows : w.context.Follows [] w'.context

namespace Idle

theorem refl (w : Walk) : Idle w w := ⟨rfl, rfl, .refl _⟩

theorem trans {w w₁ w' : Walk} (h : Idle w w₁) (h' : Idle w₁ w') : Idle w w' :=
  ⟨h'.tree.trans h.tree, h'.changed.trans h.changed, h.follows.trans h'.follows⟩

end Idle

/-- No step can be made at a node that stays. -/
theorem Stays.not_step {site : Bool} {change : Change} (h : Stays st t site change.node)
    (hsite : Walk.isSubstitutionSite t change.node = .ok site) : ¬Step st t change t' := by
  intro hstep
  cases hstep with
  | @folded _ old _ _ _ _ _ atSite folds literal =>
    have heq : Except.ok site = .ok _ := hsite.symm.trans atSite
    cases heq
    rw [h.1 _ folds] at literal
    cases literal
  | selected _ _ decides | dropped _ _ decides | filled _ _ decides => exact h.2 _ decides

/-- A walk through held terms that are settled changes nothing. -/
theorem foldlM_settled {f : Walk → NodeId → Except Fault Walk} {Ls : List (Place × Term NodeId)}
    (hf : ∀ {w w' : Walk}, w.tree = t → w.context.setting = st → ∀ e ∈ Ls,
      f w e.2.label = .ok w' → Idle w w') :
    ∀ {w w' : Walk}, w.tree = t → w.context.setting = st →
      (Ls.map fun e => e.2.label).foldlM f w = .ok w' → Idle w w' := by
  induction Ls with
  | nil =>
    intro w w' _ _ hv
    cases hv
    exact .refl w
  | cons e Ls ih =>
    intro w w' htree hset hv
    obtain ⟨w₁, h₁, hv⟩ := foldlM_cons_eq_ok.1 hv
    have hidle := hf htree hset e List.mem_cons_self h₁
    refine hidle.trans (ih (fun htree hset e he => hf htree hset e (List.mem_cons_of_mem _ he))
      (hidle.tree.trans htree) (hidle.follows.setting.trans hset) hv)

theorem visit_settled {depth : Nat} : ∀ {w w' : Walk} {p : NodeId}
    {Ls : List (Place × Term NodeId)} {q : Place} {T : Term NodeId}, w.tree = t →
    w.context.setting = st → Held t p Ls → (q, T) ∈ Ls → Settled st t q T →
    Walk.visitWithin depth w T.label = .ok w' → Idle w w' := by
  induction depth with
  | zero =>
    intro w w' p Ls q T _ _ _ _ _ hv
    cases hv
  | succ depth ih =>
    intro w w' p Ls q T htree hset h hT hsettled hv
    subst htree
    subst hset
    have hsite := h.site hT
    rw [Walk.visitWithin] at hv
    obtain ⟨⟨r, w₁⟩, hr, hv⟩ := bind_eq_ok.1 hv
    cases Walk.reduce_cases hsite hr with
    | failed unlinked => exact absurd (h.linked hT) (unlinked p)
    | made step node =>
      rw [← node] at hsite
      refine absurd step (Stays.not_step ?_ hsite)
      rw [node]
      exact hsettled.stays
    | kept _ tree changed follows =>
      have hidle : Idle w w₁ := ⟨tree, changed, follows⟩
      obtain ⟨span, hget⟩ := (h.shows _ hT).get?
      obtain ⟨cs, hcs, hv⟩ := bind_eq_ok.1 hv
      rw [tree, children_of_get? hget, Shape.children_map, ← Shape.map_snd_spots,
        List.map_map] at hcs
      cases hcs
      refine hidle.trans (foldlM_settled (fun htree hset e he => ?_) tree follows.setting hv)
      exact ih htree hset (h.below hT) he (hsettled.child e he)

/-- A run of a settled tree changes nothing. -/
theorem foldConstants_settled (hT : t.Presents parent T) (h : Settled c.setting t q T)
    (hrun : foldConstants t c = .ok (changed, t', c')) :
    changed = false ∧ t' = t ∧ c.Follows [] c' := by
  obtain ⟨_, hfile, rfl⟩ := hT.exists_file
  obtain ⟨depth, hw⟩ := foldConstants_of_file hT.root hfile hrun
  rw [← Shape.map_snd_spots, List.map_map] at hw
  have hidle := foldlM_settled (w := ⟨t, c, false⟩) (fun htree hset e he =>
    visit_settled htree hset (.of_shows hT.shows hT.nodup) he (h.child e he)) rfl rfl hw
  exact ⟨hidle.changed, hidle.tree, hidle.follows⟩

/-! ## 4. One run is enough -/

/-- What a run of a well-formed tree leaves is settled, as long as its changes
are safe. -/
theorem Tree.WellFormed.settled (h : t.WellFormed) (hset : c.setting = st)
    (hrun : foldConstants t c = .ok (changed, t', c')) :
    ∃ news, c'.changes = news ++ c.changes ∧ c'.setting = st ∧ t'.root = t.root ∧
      ((∀ change ∈ news, change.Safe) →
        Faithful st t t' ∧ ∃ parent T', t'.Presents parent T' ∧ Settled st t' .statement T') := by
  subst hset
  obtain ⟨parent, T, hT⟩ := h.exists_presents
  obtain ⟨T', news, hran, hguide⟩ := h.ran hT hrun
  refine ⟨news, hran.follows.changes, hran.follows.setting, hran.root, fun hsafe => ?_⟩
  obtain ⟨hfaithful, hred⟩ := hguide hsafe
  exact ⟨hfaithful, parent, T', hran.presents,
    (hred .statement).settled_root hfaithful hT hran.presents⟩

/-- A second run changes nothing. -/
theorem Tree.WellFormed.run_again (h : t.WellFormed) (hset : c.setting = st)
    (hrun : foldConstants t c = .ok (changed, t', c')) :
    ∃ news, c'.changes = news ++ c.changes ∧ c'.setting = st ∧
      ((∀ change ∈ news, change.Safe) → ∀ c₂ : Context, c₂.setting = st →
        (st.symbolAt.Within t → ∃ result, foldConstants t' c₂ = .ok result) ∧
        ∀ changed₂ t₂ c₂', foldConstants t' c₂ = .ok (changed₂, t₂, c₂') →
          changed₂ = false ∧ t₂ = t') := by
  obtain ⟨news, hchanges, hset', hroot, hsettled⟩ := h.settled hset hrun
  refine ⟨news, hchanges, hset', fun hsafe c₂ hset₂ => ?_⟩
  obtain ⟨hfaithful, parent, T', hT', hsettled⟩ := hsettled hsafe
  obtain ⟨_, T, hT⟩ := h.exists_presents
  constructor
  · exact hfaithful.exists_foldConstants hset₂ hT hroot
  · intro changed₂ t₂ c₂' hrun₂
    obtain ⟨hchanged, htree, _⟩ := foldConstants_settled hT' (hset₂ ▸ hsettled) hrun₂
    exact ⟨hchanged, htree⟩

/-- One run of a well-formed tree reaches the end, if none of the literals
that it installs stands for negative zero: another run reports no change and
leaves the tree as it is. So the optimizer runs a second time only if the first
run changed something, never a third time, and a tree that it left is left as
it is when it is optimized again. There are results whenever symbols name
declarations of the tree. -/
theorem foldConstants_stable (h : t.WellFormed) (symbolAt : Resolver) (options : Options) :
    (∀ c : Context, c.setting = ⟨symbolAt, options⟩ →
      (symbolAt.Within t → ∃ result, foldConstants t c = .ok result) ∧
      ∀ changed t' c', foldConstants t c = .ok (changed, t', c') →
        ∃ news, c'.changes = news ++ c.changes ∧ ((∀ change ∈ news, change.Safe) →
          ∀ c₂ : Context, c₂.setting = ⟨symbolAt, options⟩ →
            (symbolAt.Within t → ∃ result, foldConstants t' c₂ = .ok result) ∧
            ∀ changed₂ t₂ c₂', foldConstants t' c₂ = .ok (changed₂, t₂, c₂') →
              changed₂ = false ∧ t₂ = t')) ∧
    ∀ changed t' c', foldConstants t (.start symbolAt options) = .ok (changed, t', c') →
      (∀ change ∈ c'.changes, change.Safe) →
        optimizeIn t (.start symbolAt options) = (if changed then do
            let (_, t₂, c₂) ← foldConstants t' c'
            return (true, t₂, c₂)
          else return (false, t', c')) ∧
        ∀ t₁ c₁, optimize t symbolAt options = .ok (t₁, c₁) → t₁ = t' ∧
          (symbolAt.Within t → ∃ t₂ c₂, optimize t₁ symbolAt options = .ok (t₂, c₂)) ∧
          ∀ t₂ c₂, optimize t₁ symbolAt options = .ok (t₂, c₂) → t₂ = t₁ := by
  constructor
  · intro c hset
    have hwithin : symbolAt.Within t → c.symbolAt.Within t := fun hw => by
      rw [show c.symbolAt = symbolAt from congrArg Setting.symbolAt hset]
      exact hw
    refine ⟨fun hw => h.exists_foldConstants (hwithin hw), fun changed t' c' hrun => ?_⟩
    obtain ⟨news, hchanges, _, hagain⟩ := h.run_again hset hrun
    exact ⟨news, hchanges, hagain⟩
  · intro changed t' c' hrun hsafe
    obtain ⟨news, hchanges, hset', hagain⟩ := h.run_again rfl hrun
    have hagain := hagain fun change hchange =>
      hsafe change (hchanges ▸ List.mem_append_left _ hchange)
    have hsecond := optimizeIn_of_idle_second hrun fun {_ t₂ c₂} hrun₂ =>
      ((hagain c' hset').2 _ t₂ c₂ hrun₂).1
    have hthird : optimizeIn t' (.start symbolAt options)
        = foldConstants t' (.start symbolAt options) :=
      optimizeIn_of_idle fun {_ t₂ c₂} hrun₂ => ((hagain _ rfl).2 _ t₂ c₂ hrun₂).1
    refine ⟨hsecond, fun t₁ c₁ hopt => ?_⟩
    obtain ⟨changed₁, hopt⟩ := optimize_eq_ok.1 hopt
    have ht₁ : t₁ = t' := by
      rw [hsecond] at hopt
      cases changed with
      | false =>
        cases hopt
        rfl
      | true =>
        obtain ⟨⟨changed₂, t₂, c₂⟩, hrun₂, hopt⟩ := bind_eq_ok.1 hopt
        cases hopt
        exact ((hagain c' hset').2 _ _ _ hrun₂).2
    subst ht₁
    refine ⟨rfl, fun hw => ?_, fun t₂ c₂ hopt₂ => ?_⟩
    · obtain ⟨⟨changed₂, t₂, c₂⟩, hrun₂⟩ := (hagain _ rfl).1 hw
      exact ⟨t₂, c₂, optimize_eq_ok.2 ⟨changed₂, hthird.trans hrun₂⟩⟩
    · obtain ⟨changed₂, hopt₂⟩ := optimize_eq_ok.1 hopt₂
      rw [hthird] at hopt₂
      exact ((hagain _ rfl).2 _ _ _ hopt₂).2

theorem foldConstants_stable_sample :
    ∃ t' c' c₂, foldConstants Sample.tree (.start Sample.symbols.resolve Sample.options)
        = .ok (true, t', c') ∧ t' ≠ Sample.tree ∧
      foldConstants t' (.start Sample.symbols.resolve Sample.options) = .ok (false, t', c₂) ∧
      (∃ c₃, optimize Sample.tree Sample.symbols.resolve Sample.options = .ok (t', c₃)) ∧
      ∃ c₄, optimize t' Sample.symbols.resolve Sample.options = .ok (t', c₄) := by
  obtain ⟨hruns, hopts⟩ := foldConstants_stable Sample.tree_wellFormed Sample.symbols.resolve
    Sample.options
  obtain ⟨hexists, hall⟩ := hruns (.start Sample.symbols.resolve Sample.options) rfl
  obtain ⟨⟨changed, t', c'⟩, hrun⟩ := hexists Sample.symbols_within
  have hsafe := Sample.foldConstants_safe hrun
  obtain ⟨news, hchanges, hagain⟩ := hall changed t' c' hrun
  obtain ⟨hexists₂, hidle⟩ := hagain (fun change hchange =>
    hsafe change (hchanges ▸ List.mem_append_left _ hchange))
    (.start Sample.symbols.resolve Sample.options) rfl
  obtain ⟨⟨changed₂, t₂, c₂⟩, hrun₂⟩ := hexists₂ Sample.symbols_within
  obtain ⟨rfl, rfl⟩ := hidle changed₂ t₂ c₂ hrun₂
  have hchanged : changed = true ∧ t₂ ≠ Sample.tree := by
    have h : (foldConstants Sample.tree (.start Sample.symbols.resolve Sample.options)).map
        (fun result => decide (result.1 = true ∧ result.2.1 ≠ Sample.tree)) = .ok true := by
      decide +kernel
    rw [hrun] at h
    exact of_decide_eq_true (Except.ok.inj h)
  obtain ⟨t₃, c₃, hopt⟩ := Sample.tree_wellFormed.exists_optimize Sample.symbols_within
    Sample.options
  obtain ⟨rfl, hexists₄, hidle₄⟩ := (hopts changed t₂ c' hrun hsafe).2 t₃ c₃ hopt
  obtain ⟨t₄, c₄, hopt₄⟩ := hexists₄ Sample.symbols_within
  obtain rfl := hidle₄ t₄ c₄ hopt₄
  exact ⟨t₄, c', c₂, hchanged.1 ▸ hrun, hchanged.2, hrun₂, ⟨c₃, hopt⟩, c₄, hopt₄⟩

end ScriptReduce
