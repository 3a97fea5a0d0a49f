/-
ScriptReduce.Proofs.Symbol.Lexical: names without `var` are lexical.

In a program whose lists of declarations are all `let` or `const` and stand in
the statements of a source file or of a block, an identifier refers to what the
nearest scope around it declares last under its name, wherever in that scope it
stands (`SymbolTable.ofTree_lexical`). Where no scope around it declares the
name, it refers to nothing.

A scope is filled when it is entered, and the walk through it declares nothing
any more: all that it meets has been declared before. That each scope is filled
completely is the point of the proof. A declaration is passed over if it was met
before, so when a scope is entered none of its declarations may have been; this
holds since each of them stands in one scope only and no scope is entered twice
(`Binding.Ready.fresh`).
-/
import ScriptReduce.Proofs.Symbol.Declarations

namespace ScriptReduce

open ScriptReduce.Tree Relation

variable {t : Tree} {r s x y z d : NodeId} {opened : List NodeId} {b b' : Binding} {name : String}

/-! ## 1. Where the walk is -/

/-- The open scopes when the walk comes to a node: those around it, the innermost
first. -/
structure Tree.Enclosed (t : Tree) (r : NodeId) (opened : List NodeId) (x : NodeId) : Prop where
  reaches : t.Reaches r x
  around : ∀ s ∈ opened, t.ScopeAround r s x
  all : ∀ s, t.ScopeAround r s x → s ≠ x → s ∈ opened
  nested : opened.Pairwise fun inner outer => t.Reaches outer inner

namespace Tree.Enclosed

theorem child (h : t.Enclosed r opened x) (ht : t.Consistent) (hx : ¬t.OpensScope x)
    (hy : t.Holds x y) : t.Enclosed r opened y where
  reaches := h.reaches.trans_holds hy
  around s hs := by
    obtain ⟨hopens, hrs, hsx⟩ := h.around s hs
    exact ⟨hopens, hrs, hsx.trans_holds hy⟩
  all s hs hne := by
    obtain ⟨hopens, hrs, hsy⟩ := hs
    refine h.all s ⟨hopens, hrs, ht.reaches_holder hsy hne hy⟩ ?_
    rintro rfl
    exact hx hopens
  nested := h.nested

/-- A scope is open for what it holds. -/
theorem inner (h : t.Enclosed r opened x) (ht : t.Consistent) (hx : t.OpensScope x)
    (hy : t.Holds x y) : t.Enclosed r (x :: opened) y where
  reaches := h.reaches.trans_holds hy
  around s hs := by
    rcases List.mem_cons.1 hs with rfl | hs
    · exact ⟨hx, h.reaches, .single hy⟩
    · obtain ⟨hopens, hrs, hsx⟩ := h.around s hs
      exact ⟨hopens, hrs, hsx.trans_holds hy⟩
  all s hs hne := by
    obtain ⟨hopens, hrs, hsy⟩ := hs
    by_cases hsx : s = x
    · exact hsx ▸ List.mem_cons_self
    · exact List.mem_cons_of_mem x (h.all s ⟨hopens, hrs, ht.reaches_holder hsy hne hy⟩ hsx)
  nested := List.pairwise_cons.2 ⟨fun s hs => (h.around s hs).2.2, h.nested⟩

theorem root (ht : t.Consistent) (r : NodeId) : t.Enclosed r [] r where
  reaches := .refl
  around s hs := by cases hs
  all s hs hne := by
    obtain ⟨-, hrs, hsr⟩ := hs
    rcases ReflTransGen.cases_head hrs with heq | ⟨y, hry, hys⟩
    · exact absurd heq.symm hne
    · exact absurd (hys.trans hsr) (ht.not_reaches_of_holds hry)
  nested := .nil

end Tree.Enclosed

/-- A record says what it should: the identifier refers to the symbol of what the
nearest scope declares last under its name. -/
def Right (t : Tree) (r : NodeId) (table : SymbolTable) (entry : NodeId × SymbolId) : Prop :=
  ∃ name s e, t.shape entry.1 = .ok (.identifier name) ∧ t.Nearest r entry.1 name s ∧
    Latest (t.declarations s) name e ∧ table.Has entry.2 e

theorem Right.mono {table table' : SymbolTable} {entry : NodeId × SymbolId}
    (h : Right t r table entry) (ht : table.Extends table') : Right t r table' entry := by
  obtain ⟨name, s, e, hshape, hnearest, hlatest, hhas⟩ := h
  exact ⟨name, s, e, hshape, hnearest, hlatest, ht _ _ hhas⟩

namespace Binding

/-- How binding stands when the walk comes to a node: each open scope has all its
names, and no declaration of a scope that is still to be entered has been met. -/
structure Ready (t : Tree) (r : NodeId) (opened : List NodeId) (x : NodeId) (b : Binding) : Prop
    where
  enclosed : t.Enclosed r opened x
  scopes : List.Forall₂ (fun scope s => Represents b.table scope (t.declarations s)) b.scopes opened
  marked : ∀ s ∈ opened, ∀ e ∈ t.items s, e.2 ∈ b.declared
  fresh : ∀ s, t.Reaches x s → ∀ e ∈ t.items s, e.2 ∉ b.declared
  right : ∀ entry ∈ b.table.resolutions, Right t r b.table entry

/-- What a walk through some nodes comes to: every identifier below them is
recorded if a scope around it declares its name, and only their scopes have been
entered. -/
structure Walked (t : Tree) (r : NodeId) (xs : List NodeId) (b b' : Binding) : Prop where
  scopes : b'.scopes = b.scopes
  extend : b.table.Extends b'.table
  kept : ∀ entry ∈ b.table.resolutions, entry ∈ b'.table.resolutions
  right : ∀ entry ∈ b'.table.resolutions, Right t r b'.table entry
  recorded : ∀ x ∈ xs, ∀ y name s, t.Reaches x y → t.shape y = .ok (.identifier name) →
    t.ScopeAround r s y → t.Declares s name → ∃ id, (y, id) ∈ b'.table.resolutions
  marked : ∀ d ∈ b.declared, d ∈ b'.declared
  declared : ∀ d ∈ b'.declared, d ∈ b.declared ∨ ∃ x ∈ xs, ∃ s, t.Reaches x s ∧
    ∃ e ∈ t.items s, e.2 = d

namespace Walked

variable {xs ys : List NodeId} {b₁ : Binding}

theorem nil (h : ∀ entry ∈ b.table.resolutions, Right t r b.table entry) :
    Walked t r [] b b :=
  ⟨rfl, .refl _, fun _ h => h, h, by simp, fun _ h => h, fun _ h => .inl h⟩

theorem append (h : Walked t r xs b b₁) (h' : Walked t r ys b₁ b') :
    Walked t r (xs ++ ys) b b' where
  scopes := h'.scopes.trans h.scopes
  extend := h.extend.trans h'.extend
  kept entry hentry := h'.kept entry (h.kept entry hentry)
  right := h'.right
  recorded x hx y name s hxy hy hs hdeclares := by
    rcases List.mem_append.1 hx with hx | hx
    · obtain ⟨id, hid⟩ := h.recorded x hx y name s hxy hy hs hdeclares
      exact ⟨id, h'.kept _ hid⟩
    · exact h'.recorded x hx y name s hxy hy hs hdeclares
  marked d hd := h'.marked d (h.marked d hd)
  declared d hd := by
    rcases h'.declared d hd with hd | ⟨x, hx, hd⟩
    · exact (h.declared d hd).imp_right fun ⟨x, hx, hd⟩ => ⟨x, List.mem_append_left ys hx, hd⟩
    · exact .inr ⟨x, List.mem_append_right xs hx, hd⟩

/-- A walk through what a node holds is one through the node, if that is no
identifier. -/
theorem of_children (h : Walked t r xs b b') (hx : ∀ name, t.shape x ≠ .ok (.identifier name))
    (hxs : ∀ y, t.Holds x y ↔ y ∈ xs) : Walked t r [x] b b' where
  scopes := h.scopes
  extend := h.extend
  kept := h.kept
  right := h.right
  recorded z hz y name s hzy hy hs hdeclares := by
    obtain rfl := List.mem_singleton.1 hz
    rcases ReflTransGen.cases_head hzy with rfl | ⟨w, hzw, hwy⟩
    · exact absurd hy (hx name)
    · exact h.recorded w ((hxs w).1 hzw) y name s hwy hy hs hdeclares
  marked := h.marked
  declared d hd := (h.declared d hd).imp_right fun ⟨w, hw, s, hws, he⟩ =>
    ⟨x, List.mem_singleton.2 rfl, s, ReflTransGen.head ((hxs w).2 hw) hws, he⟩

end Walked

/-- After a walk through one node, binding is ready for another that has nothing
below it in common. -/
theorem Ready.after {b₁ : Binding} (h : Ready t r opened y b) (hw : Walked t r [x] b b₁)
    (ht : t.Consistent) (hdisjoint : ∀ s, t.Reaches x s → ¬t.Reaches y s) :
    Ready t r opened y b₁ where
  enclosed := h.enclosed
  scopes := by
    rw [hw.scopes]
    exact h.scopes.imp fun _ _ hrep => hrep.mono hw.extend
  marked s hs e he := hw.marked e.2 (h.marked s hs e he)
  fresh s hs e he hd := by
    rcases hw.declared e.2 hd with hd | ⟨z, hz, s', hzs', e', he', heq⟩
    · exact h.fresh s hs e he hd
    · obtain rfl := List.mem_singleton.1 hz
      obtain rfl := ht.scope_eq he' he heq
      exact hdisjoint _ hzs' hs
  right := hw.right

/-- A walk along nodes that have nothing below them in common. -/
theorem exists_walk {f : Binding → NodeId → Except Fault Binding} (ht : t.Consistent)
    {xs : List NodeId}
    (hf : ∀ {b x}, x ∈ xs → Ready t r opened x b → ∃ b', f b x = .ok b' ∧ Walked t r [x] b b')
    (hxs : xs.Pairwise fun x y => ∀ s, t.Reaches x s → ¬t.Reaches y s) :
    ∀ {b : Binding}, (∀ x ∈ xs, Ready t r opened x b) →
      (∀ entry ∈ b.table.resolutions, Right t r b.table entry) →
      ∃ b', xs.foldlM f b = .ok b' ∧ Walked t r xs b b' := by
  induction xs with
  | nil =>
    intro b _ hright
    exact ⟨b, rfl, .nil hright⟩
  | cons x xs ih =>
    intro b hready _
    obtain ⟨hx, hrest⟩ := List.forall_mem_cons.1 hready
    obtain ⟨hdisjoint, hpairs⟩ := List.pairwise_cons.1 hxs
    obtain ⟨b₁, h₁, hw₁⟩ := hf List.mem_cons_self hx
    obtain ⟨b', h', hw'⟩ := ih (fun hy => hf (List.mem_cons_of_mem x hy)) hpairs
      (fun y hy => (hrest y hy).after hw₁ ht (hdisjoint y hy)) hw₁.right
    exact ⟨b', foldlM_cons_eq_ok.2 ⟨b₁, h₁, h'⟩, hw₁.append hw'⟩

/-! ## 2. The walk -/

/-- A name refers to what the innermost scope that declares it declares last. -/
theorem lookup_declares {table : SymbolTable} {scopes : List Scope}
    (h : List.Forall₂ (fun scope s => Represents table scope (t.declarations s)) scopes opened)
    (name : String) :
    (lookup scopes name = none ∧ ∀ s ∈ opened, ¬t.Declares s name) ∨
      ∃ inner s outer e id, opened = inner ++ s :: outer ∧ (∀ o ∈ inner, ¬t.Declares o name) ∧
        lookup scopes name = some id ∧ Latest (t.declarations s) name e ∧ table.Has id e := by
  have hno : ∀ s, (∃ scope, Represents table scope (t.declarations s) ∧
      scope.lookup name = none) → ¬t.Declares s name := by
    rintro s ⟨scope, hrep, hnone⟩ ⟨e, he, hname⟩
    rcases hrep name with ⟨-, hno⟩ | ⟨_, _, hsome, -⟩
    · exact hno e he hname
    · rw [hnone] at hsome
      cases hsome
  rcases lookup_cases h name with
    ⟨hnone, hall⟩ | ⟨inner, s, outer, scope, id, rfl, hinner, hrep, hname, hsome⟩
  · exact .inl ⟨hnone, fun s hs => hno s (hall s hs)⟩
  · rcases hrep name with ⟨hnone, -⟩ | ⟨e, id', hname', hlatest, hhas⟩
    · rw [hname] at hnone
      cases hnone
    · obtain rfl := Option.some.inj (hname.symm.trans hname')
      exact .inr ⟨inner, s, outer, e, id, rfl, fun o ho => hno o (hinner o ho), hsome, hlatest,
        hhas⟩

/-- At an identifier the open scopes are all the scopes around it. -/
theorem Ready.refer (h : Ready t r opened x b) (hx : t.shape x = .ok (.identifier name)) :
    Walked t r [x] b (b.refer x name) := by
  have hclosed : ¬t.OpensScope x := not_opensScope hx id
  have hopened : ∀ s, t.ScopeAround r s x → s ∈ opened := by
    intro s hs
    refine h.enclosed.all s hs ?_
    rintro rfl
    exact hclosed hs.1
  -- an identifier holds nothing
  have hleaf : ∀ {y}, t.Reaches x y → y = x := by
    intro y hxy
    rcases ReflTransGen.cases_head hxy with heq | ⟨z, ⟨n, hn, hz⟩, -⟩
    · exact heq.symm
    · rw [shape_of_get? hn] at hx
      rw [Except.ok.inj hx] at hz
      cases hz
  unfold Binding.refer
  rcases lookup_declares h.scopes name with
    ⟨hnone, hno⟩ | ⟨inner, s, outer, e, id, heq, hinner, hsome, hlatest, hhas⟩
  · rw [hnone]
    refine ⟨rfl, .refl _, fun _ he => he, h.right, fun z hz y name' s hzy hy hs hdeclares => ?_,
      fun _ hd => hd, fun _ hd => .inl hd⟩
    obtain rfl := List.mem_singleton.1 hz
    obtain rfl := hleaf hzy
    rw [hx] at hy
    cases hy
    exact absurd hdeclares (hno s (hopened s hs))
  · rw [hsome]
    have hnested := h.enclosed.nested
    rw [heq] at hnested
    have hnearest : t.Nearest r x name s := by
      refine ⟨h.enclosed.around s (by simp [heq]), hlatest.declares, fun s' hs' hdeclares => ?_⟩
      have hmem := hopened s' hs'
      rw [heq] at hmem
      rcases List.mem_append.1 hmem with hmem | hmem
      · exact absurd hdeclares (hinner s' hmem)
      · rcases List.mem_cons.1 hmem with rfl | hmem
        · exact .refl
        · exact (List.pairwise_cons.1 (List.pairwise_append.1 hnested).2.1).1 s' hmem
    have hright : Right t r b.table (x, id) := ⟨name, s, e, hx, hnearest, hlatest, hhas⟩
    refine ⟨rfl, .refl _, fun _ he => List.mem_cons_of_mem _ he,
      List.forall_mem_cons.2 ⟨hright, h.right⟩, fun z hz y name' s hzy hy hs hdeclares => ?_,
      fun _ hd => hd, fun _ hd => .inl hd⟩
    obtain rfl := List.mem_singleton.1 hz
    obtain rfl := hleaf hzy
    exact ⟨id, List.mem_cons_self⟩

section

variable {f : Binding → NodeId → Except Fault Binding} {n : Node}

/-- What a node holds that is no scope is walked through with the same scopes. -/
theorem Ready.children (h : Ready t r opened x b) (ht : t.Consistent) (hx : ¬t.OpensScope x)
    (hn : t.get? x = some n) (hname : ∀ name, n.shape ≠ .identifier name)
    (hf : ∀ {b y}, y ∈ n.shape.children → Ready t r opened y b →
      ∃ b', f b y = .ok b' ∧ Walked t r [y] b b') :
    ∃ b', n.shape.children.foldlM f b = .ok b' ∧ Walked t r [x] b b' := by
  have hready : ∀ y ∈ n.shape.children, Ready t r opened y b := by
    intro y hy
    have hholds : t.Holds x y := ⟨n, hn, hy⟩
    exact ⟨h.enclosed.child ht hx hholds, h.scopes, h.marked,
      fun s hs => h.fresh s (ReflTransGen.head hholds hs), h.right⟩
  obtain ⟨b', h', hw⟩ := exists_walk ht hf (ht.pairwise_children hn) hready h.right
  refine ⟨b', h', hw.of_children (fun name hs => ?_) fun y => holds_iff hn⟩
  rw [shape_of_get? hn] at hs
  exact hname name (Except.ok.inj hs)

/-- A scope is filled with all its names when it is entered. -/
theorem Ready.enter (h : Ready t r opened x b) (ht : t.Consistent) (hl : t.Lexical r)
    {ss : List NodeId} (hss : t.statements x = ss) (hx : t.OpensScope x) :
    ∃ b₁, b.enter t ss = .ok b₁ ∧ (∀ y, t.Holds x y → Ready t r (x :: opened) y b₁) ∧
      b₁.scopes.tail = b.scopes ∧ b.table.Extends b₁.table ∧
      b₁.table.resolutions = b.table.resolutions ∧
      ∀ d, d ∈ b₁.declared ↔ d ∈ (t.items x).map Prod.snd ∨ d ∈ b.declared := by
  subst hss
  have hitems : ∀ e ∈ t.items x, e.1.isBlockScoped = true ∧ e.2.index < t.size := by
    intro e he
    obtain ⟨-, v, l, ds, hxv, hvl, hld, hlist⟩ := of_mem_items he
    have hreach := ((h.enclosed.reaches.trans_holds hxv).trans_holds hvl)
    exact ⟨hl.kind l e.1 ds hreach hlist, ht.children l e.2 hld⟩
  obtain ⟨b₁, scope, h₁, hscopes, hrep, hext, hres, hdeclared⟩ :=
    exists_declareItems (b := { b with scopes := [] :: b.scopes }) ht.children hitems
      (ht.nodup_items x) (h.fresh x .refl) rfl (.nil _)
  rw [List.nil_append] at hrep
  refine ⟨b₁, ?_, fun y hxy => ⟨h.enclosed.inner ht hx hxy, ?_, ?_, ?_, ?_⟩, ?_, hext, hres,
    hdeclared⟩
  · rw [enter_eq ht.children b fun v hv => ht.children x v (of_mem_statements hv).2]
    exact h₁
  · rw [hscopes]
    exact .cons hrep (h.scopes.imp fun _ _ hrep => hrep.mono hext)
  · intro s hs e he
    rw [hdeclared]
    rcases List.mem_cons.1 hs with rfl | hs
    · exact .inl (List.mem_map_of_mem he)
    · exact .inr (h.marked s hs e he)
  · intro s hys e he hd
    rcases (hdeclared e.2).1 hd with hd | hd
    · -- what was declared just now belongs to the scope above
      obtain ⟨e', he', heq⟩ := List.mem_map.1 hd
      obtain rfl := ht.scope_eq he' he heq
      exact ht.not_reaches_of_holds hxy hys
    · exact h.fresh s (ReflTransGen.head hxy hys) e he hd
  · rw [hres]
    exact fun entry hentry => (h.right entry hentry).mono hext
  · rw [hscopes]
    rfl

/-- A scope is walked through with its names, and is left as it was entered. -/
theorem Ready.scope (h : Ready t r opened x b) (ht : t.Consistent) (hl : t.Lexical r)
    (hn : t.get? x = some n) {ss : List NodeId}
    (hkind : n.shape = .sourceFile ss ∨ n.shape = .block ss)
    (hf : ∀ {b y}, y ∈ n.shape.children → Ready t r (x :: opened) y b →
      ∃ b', f b y = .ok b' ∧ Walked t r [y] b b') :
    ∃ b₁ b₂, b.enter t ss = .ok b₁ ∧ ss.foldlM f b₁ = .ok b₂ ∧ Walked t r [x] b b₂.leave := by
  have hshape := shape_of_get? hn
  have hopens : t.OpensScope x :=
    ⟨n.shape, hshape, by rcases hkind with hs | hs <;> rw [hs] <;> exact trivial⟩
  have hstatements : t.statements x = ss := by
    rcases hkind with hs | hs
    · exact statements_of_sourceFile (hs ▸ hshape)
    · exact statements_of_block (hs ▸ hshape)
  have hchildren : n.shape.children = ss := by rcases hkind with hs | hs <;> rw [hs] <;> simp
  obtain ⟨b₁, h₁, hready, hscopes, hext, hres, hdeclared⟩ := h.enter ht hl hstatements hopens
  have hright : ∀ entry ∈ b₁.table.resolutions, Right t r b₁.table entry := by
    rw [hres]
    exact fun entry hentry => (h.right entry hentry).mono hext
  obtain ⟨b₂, h₂, hw⟩ := exists_walk ht hf (ht.pairwise_children hn)
    (fun y hy => hready y ⟨n, hn, hy⟩) hright
  have hw' : Walked t r [x] b₁ b₂ := hw.of_children (fun name hs => by
    rw [hshape] at hs
    rcases hkind with hkind | hkind <;> rw [hkind] at hs <;> cases hs) fun y => holds_iff hn
  refine ⟨b₁, b₂, h₁, hchildren ▸ h₂, ?_, hext.trans hw'.extend, fun entry hentry => ?_, hw'.right,
    hw'.recorded, fun d hd => hw'.marked d ((hdeclared d).2 (.inr hd)), fun d hd => ?_⟩
  · rw [leave, hw'.scopes, hscopes]
  · exact hw'.kept entry (hres.symm ▸ hentry)
  · rcases hw'.declared d hd with hd | hd
    · rcases (hdeclared d).1 hd with hd | hd
      · obtain ⟨e, he, rfl⟩ := List.mem_map.1 hd
        exact .inr ⟨x, List.mem_singleton.2 rfl, x, .refl, e, he, rfl⟩
      · exact .inl hd
    · exact .inr hd

end

/-- A list of declarations stands in an open scope, so all of it has been declared. -/
theorem Ready.declareList (h : Ready t r opened x b) (ht : t.Consistent) (hl : t.Lexical r)
    (hroot : t.OpensScope r) {kind : BindingKind} {ds : List NodeId}
    (hx : t.shape x = .ok (.declarationList kind ds)) : b.declareList t x = .ok b := by
  obtain ⟨v, s, hv, hvs⟩ := hl.placed x kind ds h.enclosed.reaches hx
  obtain ⟨hopens, hsv⟩ := of_mem_statements hvs
  have hvx : t.Holds v x := holds_of_shape hv (by simp)
  -- the root is neither the list nor its statement
  have hrx : r ≠ x := by
    rintro rfl
    exact not_opensScope hx id hroot
  have hrv : r ≠ v := by
    rintro rfl
    exact not_opensScope hv id hroot
  have hrs := ht.reaches_holder (ht.reaches_holder h.enclosed.reaches hrx hvx) hrv hsv
  have hopen : s ∈ opened := by
    refine h.enclosed.all s ⟨hopens, hrs, (ReflTransGen.single hsv).tail hvx⟩ ?_
    rintro rfl
    exact not_opensScope hx id hopens
  have hmarked : ∀ e ∈ ds.map (kind, ·), e.2 ∈ b.declared := by
    intro e he
    obtain ⟨d, hd, rfl⟩ := List.mem_map.1 he
    exact h.marked s hopen (kind, d) (List.mem_flatMap.2 ⟨v, hvs, mem_listed hv hx hd⟩)
  rw [declareList_eq hx]
  exact declareItems_of_mem hmarked

/-- A walk comes to an end within a depth beyond the rank of its node, and records
what its identifiers refer to. -/
theorem Ready.visit (ht : t.Consistent) (hl : t.Lexical r) (hroot : t.OpensScope r) {depth : Nat} :
    ∀ {b : Binding} {x : NodeId} {opened : List NodeId}, Ready t r opened x b → x.index < t.size →
      t.rank x < depth → ∃ b', visitWithin t depth b x = .ok b' ∧ Walked t r [x] b b' := by
  induction depth with
  | zero =>
    intro b x opened _ _ hdepth
    omega
  | succ depth ih =>
    intro b x opened h hinside hdepth
    obtain ⟨n, hn⟩ := exists_get? hinside
    have hshape := shape_of_get? hn
    have hbelow : ∀ {opened : List NodeId} {b : Binding} {y : NodeId}, y ∈ n.shape.children →
        Ready t r opened y b → ∃ b', visitWithin t depth b y = .ok b' ∧ Walked t r [y] b b' := by
      intro opened b y hy hready
      have hrank := rank_lt_of_holds ⟨n, hn, hy⟩ (ht.acyclic x)
      exact ih hready (ht.children x y ⟨n, hn, hy⟩) (by omega)
    cases hs : n.shape with
    | sourceFile ss | block ss =>
      have hkind : n.shape = .sourceFile ss ∨ n.shape = .block ss := by simp [hs]
      obtain ⟨b₁, b₂, h₁, h₂, hw⟩ := h.scope ht hl hn hkind hbelow
      exact ⟨b₂.leave, visit_scope hshape hkind h₁ h₂, hw⟩
    | declarationList kind ds =>
      obtain ⟨b', h', hw⟩ := h.children ht (not_opensScope hshape (by rw [hs]; exact id)) hn
        (by simp [hs]) hbelow
      rw [hs, Shape.children_declarationList] at h'
      exact ⟨b', visit_list (hs ▸ hshape) (h.declareList ht hl hroot (hs ▸ hshape)) h', hw⟩
    | identifier name =>
      exact ⟨b.refer x name, visit_identifier (hs ▸ hshape), h.refer (hs ▸ hshape)⟩
    | _ =>
      have hclosed : ¬n.shape.OpensScope := by rw [hs]; exact id
      rw [visit_other hshape hclosed (by simp [hs]) (by simp [hs])]
      exact h.children ht (not_opensScope hshape hclosed) hn (by simp [hs]) hbelow

end Binding

/-! ## 3. What identifiers refer to -/

/-- The symbol of a declaration: a table has it, and no other for that declaration. -/
def SymbolTable.SymbolOf (table : SymbolTable) (e : Declared) (symbol : Symbol) : Prop :=
  (symbol.name = e.name ∧ symbol.kind = e.kind ∧ symbol.declaration = some e.node) ∧
    table.get? symbol.id = some symbol ∧
    ∀ id symbol', table.get? id = some symbol' → symbol'.declaration = some e.node →
      id = symbol.id

namespace Binding

/-- Before the walk there is nothing but the root to come to. -/
theorem Ready.start (ht : t.Consistent) (r : NodeId) : Ready t r [] r .start where
  enclosed := .root ht r
  scopes := .nil
  marked s hs := by cases hs
  fresh _ _ _ _ hd := by cases hd
  right _ hentry := by cases hentry

end Binding

/-- In a program whose lists of declarations are all without `var` and stand in
the statements of scopes, an identifier refers to the symbol of what the nearest
scope around it that declares its name declares last under it, and to nothing if
no scope around it declares its name. -/
theorem SymbolTable.ofTree_lexical (ht : t.Consistent) (hr : t.root = some r)
    (hl : t.Lexical r) :
    ∃ table, SymbolTable.ofTree t = .ok table ∧
      ∀ x name, t.Reaches r x → t.shape x = .ok (.identifier name) →
        (∃ s e symbol, t.Nearest r x name s ∧ Latest (t.declarations s) name e ∧
          table.SymbolOf e symbol ∧ table.resolve x = some symbol) ∨
        ((∀ s, t.ScopeAround r s x → ¬t.Declares s name) ∧ table.resolve x = none) := by
  obtain ⟨_, n, statements, hr', hn, hs⟩ := ht.root
  obtain rfl := Option.some.inj (hr.symm.trans hr')
  have hroot : t.OpensScope r := ⟨n.shape, shape_of_get? hn, by rw [hs]; exact trivial⟩
  obtain ⟨b, hb, hw⟩ := (Binding.Ready.start ht r).visit ht hl hroot
    (lt_size_of_get? hn) (Nat.lt_succ_of_le (rank_le_size t r))
  have htable : SymbolTable.ofTree t = .ok b.table := by
    rw [ofTree, hr]
    simp only
    rw [bind_of_ok _ (show Binding.start.visitWithin t t.depthLimit r = .ok b from hb)]
    rfl
  refine ⟨b.table, htable, fun x name hx hshape => ?_⟩
  cases hid : b.table.resolutions.lookup x with
  | none =>
    refine .inr ⟨fun s hs hdeclares => ?_, by rw [resolve, resolution?, hid]; rfl⟩
    obtain ⟨id, hmem⟩ := hw.recorded r (by simp) x name s hx hshape hs hdeclares
    simpa using List.lookup_eq_none_iff.1 hid _ hmem
  | some id =>
    obtain ⟨before, after, heq, -⟩ := List.lookup_eq_some_iff.1 hid
    obtain ⟨name', s, e, hshape', hnearest, hlatest, hhas⟩ := hw.right (x, id) (by simp [heq])
    rw [hshape] at hshape'
    cases hshape'
    refine .inl ⟨s, e, ⟨id, e.name, e.kind, some e.node⟩, hnearest, hlatest,
      ⟨⟨rfl, rfl, rfl⟩, hhas, fun id' symbol' hid' hd => ?_⟩, ?_⟩
    · exact ofTree_unrepeated htable hid' hhas hd
    · rw [resolve, resolution?, hid]
      exact hhas

namespace Sample

/-- The program `{ x; let x, x = y; } x; let y;`. -/
def hoisted : Tree where
  nodes := #[
    ⟨.identifier "x", some ⟨1⟩, none⟩,
    ⟨.expressionStatement ⟨0⟩, some ⟨9⟩, none⟩,
    ⟨.identifier "x", some ⟨3⟩, none⟩,
    ⟨.declaration ⟨2⟩ none, some ⟨7⟩, none⟩,
    ⟨.identifier "x", some ⟨6⟩, none⟩,
    ⟨.identifier "y", some ⟨6⟩, none⟩,
    ⟨.declaration ⟨4⟩ (some ⟨5⟩), some ⟨7⟩, none⟩,
    ⟨.declarationList .blockVariable [⟨3⟩, ⟨6⟩], some ⟨8⟩, none⟩,
    ⟨.variableStatement ⟨7⟩, some ⟨9⟩, none⟩,
    ⟨.block [⟨1⟩, ⟨8⟩], some ⟨16⟩, none⟩,
    ⟨.identifier "x", some ⟨11⟩, none⟩,
    ⟨.expressionStatement ⟨10⟩, some ⟨16⟩, none⟩,
    ⟨.identifier "y", some ⟨13⟩, none⟩,
    ⟨.declaration ⟨12⟩ none, some ⟨14⟩, none⟩,
    ⟨.declarationList .blockVariable [⟨13⟩], some ⟨15⟩, none⟩,
    ⟨.variableStatement ⟨14⟩, some ⟨16⟩, none⟩,
    ⟨.sourceFile [⟨9⟩, ⟨11⟩, ⟨15⟩], none, none⟩]
  root := some ⟨16⟩

theorem hoisted_consistent : hoisted.Consistent :=
  (Built.wellFormed ⟨by decide +kernel, by decide +kernel, by decide +kernel, by decide +kernel,
    by decide +kernel, by decide +kernel⟩).consistent

theorem hoisted_lexical : hoisted.Lexical ⟨16⟩ := by
  have hlists : ∀ {l kind ds}, hoisted.shape l = .ok (.declarationList kind ds) →
      l = ⟨7⟩ ∨ l = ⟨14⟩ := by
    intro l kind ds h
    obtain ⟨n, hn, hs⟩ := shape_eq_ok.1 h
    obtain ⟨i, rfl, rfl⟩ := exists_fin hn
    have hall : ∀ i : Fin hoisted.nodes.size,
        (hoisted.nodeAt i).shape.kindName = "VariableDeclarationList" →
        (⟨i⟩ : NodeId) = ⟨7⟩ ∨ (⟨i⟩ : NodeId) = ⟨14⟩ := by decide +kernel
    exact hall i (by rw [hs]; rfl)
  constructor <;> intro l kind ds _ h
  · rcases hlists h with rfl | rfl <;> cases h <;> rfl
  · rcases hlists h with rfl | rfl
    · exact ⟨⟨8⟩, ⟨9⟩, rfl, by decide⟩
    · exact ⟨⟨15⟩, ⟨16⟩, rfl, by decide⟩

/-- Its names and what they refer to. -/
def hoistedNames : SymbolTable where
  symbols := #[
    ⟨⟨0⟩, "y", .blockVariable, some ⟨13⟩⟩,
    ⟨⟨1⟩, "x", .blockVariable, some ⟨3⟩⟩,
    ⟨⟨2⟩, "x", .blockVariable, some ⟨6⟩⟩]
  resolutions := [(⟨12⟩, ⟨0⟩), (⟨5⟩, ⟨0⟩), (⟨4⟩, ⟨2⟩), (⟨2⟩, ⟨2⟩), (⟨0⟩, ⟨2⟩)]

theorem ofTree_hoisted : SymbolTable.ofTree hoisted = .ok hoistedNames := by decide +kernel

end Sample

/-- In the block `x` is the one declared last there, below its use; the `y` is
that of the source file. After the block there is no `x`. -/
theorem SymbolTable.ofTree_lexical_hoisted :
    Sample.hoisted.Consistent ∧ Sample.hoisted.root = some ⟨16⟩ ∧ Sample.hoisted.Lexical ⟨16⟩ ∧
      (∃ s e, Sample.hoisted.Nearest ⟨16⟩ ⟨0⟩ "x" s ∧
        Latest (Sample.hoisted.declarations s) "x" e ∧ e.node = ⟨6⟩) ∧
      (∃ s e, Sample.hoisted.Nearest ⟨16⟩ ⟨5⟩ "y" s ∧
        Latest (Sample.hoisted.declarations s) "y" e ∧ e.node = ⟨13⟩) ∧
      ∀ s, Sample.hoisted.ScopeAround ⟨16⟩ s ⟨10⟩ → ¬Sample.hoisted.Declares s "x" := by
  obtain ⟨table, htable, h⟩ :=
    SymbolTable.ofTree_lexical Sample.hoisted_consistent rfl Sample.hoisted_lexical
  obtain rfl := Except.ok.inj (Sample.ofTree_hoisted.symm.trans htable)
  refine ⟨Sample.hoisted_consistent, rfl, Sample.hoisted_lexical, ?_, ?_, ?_⟩
  · have hpath := reaches_of_path (show List.IsChain Sample.hoisted.Holds
      [⟨16⟩, ⟨9⟩, ⟨1⟩, ⟨0⟩] by decide) (by simp)
    rcases h ⟨0⟩ "x" hpath rfl with ⟨s, e, symbol, hs, he, ⟨⟨-, -, hd⟩, -⟩, hx⟩ | ⟨-, hx⟩
    · cases hx
      exact ⟨s, e, hs, he, (Option.some.inj hd).symm⟩
    · cases hx
  · have hpath := reaches_of_path (show List.IsChain Sample.hoisted.Holds
      [⟨16⟩, ⟨9⟩, ⟨8⟩, ⟨7⟩, ⟨6⟩, ⟨5⟩] by decide) (by simp)
    rcases h ⟨5⟩ "y" hpath rfl with ⟨s, e, symbol, hs, he, ⟨⟨-, -, hd⟩, -⟩, hx⟩ | ⟨-, hx⟩
    · cases hx
      exact ⟨s, e, hs, he, (Option.some.inj hd).symm⟩
    · cases hx
  · have hpath := reaches_of_path (show List.IsChain Sample.hoisted.Holds
      [⟨16⟩, ⟨11⟩, ⟨10⟩] by decide) (by simp)
    rcases h ⟨10⟩ "x" hpath rfl with ⟨s, e, symbol, hs, he, -, hx⟩ | ⟨hno, -⟩
    · cases hx
    · exact hno

end ScriptReduce
