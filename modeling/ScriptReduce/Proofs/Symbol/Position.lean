/-
ScriptReduce.Proofs.Symbol.Position: whether it matters where a name stands.

All declarations in the statements of a scope are met when the scope is opened, so
for them it does not matter where in the scope an identifier stands. A `var` in a
nested block, or a list under an `if` statement, is met only when the walk comes to
it, and an identifier before that does not see it. Two identifiers of one name and
one scope refer to the same thing exactly if this does not part them
(`SymbolTable.ofTree_resolve_eq_iff`).

The name of a declaration is looked up like any other identifier, so it refers to its
own symbol exactly if no other declaration of the name that has been met comes before
its own: none in a scope further in, and none later in the same scope
(`SymbolTable.ofTree_resolve_name_iff`).
-/
import ScriptReduce.Proofs.Symbol.Foremost

namespace ScriptReduce

open ScriptReduce.Tree Relation

variable {t : Tree} {r s s' x y d : NodeId} {order : List NodeId} {name : String}
  {kind kind' : BindingKind}

/-! ## 1. Names in scopes -/

/-- An identifier of a name, with its innermost scope. -/
structure Tree.Occurs (t : Tree) (r s : NodeId) (name : String) (x : NodeId) : Prop where
  reaches : t.Reaches r x
  identifier : t.shape x = .ok (.identifier name)
  opens : t.OpensScope s
  innermost : t.ReachesInScope s x

/-- A declaration of a name in a list under some keyword, with the scope it belongs to. -/
structure Tree.Belongs (t : Tree) (r s : NodeId) (name : String) (kind : BindingKind)
    (d : NodeId) : Prop where
  listed : t.Listed r (kind, d)
  named : t.nameOf? d = some name
  scope : t.ScopeOf r kind s d

namespace Tree.Consistent

/-- A declaration stands under one keyword. -/
theorem kind_eq (ht : t.Consistent) (h : t.Listed r (kind, d)) (h' : t.Listed r (kind', d)) :
    kind = kind' := by
  obtain ⟨l, ds, -, hl, hd⟩ := h
  obtain ⟨l', ds', -, hl', hd'⟩ := h'
  have hholds : t.Holds l d := holds_of_shape hl (by simpa using hd)
  obtain rfl := ht.holder_eq hholds (holds_of_shape hl' (by simpa using hd'))
  rw [hl] at hl'
  cases hl'
  rfl

/-- A declaration belongs to one scope. -/
theorem scopeOf_eq (ht : t.Consistent) (h : t.ScopeOf r kind s d) (h' : t.ScopeOf r kind s' d) :
    s = s' := by
  unfold ScopeOf at h h'
  split at h
  · rename_i hkind
    rw [if_pos hkind] at h'
    exact ht.innermost_eq h.1 h'.1 h.2 h'.2
  · rename_i hkind
    rw [if_neg hkind] at h'
    exact h.1.trans h'.1.symm

/-- The scopes around an identifier are those around its innermost scope. -/
theorem scopeAround_iff (ht : t.Consistent) (hx : t.Occurs r s name x) :
    t.ScopeAround r s' x ↔ t.OpensScope s' ∧ t.Reaches r s' ∧ t.Reaches s' s := by
  constructor
  · rintro ⟨hopens, hrs, hsx⟩
    exact ⟨hopens, hrs, ht.reaches_innermost hx.innermost hopens hsx⟩
  · rintro ⟨hopens, hrs, hss⟩
    exact ⟨hopens, hrs, hss.trans hx.innermost.reaches⟩

/-- What is announced above a node has been met when the walk comes to the node. -/
theorem met_of_announced {e : BindingKind × NodeId} (ht : t.Consistent)
    (horder : t.preorder r = .ok order) (hy : t.Reaches r y) (hyx : t.Reaches y x) (hne : y ≠ x)
    (he : e ∈ t.announced y) : t.Met order x e.2 := by
  obtain ⟨before, after, rfl⟩ :=
    List.append_of_mem ((mem_preorderWithin horder).2 (hy.trans hyx))
  refine ⟨before, after, rfl, List.mem_map_of_mem (List.mem_flatMap.2 ⟨y, ?_, he⟩)⟩
  have hmem := (mem_preorderWithin horder).2 hy
  rcases List.mem_append.1 hmem with hmem | hmem
  · exact hmem
  · -- nothing above the node comes after it
    rcases List.mem_cons.1 hmem with rfl | hmem
    · exact absurd rfl hne
    · have hpairs := (List.pairwise_append.1 (ht.pairwise_preorderWithin horder)).2.1
      exact absurd hyx ((List.pairwise_cons.1 hpairs).1 y hmem)

end Tree.Consistent

theorem Tree.announced_of_opensScope (h : t.OpensScope s) : t.announced s = t.items s := by
  obtain ⟨shape, hs, hopens⟩ := h
  unfold announced
  rw [hs]
  cases shape with
  | declarationList kind ds => cases hopens
  | _ => rfl

/-- What stands in the statements of a scope has been met before any identifier in the
scope. -/
theorem Tree.Occurs.met_of_items {e : BindingKind × NodeId} (hx : t.Occurs r s name x)
    (ht : t.Consistent) (horder : t.preorder r = .ok order) (hs' : t.ScopeAround r s' x)
    (he : e ∈ t.items s') : t.Met order x e.2 := by
  obtain ⟨hopens, hrs, hsx⟩ := hs'
  rw [← announced_of_opensScope hopens] at he
  refine ht.met_of_announced horder hrs hsx ?_ he
  rintro rfl
  exact not_opensScope hx.identifier (fun h => h) hopens

/-- There is an innermost scope around whatever stands below a scope. -/
theorem Tree.exists_innermost (hr : t.OpensScope r) (h : t.Reaches r x) :
    ∃ s, t.OpensScope s ∧ t.Reaches r s ∧ t.ReachesInScope s x := by
  induction h with
  | refl => exact ⟨r, hr, .refl, .refl⟩
  | @tail p x hrp hpx ih =>
    by_cases hx : t.OpensScope x
    · exact ⟨x, hx, hrp.tail hpx, .refl⟩
    · obtain ⟨s, hs, hrs, hsp⟩ := ih
      exact ⟨s, hs, hrs, hsp.tail ⟨hpx, hx⟩⟩

theorem Tree.exists_scopeOf (hr : t.OpensScope r) (h : t.Reaches r d) (kind : BindingKind) :
    ∃ s, t.ScopeOf r kind s d ∧ t.OpensScope s ∧ t.Reaches r s := by
  by_cases hkind : kind.isBlockScoped = true
  · obtain ⟨s, hs, hrs, hsd⟩ := exists_innermost hr h
    exact ⟨s, by rw [ScopeOf, if_pos hkind]; exact ⟨hs, hsd⟩, hs, hrs⟩
  · exact ⟨r, by rw [ScopeOf, if_neg hkind]; exact ⟨rfl, h⟩, hr, .refl⟩

/-- What a `let` or `const` statement of a scope declares belongs to that scope. -/
theorem Tree.scopeOf_of_items {e : BindingKind × NodeId} (h : e ∈ t.items s)
    (hkind : e.1.isBlockScoped = true) (hd : ¬t.OpensScope e.2) : t.ScopeOf r e.1 s e.2 := by
  obtain ⟨v, hv, he⟩ := List.mem_flatMap.1 h
  obtain ⟨hopens, hsv⟩ := of_mem_statements hv
  obtain ⟨l, ds, hvs, hls, -, hvl, hld⟩ := of_mem_listed he
  rw [ScopeOf, if_pos hkind]
  have hv : t.ReachesInScope s v := .single ⟨hsv, not_opensScope hvs (fun h => h)⟩
  have hl : t.ReachesInScope s l := hv.tail ⟨hvl, not_opensScope hls (fun h => h)⟩
  exact ⟨hopens, hl.tail ⟨hld, hd⟩⟩

/-- What is listed below a root is announced somewhere in the tree. -/
theorem Tree.Listed.exists_announced {e : BindingKind × NodeId} (h : t.Listed r e) :
    ∃ i : Fin t.nodes.size, e ∈ t.announced ⟨i⟩ := by
  obtain ⟨l, ds, -, hl, hd⟩ := h
  obtain ⟨n, hn, -⟩ := shape_eq_ok.1 hl
  obtain ⟨i, rfl, -⟩ := exists_fin hn
  refine ⟨i, ?_⟩
  rw [announced_of_list hl]
  exact List.mem_map_of_mem hd

/-! ## 2. Two identifiers in one scope -/

section

variable {b : Binding} {table : SymbolTable} {symbol symbol' : Symbol}

/-- What is in view from one identifier of a scope is so from another, if it has been met
there. -/
theorem SymbolTable.InView.of_met (h : table.InView t r order x name s' symbol)
    (ht : t.Consistent) (hx : t.Occurs r s name x) (hy : t.Occurs r s name y)
    (hd : symbol.declaration = some d) (hmet : t.Met order y d) :
    table.InView t r order y name s' symbol where
  has := h.has
  named := h.named
  around := (ht.scopeAround_iff hy).2 ((ht.scopeAround_iff hx).1 h.around)
  introduces := h.introduces
  met := ⟨d, hd, hmet⟩

/-- What one identifier of a scope refers to another does too, if neither misses what the
other refers to. -/
theorem SymbolTable.Resolves.of_met (h : table.Resolves t r order) (ht : t.Consistent)
    (hx : t.Occurs r s name x) (hy : t.Occurs r s name y)
    (hmet : ∀ symbol d, table.resolve x = some symbol ∨ table.resolve y = some symbol →
      symbol.declaration = some d → (t.Met order x d ↔ t.Met order y d))
    (hsymbol : table.resolve x = some symbol) : table.resolve y = some symbol := by
  obtain ⟨s₁, hfore⟩ := (h.eq_some_iff ht hx.reaches hx.identifier).1 hsymbol
  obtain ⟨d, hd, hmetx⟩ := hfore.inView.met
  have hview : table.InView t r order y name s₁ symbol :=
    hfore.inView.of_met ht hx hy hd ((hmet symbol d (.inl hsymbol) hd).1 hmetx)
  rcases h y name hy.reaches hy.identifier with ⟨-, hno⟩ | ⟨s₂, symbol', hsymbol', hfore'⟩
  · exact absurd hview (hno s₁ symbol)
  · obtain ⟨d', hd', hmety⟩ := hfore'.inView.met
    have hview' : table.InView t r order x name s₂ symbol' :=
      hfore'.inView.of_met ht hy hx hd' ((hmet symbol' d' (.inr hsymbol') hd').2 hmety)
    rw [hsymbol', hfore.inView.eq hfore'.inView ht (hfore'.before s₁ symbol hview)
      (hfore.before s₂ symbol' hview')]

/-- What an identifier refers to has been met before it. -/
theorem SymbolTable.Resolves.met (h : table.Resolves t r order) (ht : t.Consistent)
    (hx : t.Occurs r s name x) (hsymbol : table.resolve x = some symbol)
    (hd : symbol.declaration = some d) : t.Met order x d := by
  obtain ⟨_, hfore⟩ := (h.eq_some_iff ht hx.reaches hx.identifier).1 hsymbol
  obtain ⟨d', hd', hmet⟩ := hfore.inView.met
  obtain rfl := Option.some.inj (hd.symm.trans hd')
  exact hmet

/-- A symbol in view is that of a declaration that belongs to its scope. -/
theorem SymbolTable.InView.belongs (h : b.table.InView t r order x name s symbol)
    (haccounts : Binding.Accounts t r ⟨[], order, order.flatMap t.announced, b⟩)
    (hd : symbol.declaration = some d) : t.Belongs r s name symbol.kind d := by
  obtain ⟨-, d', hd', hmem, hname⟩ := haccounts.symbols _ symbol h.has
  obtain rfl := Option.some.inj (hd.symm.trans hd')
  obtain ⟨d', hd', -, hscope⟩ := introduces_iff.1 h.introduces
  obtain rfl := Option.some.inj (hd.symm.trans hd')
  exact ⟨haccounts.listed _ hmem, h.named ▸ hname, hscope⟩

end

/-- Two identifiers of one name in one scope refer to the same symbol, or both to none,
exactly if the declarations of what they refer to have been met before both of them or
before neither. So they do if all declarations of the name that belong to a scope around
them stand in the statements of that scope. -/
theorem SymbolTable.ofTree_resolve_eq_iff (ht : t.Consistent) (hr : t.root = some r) :
    ∃ table order, SymbolTable.ofTree t = .ok table ∧ t.preorder r = .ok order ∧
      ∀ x y name s, t.Occurs r s name x → t.Occurs r s name y →
        (table.resolve x = table.resolve y ↔ ∀ symbol d,
          table.resolve x = some symbol ∨ table.resolve y = some symbol →
          symbol.declaration = some d → (t.Met order x d ↔ t.Met order y d)) ∧
        ((∀ s' kind d, t.ScopeAround r s' x → t.Belongs r s' name kind d →
          (kind, d) ∈ t.items s') → table.resolve x = table.resolve y) := by
  obtain ⟨order, b, horder, htable, haccounts, hresolves⟩ := exists_resolves ht hr
  refine ⟨b.table, order, htable, horder, fun x y name s hx hy => ?_⟩
  have hiff : b.table.resolve x = b.table.resolve y ↔ ∀ symbol d,
      b.table.resolve x = some symbol ∨ b.table.resolve y = some symbol →
      symbol.declaration = some d → (t.Met order x d ↔ t.Met order y d) := by
    constructor
    · -- what both refer to has been met before both
      intro heq symbol d hsymbol hd
      rw [heq, or_self] at hsymbol
      exact iff_of_true (hresolves.met ht hx (heq.trans hsymbol) hd)
        (hresolves.met ht hy hsymbol hd)
    · intro hmet
      refine Option.ext fun symbol => ⟨hresolves.of_met ht hx hy hmet, ?_⟩
      exact hresolves.of_met ht hy hx fun symbol d hsymbol hd =>
        (hmet symbol d hsymbol.symm hd).symm
  refine ⟨hiff, fun hplaced => hiff.2 fun symbol d hsymbol hd => ?_⟩
  -- what stands in the statements of a scope has been met before all that is in the scope
  have hboth : ∀ {z s'}, t.Occurs r s name z → b.table.InView t r order z name s' symbol →
      t.Met order x d ∧ t.Met order y d := by
    intro z s' hz hview
    have hx' := (ht.scopeAround_iff hx).2 ((ht.scopeAround_iff hz).1 hview.around)
    have hy' := (ht.scopeAround_iff hy).2 ((ht.scopeAround_iff hz).1 hview.around)
    have hitem := hplaced s' _ d hx' (hview.belongs haccounts hd)
    exact ⟨hx.met_of_items ht horder hx' hitem, hy.met_of_items ht horder hy' hitem⟩
  rcases hsymbol with hsymbol | hsymbol
  · obtain ⟨_, hfore⟩ := (hresolves.eq_some_iff ht hx.reaches hx.identifier).1 hsymbol
    exact iff_of_true (hboth hx hfore.inView).1 (hboth hx hfore.inView).2
  · obtain ⟨_, hfore⟩ := (hresolves.eq_some_iff ht hy.reaches hy.identifier).1 hsymbol
    exact iff_of_true (hboth hy hfore.inView).1 (hboth hy hfore.inView).2

/-- In the block of `Sample.hoisted` all declarations of `x` stand in statements, so the `x`
above them refers to what the `x` that is declared last does. -/
theorem SymbolTable.ofTree_resolve_eq_iff_hoisted :
    Sample.hoisted.Consistent ∧ Sample.hoisted.root = some ⟨16⟩ ∧
      Sample.hoisted.Occurs ⟨16⟩ ⟨9⟩ "x" ⟨0⟩ ∧ Sample.hoisted.Occurs ⟨16⟩ ⟨9⟩ "x" ⟨4⟩ ∧
      ∃ table, SymbolTable.ofTree Sample.hoisted = .ok table ∧
        table.resolve ⟨0⟩ = table.resolve ⟨4⟩ ∧ table.resolve ⟨0⟩ ≠ none := by
  have hx : Sample.hoisted.Occurs ⟨16⟩ ⟨9⟩ "x" ⟨0⟩ :=
    ⟨reaches_of_path (show List.IsChain Sample.hoisted.Holds [⟨16⟩, ⟨9⟩, ⟨1⟩, ⟨0⟩] by decide)
      (by simp), rfl, by decide, reachesInScope_of_path [⟨9⟩, ⟨1⟩, ⟨0⟩] (by decide) (by simp)⟩
  have hy : Sample.hoisted.Occurs ⟨16⟩ ⟨9⟩ "x" ⟨4⟩ :=
    ⟨reaches_of_path (show List.IsChain Sample.hoisted.Holds
      [⟨16⟩, ⟨9⟩, ⟨8⟩, ⟨7⟩, ⟨6⟩, ⟨4⟩] by decide) (by simp), rfl, by decide,
      reachesInScope_of_path [⟨9⟩, ⟨8⟩, ⟨7⟩, ⟨6⟩, ⟨4⟩] (by decide) (by simp)⟩
  obtain ⟨table, order, htable, -, h⟩ :=
    SymbolTable.ofTree_resolve_eq_iff Sample.hoisted_consistent rfl
  obtain rfl := Except.ok.inj (Sample.ofTree_hoisted.symm.trans htable)
  refine ⟨Sample.hoisted_consistent, rfl, hx, hy, _, htable, ?_, by decide⟩
  refine (h ⟨0⟩ ⟨4⟩ "x" ⟨9⟩ hx hy).2 fun s' kind d _ hd => ?_
  have hall : ∀ i : Fin Sample.hoisted.nodes.size, ∀ e ∈ Sample.hoisted.announced ⟨i⟩,
      Sample.hoisted.nameOf? e.2 = some "x" → e.1.isBlockScoped = true ∧
        e ∈ Sample.hoisted.items ⟨9⟩ ∧ ¬Sample.hoisted.OpensScope e.2 := by decide +kernel
  obtain ⟨i, hi⟩ := hd.listed.exists_announced
  obtain ⟨hkind, hitem, hclosed⟩ := hall i (kind, d) hi hd.named
  obtain rfl := Sample.hoisted_consistent.scopeOf_eq hd.scope (scopeOf_of_items hitem hkind hclosed)
  exact hitem

namespace Sample

/-- The program `f(x); { var x = 1; } f(x);`. -/
def late : Tree where
  nodes := #[
    ⟨.identifier "x", some ⟨2⟩, none⟩,
    ⟨.identifier "f", some ⟨2⟩, none⟩,
    ⟨.call ⟨1⟩ [⟨0⟩], some ⟨3⟩, none⟩,
    ⟨.expressionStatement ⟨2⟩, some ⟨14⟩, none⟩,
    ⟨.literal (.numeric "1"), some ⟨6⟩, none⟩,
    ⟨.identifier "x", some ⟨6⟩, none⟩,
    ⟨.declaration ⟨5⟩ (some ⟨4⟩), some ⟨7⟩, none⟩,
    ⟨.declarationList .functionVariable [⟨6⟩], some ⟨8⟩, none⟩,
    ⟨.variableStatement ⟨7⟩, some ⟨9⟩, none⟩,
    ⟨.block [⟨8⟩], some ⟨14⟩, none⟩,
    ⟨.identifier "x", some ⟨12⟩, none⟩,
    ⟨.identifier "f", some ⟨12⟩, none⟩,
    ⟨.call ⟨11⟩ [⟨10⟩], some ⟨13⟩, none⟩,
    ⟨.expressionStatement ⟨12⟩, some ⟨14⟩, none⟩,
    ⟨.sourceFile [⟨3⟩, ⟨9⟩, ⟨13⟩], none, none⟩]
  root := some ⟨14⟩

theorem late_consistent : late.Consistent :=
  (Built.wellFormed ⟨by decide +kernel, by decide +kernel, by decide +kernel, by decide +kernel,
    by decide +kernel, by decide +kernel⟩).consistent

end Sample

/-- The `var` in the block belongs to the whole file, but the walk has not met it when it
comes to the first `x`. -/
theorem SymbolTable.ofTree_resolve_ne_late :
    Sample.late.Consistent ∧ Sample.late.root = some ⟨14⟩ ∧
      Sample.late.Occurs ⟨14⟩ ⟨14⟩ "x" ⟨0⟩ ∧ Sample.late.Occurs ⟨14⟩ ⟨14⟩ "x" ⟨10⟩ ∧
      Sample.late.ScopeOf ⟨14⟩ .functionVariable ⟨14⟩ ⟨6⟩ ∧
      ∃ table, SymbolTable.ofTree Sample.late = .ok table ∧ table.resolve ⟨0⟩ = none ∧
        table.resolve ⟨10⟩ = some ⟨⟨0⟩, "x", .functionVariable, some ⟨6⟩⟩ := by
  have hx : Sample.late.Occurs ⟨14⟩ ⟨14⟩ "x" ⟨0⟩ :=
    ⟨reaches_of_path (show List.IsChain Sample.late.Holds [⟨14⟩, ⟨3⟩, ⟨2⟩, ⟨0⟩] by decide)
      (by simp), rfl, by decide, reachesInScope_of_path [⟨14⟩, ⟨3⟩, ⟨2⟩, ⟨0⟩] (by decide) (by simp)⟩
  have hy : Sample.late.Occurs ⟨14⟩ ⟨14⟩ "x" ⟨10⟩ :=
    ⟨reaches_of_path (show List.IsChain Sample.late.Holds [⟨14⟩, ⟨13⟩, ⟨12⟩, ⟨10⟩] by decide)
      (by simp), rfl, by decide,
      reachesInScope_of_path [⟨14⟩, ⟨13⟩, ⟨12⟩, ⟨10⟩] (by decide) (by simp)⟩
  have hd : Sample.late.Reaches ⟨14⟩ ⟨6⟩ :=
    reaches_of_path (show List.IsChain Sample.late.Holds [⟨14⟩, ⟨9⟩, ⟨8⟩, ⟨7⟩, ⟨6⟩] by decide)
      (by simp)
  have htable : SymbolTable.ofTree Sample.late = .ok ⟨#[⟨⟨0⟩, "x", .functionVariable, some ⟨6⟩⟩],
      [(⟨10⟩, ⟨0⟩), (⟨5⟩, ⟨0⟩)]⟩ := by decide +kernel
  exact ⟨Sample.late_consistent, rfl, hx, hy, ⟨rfl, hd⟩, _, htable, by decide, by decide⟩

/-! ## 3. Names of declarations -/

section

variable {b : Binding} {symbol symbol' : Symbol} {d' : NodeId}

/-- A declaration of a name has its symbol. -/
theorem Binding.Accounts.exists_symbolOf
    (h : Accounts t r ⟨[], order, order.flatMap t.announced, b⟩) (ht : t.Consistent)
    (horder : t.preorder r = .ok order) (hd : t.Belongs r s name kind d) :
    ∃ symbol, b.table.SymbolOf ⟨kind, name, d⟩ symbol ∧ t.Introduces r s symbol := by
  have hmet := List.mem_map_of_mem (f := Prod.snd) (hd.listed.mem_met horder)
  obtain ⟨symbol, hmem, hdecl⟩ := h.complete d hmet name hd.named
  obtain ⟨i, hi⟩ := Array.mem_iff_getElem?.1 hmem
  obtain ⟨hid, d', hd', hmet', hname⟩ := h.symbols i symbol hi
  obtain rfl := Option.some.inj (hdecl.symm.trans hd')
  have hkind : symbol.kind = kind := ht.kind_eq (h.listed _ hmet') hd.listed
  rw [hd.named] at hname
  have hnamed : symbol.name = name := (Option.some.inj hname).symm
  refine ⟨symbol, ⟨⟨hnamed, hkind, hdecl⟩, by rw [hid]; exact hi, fun id symbol' hget hd' => ?_⟩,
    introduces_iff.2 ⟨d, hdecl, hnamed ▸ hd.named, hkind ▸ hd.scope⟩⟩
  rw [hid]
  exact Id.ext_index (h.index_eq hget hi hd' hdecl)

/-- A symbol is newer than another exactly if its declaration has been met later. -/
theorem Binding.Accounts.sooner_iff (h : Accounts t r ⟨[], order, order.flatMap t.announced, b⟩)
    (hget : b.table.get? symbol.id = some symbol) (hget' : b.table.get? symbol'.id = some symbol')
    (hd : symbol.declaration = some d) (hd' : symbol'.declaration = some d') :
    Sooner (order.flatMap t.announced) d d' ↔ symbol.id.index < symbol'.id.index := by
  constructor
  · intro hsooner
    rcases Nat.lt_trichotomy symbol.id.index symbol'.id.index with hlt | heq | hlt
    · exact hlt
    · have hsame : symbol.id = symbol'.id := Id.ext_index heq
      rw [hsame, hget'] at hget
      cases hget
      rw [hd] at hd'
      exact absurd (Option.some.inj hd') hsooner.ne
    · exact absurd (h.ordered _ _ symbol' symbol d' d hlt hget' hget hd' hd) hsooner.asymm
  · intro hlt
    exact h.ordered _ _ symbol symbol' d d' hlt hget hget' hd hd'

/-- A symbol in view is the foremost exactly if no other declaration that has been met
belongs to a scope further in, or has been met later and belongs to the same scope. -/
theorem Binding.Accounts.foremost_iff
    (h : Accounts t r ⟨[], order, order.flatMap t.announced, b⟩) (ht : t.Consistent)
    (horder : t.preorder r = .ok order) (hview : b.table.InView t r order x name s symbol)
    (hd : symbol.declaration = some d) :
    b.table.Foremost t r order x name s symbol ↔ ∀ s' kind' d', t.Belongs r s' name kind' d' →
      t.ScopeAround r s' x → t.Met order x d' →
      t.Reaches s' s ∧ (s' = s → ¬Sooner (order.flatMap t.announced) d d') := by
  constructor
  · intro hfore s' kind' d' hother haround hmet
    obtain ⟨symbol', ⟨⟨hnamed, -, hd'⟩, hget, -⟩, hintro⟩ := h.exists_symbolOf ht horder hother
    obtain ⟨hreaches, hle⟩ :=
      hfore.before s' symbol' ⟨hget, hnamed, haround, hintro, d', hd', hmet⟩
    refine ⟨hreaches, fun heq hsooner => ?_⟩
    have hlt := (h.sooner_iff hview.has hget hd hd').1 hsooner
    exact Nat.not_lt.2 (hle heq) hlt
  · intro hothers
    refine ⟨hview, fun s' symbol' hview' => ?_⟩
    obtain ⟨d', hd', hmet⟩ := hview'.met
    obtain ⟨hreaches, hnot⟩ :=
      hothers s' symbol'.kind d' (hview'.belongs h hd') hview'.around hmet
    refine ⟨hreaches, fun heq => Nat.not_lt.1 fun hlt => ?_⟩
    exact hnot heq ((h.sooner_iff hview.has hview'.has hd hd').2 hlt)

end

/-- The name of a declaration refers to the symbol of the declaration exactly if no other
declaration of the name that has been met before comes first: none belongs to a scope
further in, and none that has been met later belongs to the same scope. -/
theorem SymbolTable.ofTree_resolve_name_iff (ht : t.Consistent) (hr : t.root = some r) :
    ∃ table order, SymbolTable.ofTree t = .ok table ∧ t.preorder r = .ok order ∧
      ∀ kind d n initializer name, t.Listed r (kind, d) →
        t.shape d = .ok (.declaration n initializer) → t.shape n = .ok (.identifier name) →
        ∃ s symbol, t.ScopeOf r kind s d ∧ table.SymbolOf ⟨kind, name, d⟩ symbol ∧
          (table.resolve n = some symbol ↔ ∀ s' kind' d', t.Belongs r s' name kind' d' →
            t.ScopeAround r s' n → t.Met order n d' →
            t.Reaches s' s ∧ (s' = s → ¬Sooner (order.flatMap t.announced) d d')) := by
  obtain ⟨-, hroot⟩ := ht.opensScope_root hr
  obtain ⟨order, b, horder, htable, haccounts, hresolves⟩ := exists_resolves ht hr
  refine ⟨b.table, order, htable, horder, fun kind d n initializer name hlisted hd hn => ?_⟩
  have hdn : t.Holds d n := holds_of_shape hd (by simp)
  obtain ⟨l, ds, hrl, hl, hmem⟩ := hlisted
  have hld : t.Holds l d := holds_of_shape hl (by simpa using hmem)
  have hreach : t.Reaches r n := (hrl.trans_holds hld).trans_holds hdn
  obtain ⟨s, hscope, hopens, hrs⟩ := exists_scopeOf hroot (hrl.trans_holds hld) kind
  have hbelongs : t.Belongs r s name kind d :=
    ⟨⟨l, ds, hrl, hl, hmem⟩, by simp [nameOf?, hd, hn], hscope⟩
  obtain ⟨symbol, hsymbol, hintro⟩ := haccounts.exists_symbolOf ht horder hbelongs
  refine ⟨s, symbol, hscope, hsymbol, ?_⟩
  obtain ⟨⟨hnamed, hkind, hdecl⟩, hget, -⟩ := hsymbol
  -- the list has been met before the name
  have hmet : t.Met order n d := by
    have hannounced : (kind, d) ∈ t.announced l := by
      rw [announced_of_list hl]
      exact List.mem_map_of_mem hmem
    refine ht.met_of_announced horder hrl ((ReflTransGen.single hld).tail hdn) ?_ hannounced
    rintro rfl
    rw [hl] at hn
    cases hn
  have hview : b.table.InView t r order n name s symbol :=
    ⟨hget, hnamed, ⟨hopens, hrs, hscope.reaches.trans_holds hdn⟩, hintro, d, hdecl, hmet⟩
  rw [hresolves.eq_some_iff ht hreach hn, ← haccounts.foremost_iff ht horder hview hdecl]
  constructor
  · -- the symbol belongs to one scope
    rintro ⟨s₀, hfore⟩
    have hscope₀ := (hfore.inView.belongs haccounts hdecl).scope
    rw [hkind] at hscope₀
    exact ht.scopeOf_eq hscope₀ hscope ▸ hfore
  · intro hfore
    exact ⟨s, hfore⟩

namespace Sample

/-- The program `var x = 1; var x = 2;`. -/
def repeated : Tree where
  nodes := #[
    ⟨.literal (.numeric "1"), some ⟨2⟩, none⟩,
    ⟨.identifier "x", some ⟨2⟩, none⟩,
    ⟨.declaration ⟨1⟩ (some ⟨0⟩), some ⟨3⟩, none⟩,
    ⟨.declarationList .functionVariable [⟨2⟩], some ⟨4⟩, none⟩,
    ⟨.variableStatement ⟨3⟩, some ⟨10⟩, none⟩,
    ⟨.literal (.numeric "2"), some ⟨7⟩, none⟩,
    ⟨.identifier "x", some ⟨7⟩, none⟩,
    ⟨.declaration ⟨6⟩ (some ⟨5⟩), some ⟨8⟩, none⟩,
    ⟨.declarationList .functionVariable [⟨7⟩], some ⟨9⟩, none⟩,
    ⟨.variableStatement ⟨8⟩, some ⟨10⟩, none⟩,
    ⟨.sourceFile [⟨4⟩, ⟨9⟩], none, none⟩]
  root := some ⟨10⟩

theorem repeated_consistent : repeated.Consistent :=
  (Built.wellFormed ⟨by decide +kernel, by decide +kernel, by decide +kernel, by decide +kernel,
    by decide +kernel, by decide +kernel⟩).consistent

/-- Its names and what they refer to. -/
def repeatedNames : SymbolTable where
  symbols := #[
    ⟨⟨0⟩, "x", .functionVariable, some ⟨2⟩⟩,
    ⟨⟨1⟩, "x", .functionVariable, some ⟨7⟩⟩]
  resolutions := [(⟨6⟩, ⟨1⟩), (⟨1⟩, ⟨1⟩)]

theorem ofTree_repeated : SymbolTable.ofTree repeated = .ok repeatedNames := by decide +kernel

end Sample

/-- The second declaration is the last, so its name refers to its symbol. -/
theorem SymbolTable.ofTree_resolve_name_iff_repeated :
    Sample.repeated.Consistent ∧ Sample.repeated.root = some ⟨10⟩ ∧
      Sample.repeated.Listed ⟨10⟩ (.functionVariable, ⟨7⟩) ∧
      Sample.repeated.shape ⟨7⟩ = .ok (.declaration ⟨6⟩ (some ⟨5⟩)) ∧
      Sample.repeated.shape ⟨6⟩ = .ok (.identifier "x") ∧
      ∃ table symbol, SymbolTable.ofTree Sample.repeated = .ok table ∧
        table.SymbolOf ⟨.functionVariable, "x", ⟨7⟩⟩ symbol ∧ table.resolve ⟨6⟩ = some symbol := by
  have hlisted : Sample.repeated.Listed ⟨10⟩ (.functionVariable, ⟨7⟩) :=
    ⟨⟨8⟩, [⟨7⟩], reaches_of_path (show List.IsChain Sample.repeated.Holds
      [⟨10⟩, ⟨9⟩, ⟨8⟩] by decide) (by simp), rfl, by simp⟩
  obtain ⟨table, order, htable, horder, h⟩ :=
    SymbolTable.ofTree_resolve_name_iff Sample.repeated_consistent rfl
  have hwalk : Sample.repeated.preorder ⟨10⟩
      = .ok [⟨10⟩, ⟨4⟩, ⟨3⟩, ⟨2⟩, ⟨1⟩, ⟨0⟩, ⟨9⟩, ⟨8⟩, ⟨7⟩, ⟨6⟩, ⟨5⟩] := by decide +kernel
  obtain rfl := Except.ok.inj (hwalk.symm.trans horder)
  obtain ⟨s, symbol, hscope, hsymbol, hiff⟩ := h _ ⟨7⟩ ⟨6⟩ _ "x" hlisted rfl rfl
  refine ⟨Sample.repeated_consistent, rfl, hlisted, rfl, rfl, table, symbol, htable, hsymbol,
    hiff.2 fun s' kind' d' hd _ _ => ?_⟩
  -- the other declaration of the file has been met before
  have hall : ∀ i : Fin Sample.repeated.nodes.size, ∀ e ∈ Sample.repeated.announced ⟨i⟩,
      e = (.functionVariable, ⟨2⟩) ∨ e = (.functionVariable, ⟨7⟩) := by decide +kernel
  have hsooner : Sooner ([⟨10⟩, ⟨4⟩, ⟨3⟩, ⟨2⟩, ⟨1⟩, ⟨0⟩, ⟨9⟩, ⟨8⟩, ⟨7⟩, ⟨6⟩, ⟨5⟩].flatMap
      Sample.repeated.announced) ⟨2⟩ ⟨7⟩ :=
    ⟨[(.functionVariable, ⟨2⟩)], [(.functionVariable, ⟨7⟩), (.functionVariable, ⟨2⟩),
      (.functionVariable, ⟨7⟩)], by decide +kernel, by decide, by decide⟩
  obtain ⟨rfl, -⟩ : s = ⟨10⟩ ∧ Sample.repeated.Reaches ⟨10⟩ ⟨7⟩ := hscope
  obtain ⟨i, hi⟩ := hd.listed.exists_announced
  rcases hall i (kind', d') hi with heq | heq
  · cases heq
    obtain ⟨rfl, -⟩ : s' = ⟨10⟩ ∧ Sample.repeated.Reaches ⟨10⟩ ⟨2⟩ := hd.scope
    exact ⟨.refl, fun _ => hsooner.asymm⟩
  · cases heq
    obtain ⟨rfl, -⟩ : s' = ⟨10⟩ ∧ Sample.repeated.Reaches ⟨10⟩ ⟨7⟩ := hd.scope
    exact ⟨.refl, fun _ hself => hself.ne rfl⟩

/-- The name of the first declaration refers to the symbol of the second. -/
theorem SymbolTable.ofTree_resolve_name_ne_repeated :
    Sample.repeated.Consistent ∧ Sample.repeated.root = some ⟨10⟩ ∧
      Sample.repeated.Listed ⟨10⟩ (.functionVariable, ⟨2⟩) ∧
      Sample.repeated.shape ⟨2⟩ = .ok (.declaration ⟨1⟩ (some ⟨0⟩)) ∧
      Sample.repeated.shape ⟨1⟩ = .ok (.identifier "x") ∧
      ∃ table, SymbolTable.ofTree Sample.repeated = .ok table ∧
        table.resolve ⟨1⟩ = some ⟨⟨1⟩, "x", .functionVariable, some ⟨7⟩⟩ ∧
        ∀ symbol, table.resolve ⟨1⟩ = some symbol → symbol.declaration ≠ some ⟨2⟩ := by
  have hlisted : Sample.repeated.Listed ⟨10⟩ (.functionVariable, ⟨2⟩) :=
    ⟨⟨3⟩, [⟨2⟩], reaches_of_path (show List.IsChain Sample.repeated.Holds
      [⟨10⟩, ⟨4⟩, ⟨3⟩] by decide) (by simp), rfl, by simp⟩
  refine ⟨Sample.repeated_consistent, rfl, hlisted, rfl, rfl, _, Sample.ofTree_repeated, by decide,
    fun symbol hsymbol => ?_⟩
  cases hsymbol
  decide

end ScriptReduce
