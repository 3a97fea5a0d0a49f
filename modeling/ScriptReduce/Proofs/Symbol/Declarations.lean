/-
ScriptReduce.Proofs.Symbol.Declarations: what scopes declare.

`Tree.declarations` lists what stands in the statements of a source file or of a
block, in order, whichever way binding goes about it. Entering the scope declares
exactly that (`Binding.exists_declareItems`): afterwards each name of the list
stands for the symbol of the last declaration of it (`Represents`), if none of
them had been met before. In a tree that hangs together a declaration stands in
one scope only (`Tree.Consistent.scope_eq`).

A declaration that was met before is passed over. So it never has two symbols,
in whatever tree (`SymbolTable.ofTree_unrepeated`).
-/
import ScriptReduce.Proofs.Symbol.Scopes
import ScriptReduce.Proofs.Tree.Preorder

namespace ScriptReduce

open ScriptReduce.Tree Relation

variable {t : Tree} {s x z d : NodeId} {b b' : Binding} {name : String}

/-! ## 1. What scopes declare -/

/-- A declaration of a name, with the keyword that it stands under. -/
structure Declared where
  kind : BindingKind
  name : String
  node : NodeId

/-- A declaration is the last one of a name among some declarations. -/
def Latest (entries : List Declared) (name : String) (e : Declared) : Prop :=
  ∃ before after, entries = before ++ e :: after ∧ e.name = name ∧ ∀ e' ∈ after, e'.name ≠ name

namespace Tree

section

variable (t : Tree)

/-- The name that a declaration declares, if it is an identifier. -/
def nameOf? (d : NodeId) : Option String :=
  match t.shape d with
  | .ok (.declaration nameNode _) =>
    match t.shape nameNode with
    | .ok (.identifier name) => some name
    | _ => none
  | _ => none

/-- A declaration under a keyword, if it declares a name. -/
def declared? (item : BindingKind × NodeId) : Option Declared :=
  (t.nameOf? item.2).map fun name => ⟨item.1, name, item.2⟩

/-- What is listed in a statement, each item under the keyword of the list. -/
def listed (statement : NodeId) : List (BindingKind × NodeId) :=
  match t.shape statement with
  | .ok (.variableStatement list) =>
    match t.shape list with
    | .ok (.declarationList kind declarations) => declarations.map (kind, ·)
    | _ => []
  | _ => []

/-- The statements of a scope. -/
def statements (s : NodeId) : List NodeId :=
  match t.shape s with
  | .ok (.sourceFile statements) | .ok (.block statements) => statements
  | _ => []

/-- What is listed in the statements of a scope, in order. -/
def items (s : NodeId) : List (BindingKind × NodeId) := (t.statements s).flatMap t.listed

/-- The declarations of names in the statements of a scope, in order. -/
def declarations (s : NodeId) : List Declared := (t.items s).filterMap t.declared?

/-- Whether a scope declares a name. -/
def Declares (s : NodeId) (name : String) : Prop := ∃ e ∈ t.declarations s, e.name = name

/-- A node is a scope below a root and around another node. -/
def ScopeAround (r s x : NodeId) : Prop := t.OpensScope s ∧ t.Reaches r s ∧ t.Reaches s x

/-- The nearest scope around a node that declares a name: every other is around
that one as well. -/
structure Nearest (r x : NodeId) (name : String) (s : NodeId) : Prop where
  around : t.ScopeAround r s x
  declares : t.Declares s name
  nearest : ∀ s', t.ScopeAround r s' x → t.Declares s' name → t.Reaches s' s

/-- Below a root there is no `var`, and all lists of declarations stand in
statements of scopes. -/
structure Lexical (r : NodeId) : Prop where
  kind : ∀ l kind ds, t.Reaches r l → t.shape l = .ok (.declarationList kind ds) →
    kind.isBlockScoped = true
  placed : ∀ l kind ds, t.Reaches r l → t.shape l = .ok (.declarationList kind ds) →
    ∃ v s, t.shape v = .ok (.variableStatement l) ∧ v ∈ t.statements s

end

theorem statements_of_sourceFile {ss : List NodeId} (h : t.shape s = .ok (.sourceFile ss)) :
    t.statements s = ss := by
  rw [statements, h]

theorem statements_of_block {ss : List NodeId} (h : t.shape s = .ok (.block ss)) :
    t.statements s = ss := by
  rw [statements, h]

/-- What has statements is a scope and holds them. -/
theorem of_mem_statements (h : x ∈ t.statements s) : t.OpensScope s ∧ t.Holds s x := by
  unfold statements at h
  split at h
  · rename_i ss hs
    exact ⟨⟨_, hs, trivial⟩, holds_of_shape hs (by simpa using h)⟩
  · rename_i ss hs
    exact ⟨⟨_, hs, trivial⟩, holds_of_shape hs (by simpa using h)⟩
  · cases h

/-- What is listed in a statement stands in a list that the statement holds. -/
theorem of_mem_listed {kind : BindingKind} (h : (kind, d) ∈ t.listed x) :
    ∃ l ds, t.shape x = .ok (.variableStatement l) ∧
      t.shape l = .ok (.declarationList kind ds) ∧ d ∈ ds ∧ t.Holds x l ∧ t.Holds l d := by
  unfold listed at h
  split at h
  · rename_i l hx
    split at h
    · rename_i kind' ds hl
      obtain ⟨d', hd', heq⟩ := List.mem_map.1 h
      cases heq
      have hholds : t.Holds l d := holds_of_shape hl (by simpa using hd')
      exact ⟨l, ds, hx, hl, hd', holds_of_shape hx (by simp), hholds⟩
    · cases h
  · cases h

theorem mem_listed {l : NodeId} {kind : BindingKind} {ds : List NodeId}
    (hx : t.shape x = .ok (.variableStatement l)) (hl : t.shape l = .ok (.declarationList kind ds))
    (hd : d ∈ ds) : (kind, d) ∈ t.listed x := by
  rw [listed, hx]
  simp only
  rw [hl]
  exact List.mem_map_of_mem hd

/-- A declaration stands in a list that stands in a statement of its scope. -/
theorem of_mem_items {e : BindingKind × NodeId} (h : e ∈ t.items s) :
    t.OpensScope s ∧ ∃ v l ds, t.Holds s v ∧ t.Holds v l ∧ t.Holds l e.2 ∧
      t.shape l = .ok (.declarationList e.1 ds) := by
  obtain ⟨v, hv, he⟩ := List.mem_flatMap.1 h
  obtain ⟨hopens, hsv⟩ := of_mem_statements hv
  obtain ⟨l, ds, -, hl, -, hvl, hld⟩ := of_mem_listed he
  exact ⟨hopens, v, l, ds, hsv, hvl, hld, hl⟩

end Tree

theorem Latest.declares {e : Declared} (h : Latest (t.declarations s) name e) :
    t.Declares s name := by
  obtain ⟨before, after, heq, hname, -⟩ := h
  exact ⟨e, by simp [heq], hname⟩

/-! ## 2. One scope each -/

namespace Tree.Consistent

/-- A declaration stands in one scope only. -/
theorem scope_eq {e e' : BindingKind × NodeId} {s' : NodeId} (ht : t.Consistent)
    (h : e ∈ t.items s) (h' : e' ∈ t.items s') (heq : e.2 = e'.2) : s = s' := by
  obtain ⟨-, v, l, -, hsv, hvl, hld, -⟩ := of_mem_items h
  obtain ⟨-, v', l', -, hsv', hvl', hld', -⟩ := of_mem_items h'
  rw [heq] at hld
  obtain rfl := ht.holder_eq hld hld'
  obtain rfl := ht.holder_eq hvl hvl'
  exact ht.holder_eq hsv hsv'

/-- A scope has no declaration twice. -/
theorem nodup_items (ht : t.Consistent) (s : NodeId) : ((t.items s).map Prod.snd).Nodup := by
  have hchildren : ∀ {x : NodeId} {sh : Shape NodeId}, t.shape x = .ok sh → sh.children.Nodup := by
    intro x sh hx
    obtain ⟨n, hn, rfl⟩ := shape_eq_ok.1 hx
    exact ht.once x n hn
  have hstatements : (t.statements s).Nodup := by
    unfold statements
    split
    · rename_i hs
      simpa using hchildren hs
    · rename_i hs
      simpa using hchildren hs
    · exact List.nodup_nil
  rw [items, List.map_flatMap, List.nodup_flatMap]
  refine ⟨fun v _ => ?_, hstatements.imp ?_⟩
  · unfold listed
    split
    · split
      · rename_i hl
        simpa [Function.comp_def] using hchildren hl
      · exact List.nodup_nil
    · exact List.nodup_nil
  · -- one list would stand in both statements
    intro v v' hne d hd hd'
    obtain ⟨⟨kind, _⟩, he, rfl⟩ := List.mem_map.1 hd
    obtain ⟨⟨kind', _⟩, he', rfl⟩ := List.mem_map.1 hd'
    obtain ⟨l, _, _, _, _, hvl, hld⟩ := of_mem_listed he
    obtain ⟨l', _, _, _, _, hvl', hld'⟩ := of_mem_listed he'
    obtain rfl := ht.holder_eq hld hld'
    exact hne (ht.holder_eq hvl hvl')

end Tree.Consistent

/-! ## 3. Filling a scope -/

/-- A table has all the symbols of another. -/
def SymbolTable.Extends (table table' : SymbolTable) : Prop :=
  ∀ id symbol, table.get? id = some symbol → table'.get? id = some symbol

namespace SymbolTable.Extends

variable {table table₁ table' : SymbolTable}

theorem refl (table : SymbolTable) : table.Extends table := fun _ _ h => h

theorem trans (h : table.Extends table₁) (h' : table₁.Extends table') : table.Extends table' :=
  fun id symbol hid => h' id symbol (h id symbol hid)

theorem declare (table : SymbolTable) (name : String) (kind : BindingKind)
    (declaration : Option NodeId) : table.Extends (table.declare name kind declaration).2 :=
  fun _ _ h => get?_declare_of_some h name kind declaration

end SymbolTable.Extends

/-- A table has the symbol of a declaration under an identifier. -/
def SymbolTable.Has (table : SymbolTable) (id : SymbolId) (e : Declared) : Prop :=
  table.get? id = some ⟨id, e.name, e.kind, some e.node⟩

/-- The names of a scope are those of some declarations, and each stands for the
symbol of the last declaration of it. -/
def Represents (table : SymbolTable) (scope : Scope) (entries : List Declared) : Prop :=
  ∀ name, (scope.lookup name = none ∧ ∀ e ∈ entries, e.name ≠ name) ∨
    ∃ e id, scope.lookup name = some id ∧ Latest entries name e ∧ table.Has id e

namespace Represents

variable {table table' : SymbolTable} {scope : Scope} {entries : List Declared} {e : Declared}
  {id : SymbolId}

theorem mono (h : Represents table scope entries) (ht : table.Extends table') :
    Represents table' scope entries := fun name =>
  (h name).imp_right fun ⟨e, id, hlookup, hlatest, hget⟩ =>
    ⟨e, id, hlookup, hlatest, ht _ _ hget⟩

theorem nil (table : SymbolTable) : Represents table [] [] := fun _ => .inl ⟨rfl, by simp⟩

/-- A name added stands for the symbol of the declaration that is added. -/
theorem snoc (h : Represents table scope entries) (he : table.Has id e) :
    Represents table ((e.name, id) :: scope) (entries ++ [e]) := by
  intro name
  by_cases hname : name = e.name
  · subst hname
    exact .inr ⟨e, id, by simp, ⟨entries, [], rfl, rfl, by simp⟩, he⟩
  · have hlookup : ((e.name, id) :: scope : Scope).lookup name = scope.lookup name := by
      rw [List.lookup_cons, beq_eq_false_iff_ne.2 hname]
    rw [hlookup]
    rcases h name with ⟨hnone, hno⟩ | ⟨e₀, id₀, hsome, ⟨before, after, rfl, hname₀, hafter⟩, hget⟩
    · refine .inl ⟨hnone, fun e' he' => ?_⟩
      rcases List.mem_append.1 he' with he' | he'
      · exact hno e' he'
      · rw [List.mem_singleton.1 he']
        exact Ne.symm hname
    · refine .inr ⟨e₀, id₀, hsome, ⟨before, after ++ [e], by simp, hname₀, fun e' he' => ?_⟩, hget⟩
      rcases List.mem_append.1 he' with he' | he'
      · exact hafter e' he'
      · rw [List.mem_singleton.1 he']
        exact Ne.symm hname

end Represents

namespace Binding

variable {kind : BindingKind} {scope : Scope} {outer : List Scope} {entries : List Declared}
  {items : List (BindingKind × NodeId)}

/-- Declares one item after another. -/
def declareItems (t : Tree) (items : List (BindingKind × NodeId)) (b : Binding) :
    Except Fault Binding :=
  items.foldlM (fun b e => declare t e.1 b e.2) b

/-- What has been declared before is passed over. -/
theorem declare_of_mem (h : d ∈ b.declared) : declare t kind b d = .ok b := by
  unfold declare
  rw [if_pos (List.contains_iff_mem.2 h)]
  rfl

theorem declareItems_of_mem (h : ∀ e ∈ items, e.2 ∈ b.declared) :
    declareItems t items b = .ok b := by
  induction items with
  | nil => rfl
  | cons e items ih =>
    obtain ⟨he, hitems⟩ := List.forall_mem_cons.1 h
    exact foldlM_cons_eq_ok.2 ⟨b, declare_of_mem he, ih hitems⟩

/-- Declaring a list declares what stands in it. -/
theorem declareList_eq {ds : List NodeId} (hx : t.shape x = .ok (.declarationList kind ds))
    (b : Binding) : b.declareList t x = declareItems t (ds.map (kind, ·)) b := by
  rw [declareList, bind_of_ok _ hx, declareItems, List.foldlM_map]

theorem declareItems_cons {e : BindingKind × NodeId} {b₁ : Binding}
    (h₁ : declare t e.1 b e.2 = .ok b₁) (h : declareItems t items b₁ = .ok b') :
    declareItems t (e :: items) b = .ok b' :=
  foldlM_cons_eq_ok.2 ⟨b₁, h₁, h⟩

/-- What declaring comes to: a declaration is passed over if it was met before, and
gets a symbol only if it declares a name. -/
theorem declare_cases (h : declare t kind b d = .ok b') :
    (d ∈ b.declared ∧ b' = b) ∨ d ∉ b.declared ∧
      ((t.nameOf? d = none ∧ b' = { b with declared := d :: b.declared }) ∨
        ∃ name, t.nameOf? d = some name ∧
          b' = { b with declared := d :: b.declared }.declareName kind name d) := by
  unfold declare at h
  split at h
  · rename_i hmem
    cases h
    exact .inl ⟨List.contains_iff_mem.1 hmem, rfl⟩
  · rename_i hnew
    refine .inr ⟨fun hmem => hnew (List.contains_iff_mem.2 hmem), ?_⟩
    obtain ⟨shape, hshape, h⟩ := bind_eq_ok.1 h
    cases shape with
    | declaration nameNode initializer =>
      obtain ⟨shape, hname, h⟩ := bind_eq_ok.1 h
      cases shape with
      | identifier name =>
        cases h
        exact .inr ⟨name, by simp only [nameOf?, hshape, hname], rfl⟩
      | _ =>
        cases h
        exact .inl ⟨by simp only [nameOf?, hshape, hname], rfl⟩
    | _ =>
      cases h
      exact .inl ⟨by simp only [nameOf?, hshape], rfl⟩

section

variable (hc : ∀ g x, t.Holds g x → x.index < t.size)

include hc

theorem declare_of_not_mem (hd : d.index < t.size) (h : d ∉ b.declared) :
    declare t kind b d = .ok (match t.nameOf? d with
      | some name => { b with declared := d :: b.declared }.declareName kind name d
      | none => { b with declared := d :: b.declared }) := by
  obtain ⟨n, hn⟩ := exists_get? hd
  unfold declare nameOf?
  rw [if_neg (fun hcontains => h (List.contains_iff_mem.1 hcontains))]
  simp only
  rw [bind_of_ok _ (shape_of_get? hn), shape_of_get? hn]
  cases hs : n.shape with
  | declaration nameNode initializer =>
    have hholds : t.Holds d nameNode := ⟨n, hn, by simp [hs]⟩
    obtain ⟨k, hk⟩ := exists_get? (hc d nameNode hholds)
    simp only
    rw [bind_of_ok _ (shape_of_get? hk), shape_of_get? hk]
    cases k.shape <;> rfl
  | _ => rfl

/-- Declaring a list is declaring its items. -/
theorem declareStatement_eq (b : Binding) (hx : x.index < t.size) :
    b.declareStatement t x = declareItems t (t.listed x) b := by
  obtain ⟨n, hn⟩ := exists_get? hx
  unfold declareStatement listed declareItems
  rw [bind_of_ok _ (shape_of_get? hn), shape_of_get? hn]
  cases hs : n.shape with
  | variableStatement l =>
    have hholds : t.Holds x l := ⟨n, hn, by simp [hs]⟩
    obtain ⟨k, hk⟩ := exists_get? (hc x l hholds)
    have hl := shape_of_get? hk
    simp only [hl]
    cases hl' : k.shape with
    | declarationList kind ds => exact declareList_eq (hl' ▸ hl) b
    | _ =>
      rw [declareList, bind_of_ok _ hl, hl']
      rfl
  | _ => rfl

/-- Entering a scope declares the items of its statements. -/
theorem enter_eq (b : Binding) {ss : List NodeId} (hss : ∀ v ∈ ss, v.index < t.size) :
    b.enter t ss = declareItems t (ss.flatMap t.listed) { b with scopes := [] :: b.scopes } := by
  unfold enter
  generalize ({ b with scopes := [] :: b.scopes } : Binding) = b
  induction ss generalizing b with
  | nil => rfl
  | cons v ss ih =>
    obtain ⟨hv, hss⟩ := List.forall_mem_cons.1 hss
    rw [List.foldlM_cons, List.flatMap_cons, declareItems, List.foldlM_append,
      declareStatement_eq hc b hv]
    exact bind_congr fun b₁ => ih hss b₁

/-- A declaration that has not been declared yet adds the name that it declares, if it
declares one, to the innermost scope. -/
theorem exists_declare_new (hkind : kind.isBlockScoped = true) (hinside : d.index < t.size)
    (hnew : d ∉ b.declared) (hscopes : b.scopes = scope :: outer)
    (h : Represents b.table scope entries) :
    ∃ b' scope', declare t kind b d = .ok b' ∧ b'.scopes = scope' :: outer ∧
      Represents b'.table scope' (entries ++ (t.declared? (kind, d)).toList) ∧
      b.table.Extends b'.table ∧ b'.table.resolutions = b.table.resolutions ∧
      b'.declared = d :: b.declared := by
  rw [declare_of_not_mem hc hinside hnew]
  cases hname : t.nameOf? d with
  | none => exact ⟨_, scope, rfl, hscopes, by simpa [declared?, hname] using h, .refl _, rfl, rfl⟩
  | some name =>
    have hext := SymbolTable.Extends.declare b.table name kind (some d)
    have hhas : (b.table.declare name kind (some d)).2.Has ⟨b.table.symbols.size⟩
        ⟨kind, name, d⟩ := by
      rw [SymbolTable.Has, SymbolTable.get?_declare, if_pos rfl]
    refine ⟨_, (name, ⟨b.table.symbols.size⟩) :: scope, rfl, ?_, ?_, hext, rfl, rfl⟩
    · simp only [Binding.declareName, hkind, if_true, hscopes]
      rfl
    · simp only [declared?, hname, Option.map_some, Option.toList_some]
      exact (h.mono hext).snoc hhas

/-- Items that have not been declared yet fill the innermost scope. -/
theorem exists_declareItems : ∀ {b : Binding} {scope : Scope} {entries : List Declared},
    (∀ e ∈ items, e.1.isBlockScoped = true ∧ e.2.index < t.size) → (items.map Prod.snd).Nodup →
    (∀ e ∈ items, e.2 ∉ b.declared) → b.scopes = scope :: outer →
    Represents b.table scope entries →
    ∃ b' scope', declareItems t items b = .ok b' ∧ b'.scopes = scope' :: outer ∧
      Represents b'.table scope' (entries ++ items.filterMap t.declared?) ∧
      b.table.Extends b'.table ∧ b'.table.resolutions = b.table.resolutions ∧
      ∀ d, d ∈ b'.declared ↔ d ∈ items.map Prod.snd ∨ d ∈ b.declared := by
  induction items with
  | nil =>
    intro b scope entries _ _ _ hscopes h
    exact ⟨b, scope, rfl, hscopes, by simpa using h, .refl _, rfl, by simp⟩
  | cons e items ih =>
    intro b scope entries hitems hnodup hfresh hscopes h
    obtain ⟨⟨hkind, hinside⟩, hitems⟩ := List.forall_mem_cons.1 hitems
    obtain ⟨hnew, hfresh⟩ := List.forall_mem_cons.1 hfresh
    rw [List.map_cons, List.nodup_cons] at hnodup
    obtain ⟨b₁, scope₁, h₁, hscopes₁, hrep₁, hext₁, hres₁, hdeclared₁⟩ :=
      exists_declare_new hc hkind hinside hnew hscopes h
    obtain ⟨b', scope', h', hscopes', hrep', hext', hres', hdeclared'⟩ :=
      ih hitems hnodup.2 (fun e' he' => by
        rw [hdeclared₁, List.mem_cons, not_or]
        refine ⟨?_, hfresh e' he'⟩
        rintro heq
        exact hnodup.1 (heq ▸ List.mem_map_of_mem he')) hscopes₁ hrep₁
    refine ⟨b', scope', ?_, hscopes', ?_, hext₁.trans hext', hres'.trans hres₁, fun d => ?_⟩
    · exact declareItems_cons h₁ h'
    · rw [List.append_assoc] at hrep'
      have hcons : (e :: items).filterMap t.declared?
          = (t.declared? e).toList ++ items.filterMap t.declared? := by
        rw [List.filterMap_cons]
        cases t.declared? e <;> rfl
      rwa [hcons]
    · rw [hdeclared', hdeclared₁, List.map_cons, List.mem_cons, List.mem_cons]
      tauto

end

end Binding

/-! ## 4. One symbol for each declaration -/

/-- No two symbols are for one declaration, and each is for one that has been met. -/
structure Binding.Unrepeated (b : Binding) : Prop where
  met : ∀ symbol ∈ b.table.symbols, ∃ d ∈ b.declared, symbol.declaration = some d
  once : ∀ (i j : Nat) (symbol symbol' : Symbol), b.table.symbols[i]? = some symbol →
    b.table.symbols[j]? = some symbol' → symbol.declaration = symbol'.declaration → i = j

namespace Binding.Unrepeated

theorem start : Binding.start.Unrepeated :=
  ⟨by simp [Binding.start, SymbolTable.empty], by simp [Binding.start, SymbolTable.empty]⟩

theorem declareName (h : b.Unrepeated) (hd : d ∉ b.declared) (kind : BindingKind) (name : String) :
    ({ b with declared := d :: b.declared }.declareName kind name d).Unrepeated := by
  have hnew : ∀ {i : Nat} {symbol : Symbol}, b.table.symbols[i]? = some symbol →
      symbol.declaration ≠ some d := by
    intro i symbol hi heq
    obtain ⟨d', hd', heq'⟩ := h.met symbol (Array.mem_of_getElem? hi)
    rw [heq] at heq'
    cases heq'
    exact hd hd'
  refine ⟨fun symbol hs => ?_, fun i j symbol symbol' hi hj heq => ?_⟩
  · rcases Array.mem_push.1 hs with hs | rfl
    · obtain ⟨d', hd', heq⟩ := h.met symbol hs
      exact ⟨d', List.mem_cons_of_mem d hd', heq⟩
    · exact ⟨d, List.mem_cons_self, rfl⟩
  · rcases SymbolTable.declare_cases hi with ⟨rfl, rfl⟩ | ⟨-, hi⟩
    · rcases SymbolTable.declare_cases hj with ⟨rfl, -⟩ | ⟨-, hj⟩
      · rfl
      · exact absurd heq.symm (hnew hj)
    · rcases SymbolTable.declare_cases hj with ⟨-, rfl⟩ | ⟨-, hj⟩
      · exact absurd heq (hnew hi)
      · exact h.once i j symbol symbol' hi hj heq

theorem foldlM {α : Type} {f : Binding → α → Except Fault Binding} {xs : List α}
    (hf : ∀ {b b' a}, Unrepeated b → f b a = .ok b' → Unrepeated b') (h : b.Unrepeated)
    (hb : xs.foldlM f b = .ok b') : b'.Unrepeated := by
  induction xs generalizing b with
  | nil =>
    cases hb
    exact h
  | cons a xs ih =>
    obtain ⟨b₁, h₁, hrest⟩ := foldlM_cons_eq_ok.1 hb
    exact ih (hf h h₁) hrest

theorem declare {kind : BindingKind} (h : b.Unrepeated) (hb : Binding.declare t kind b d = .ok b') :
    b'.Unrepeated := by
  rcases declare_cases hb with ⟨-, rfl⟩ | ⟨hd, ⟨-, rfl⟩ | ⟨name, -, rfl⟩⟩
  · exact h
  · refine ⟨fun symbol hs => ?_, h.once⟩
    obtain ⟨d', hd', heq⟩ := h.met symbol hs
    exact ⟨d', List.mem_cons_of_mem d hd', heq⟩
  · exact h.declareName hd kind name

theorem declareList (h : b.Unrepeated) (hb : b.declareList t x = .ok b') : b'.Unrepeated := by
  obtain ⟨shape, -, hb⟩ := bind_eq_ok.1 hb
  split at hb
  · exact h.foldlM (fun h hb => h.declare hb) hb
  · cases hb
    exact h

theorem enter {statements : List NodeId} (h : b.Unrepeated) (hb : b.enter t statements = .ok b') :
    b'.Unrepeated := by
  refine foldlM (fun h hb => ?_) (b := { b with scopes := [] :: b.scopes }) ⟨h.met, h.once⟩ hb
  obtain ⟨shape, -, hb⟩ := bind_eq_ok.1 hb
  split at hb
  · exact h.declareList hb
  · cases hb
    exact h

theorem refer (h : b.Unrepeated) (x : NodeId) (name : String) : (b.refer x name).Unrepeated := by
  unfold Binding.refer
  split
  · exact ⟨h.met, h.once⟩
  · exact h

theorem visit {depth : Nat} : ∀ {b b' : Binding} {x : NodeId}, b.Unrepeated →
    visitWithin t depth b x = .ok b' → b'.Unrepeated := by
  induction depth with
  | zero =>
    intro b b' x _ hb
    cases hb
  | succ depth ih =>
    intro b b' x h hb
    obtain ⟨shape, -, hb⟩ := bind_eq_ok.1 hb
    cases shape with
    | sourceFile ss | block ss =>
      obtain ⟨b₁, h₁, hb⟩ := bind_eq_ok.1 hb
      obtain ⟨b₂, h₂, hb⟩ := bind_eq_ok.1 hb
      cases hb
      have hleft := (h.enter h₁).foldlM ih h₂
      exact ⟨hleft.met, hleft.once⟩
    | declarationList kind ds =>
      obtain ⟨b₁, h₁, hb⟩ := bind_eq_ok.1 hb
      exact (h.declareList h₁).foldlM ih hb
    | identifier name =>
      cases hb
      exact h.refer x name
    | _ => exact h.foldlM ih hb

end Binding.Unrepeated

/-- In whatever tree, a declaration has one symbol at most. -/
theorem SymbolTable.ofTree_unrepeated {table : SymbolTable} (h : SymbolTable.ofTree t = .ok table)
    {id id' : SymbolId} {symbol symbol' : Symbol} (hid : table.get? id = some symbol)
    (hid' : table.get? id' = some symbol') (heq : symbol.declaration = symbol'.declaration) :
    id = id' := by
  unfold ofTree at h
  split at h
  · cases h
    simp [get?, SymbolTable.empty] at hid
  · obtain ⟨b, hb, h⟩ := bind_eq_ok.1 h
    cases h
    exact Id.ext_index ((Binding.Unrepeated.start.visit hb).once _ _ _ _ hid hid' heq)

end ScriptReduce
