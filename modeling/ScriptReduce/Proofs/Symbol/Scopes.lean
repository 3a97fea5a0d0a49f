/-
ScriptReduce.Proofs.Symbol.Scopes: identifiers refer to what is in scope.

A `var` belongs to the source file wherever it stands; `let` and `const` belong
to the innermost source file or block around them (`Tree.ScopeOf`). While
binding is at a node, its scopes are those around the node, and the names in each
stand for symbols that belong to it (`Binding.Sound`). So an identifier refers
to a symbol of a scope around it (`SymbolTable.exists_ofTree`). The same proof
shows that binding gives a result, with the depth that it allows itself.
-/
import ScriptReduce.Symbol.Scope
import ScriptReduce.Proofs.Evaluate.Termination
import ScriptReduce.Proofs.Tree.WellFormed

namespace ScriptReduce

open ScriptReduce.Tree Relation

variable {t : Tree} {rank : NodeId → Nat} {r s x y d : NodeId} {outer opened : List NodeId}
  {b : Binding} {symbol : Symbol}

/-! ## 1. The scopes of a tree -/

/-- Whether a shape has a scope of its own. -/
def Shape.OpensScope {α : Type} : Shape α → Prop
  | .sourceFile _ | .block _ => True
  | _ => False

def Tree.OpensScope (t : Tree) (x : NodeId) : Prop := ∃ s, t.shape x = .ok s ∧ s.OpensScope

instance {α : Type} : DecidablePred (Shape.OpensScope : Shape α → Prop)
  | .sourceFile _ | .block _ => .isTrue trivial
  | .literal _ | .identifier _ | .unary _ _ | .binary _ _ _ | .call _ _ | .branch _ _ _
  | .expressionStatement _ | .variableStatement _ | .declarationList _ _ | .declaration _ _
  | .emptyStatement | .other _ _ => .isFalse fun h => h

instance (t : Tree) (x : NodeId) : Decidable (t.OpensScope x) :=
  decidable_of_iff (∃ n ∈ (t.get? x).toList, n.shape.OpensScope) (by
    simp only [Option.mem_toList, OpensScope, shape_eq_ok]
    constructor
    · rintro ⟨n, hn, hopens⟩
      exact ⟨n.shape, ⟨n, hn, rfl⟩, hopens⟩
    · rintro ⟨_, ⟨n, hn, rfl⟩, hopens⟩
      exact ⟨n, hn, hopens⟩)

theorem Tree.not_opensScope {shape : Shape NodeId} (h : t.shape x = .ok shape)
    (hshape : ¬shape.OpensScope) : ¬t.OpensScope x := by
  rintro ⟨_, hs, hopens⟩
  rw [h] at hs
  cases hs
  exact hshape hopens

/-- One node is below another, and no scope is opened on the way down. -/
def Tree.ReachesInScope (t : Tree) : NodeId → NodeId → Prop :=
  ReflTransGen fun a b => t.Holds a b ∧ ¬t.OpensScope b

/-- What can be reached along a path that no scope stands in. -/
theorem Tree.reachesInScope_of_path (path : List NodeId)
    (hpath : List.IsChain (fun a b => t.Holds a b ∧ ¬t.OpensScope b) path) (hne : path ≠ []) :
    t.ReachesInScope (path.head hne) (path.getLast hne) :=
  List.relationReflTransGen_of_exists_isChain path hpath hne

/-- The scope that a declaration of some kind belongs to, in what is below a
root: the root for `var`, and else the innermost around the declaration. -/
def Tree.ScopeOf (t : Tree) (r : NodeId) (kind : BindingKind) (s d : NodeId) : Prop :=
  if kind.isBlockScoped then t.OpensScope s ∧ t.ReachesInScope s d else s = r ∧ t.Reaches r d

/-- A symbol is made for a declaration of its name that belongs to a scope. -/
def Tree.Introduces (t : Tree) (r s : NodeId) (symbol : Symbol) : Prop :=
  ∃ d name initializer, symbol.declaration = some d ∧
    t.shape d = .ok (.declaration name initializer) ∧
    t.shape name = .ok (.identifier symbol.name) ∧ t.ScopeOf r symbol.kind s d

/-- An identifier has the name of a symbol that belongs to a scope around it. -/
def Tree.Refers (t : Tree) (r x : NodeId) (symbol : Symbol) : Prop :=
  t.shape x = .ok (.identifier symbol.name) ∧
    ∃ s, t.Introduces r s symbol ∧ t.Reaches r s ∧ t.Reaches s x

theorem Tree.ReachesInScope.reaches (h : t.ReachesInScope x y) : t.Reaches x y :=
  ReflTransGen.mono (fun _ _ h => h.1) _ _ h

theorem Tree.ScopeOf.reaches {kind : BindingKind} (h : t.ScopeOf r kind s d) : t.Reaches s d := by
  unfold ScopeOf at h
  split at h
  · exact h.2.reaches
  · rw [h.1]
    exact h.2

/-- The scopes around a node: the innermost, and those around that. -/
structure Tree.Surrounds (t : Tree) (r s : NodeId) (outer : List NodeId) (x : NodeId) : Prop where
  opens : t.OpensScope s
  outermost : (s :: outer).getLast? = some r
  around : ∀ o ∈ s :: outer, t.Reaches r o ∧ t.Reaches o x
  innermost : ∃ p, t.ReachesInScope s p ∧ t.Holds p x

namespace Tree.Surrounds

theorem reaches (h : t.Surrounds r s outer x) : t.Reaches r x := by
  obtain ⟨hs, hx⟩ := h.around s List.mem_cons_self
  exact hs.trans hx

theorem reachesInScope (h : t.Surrounds r s outer x) (hx : ¬t.OpensScope x) :
    t.ReachesInScope s x := by
  obtain ⟨p, hp, hholds⟩ := h.innermost
  exact hp.tail ⟨hholds, hx⟩

/-- The same scopes are around what a node holds that opens none. -/
theorem child (h : t.Surrounds r s outer x) (hx : ¬t.OpensScope x) (hy : t.Holds x y) :
    t.Surrounds r s outer y where
  opens := h.opens
  outermost := h.outermost
  around o ho := ⟨(h.around o ho).1, (h.around o ho).2.trans_holds hy⟩
  innermost := ⟨x, h.reachesInScope hx, hy⟩

end Tree.Surrounds

/-! ## 2. What binding keeps -/

/-- Folding in `Except` gives a result if every step gives one, and what each
step keeps holds in the end. -/
theorem exists_foldlM {α β : Type} {f : β → α → Except Fault β} {I : β → Prop} {xs : List α}
    (hf : ∀ b, I b → ∀ x ∈ xs, ∃ b', f b x = .ok b' ∧ I b') {b : β} (hb : I b) :
    ∃ b', xs.foldlM f b = .ok b' ∧ I b' := by
  induction xs generalizing b with
  | nil => exact ⟨b, rfl, hb⟩
  | cons x xs ih =>
    obtain ⟨b₁, h₁, hb₁⟩ := hf b hb x List.mem_cons_self
    rw [List.foldlM_cons, bind_of_ok _ h₁]
    exact ih (fun b hb y hy => hf b hb y (List.mem_cons_of_mem x hy)) hb₁

/-- A name in a scope stands for a symbol that belongs to it. -/
def SymbolTable.Offers (table : SymbolTable) (t : Tree) (r s : NodeId)
    (entry : String × SymbolId) : Prop :=
  ∃ symbol, table.get? entry.2 = some symbol ∧ symbol.name = entry.1 ∧ t.Introduces r s symbol

/-- The scopes of a binding are those of some nodes, and identifiers have been
recorded to refer to what is in scope. -/
structure Binding.Sound (t : Tree) (r : NodeId) (opened : List NodeId) (b : Binding) : Prop where
  scopes : List.Forall₂ (fun scope s => ∀ entry ∈ scope, b.table.Offers t r s entry)
    b.scopes opened
  resolutions : ∀ x id, (x, id) ∈ b.table.resolutions →
    ∃ symbol, b.table.get? id = some symbol ∧ t.Refers r x symbol

theorem SymbolTable.get?_declare (table : SymbolTable) (name : String) (kind : BindingKind)
    (declaration : Option NodeId) (id : SymbolId) :
    (table.declare name kind declaration).2.get? id =
      if id = ⟨table.symbols.size⟩ then some ⟨⟨table.symbols.size⟩, name, kind, declaration⟩
      else table.get? id := by
  have h : (id = ⟨table.symbols.size⟩) ↔ id.index = table.symbols.size :=
    ⟨fun h => congrArg Id.index h, fun h => Id.ext_index h⟩
  simp only [declare, get?, Array.getElem?_push, h]

/-- A symbol in the table is the one that was added or was there before. -/
theorem SymbolTable.declare_cases {table : SymbolTable} {name : String} {kind : BindingKind}
    {declaration : Option NodeId} {i : Nat}
    (h : (table.declare name kind declaration).2.symbols[i]? = some symbol) :
    (i = table.symbols.size ∧ symbol = ⟨⟨table.symbols.size⟩, name, kind, declaration⟩) ∨
      i < table.symbols.size ∧ table.symbols[i]? = some symbol := by
  simp only [declare, Array.getElem?_push] at h
  split at h
  · rename_i heq
    exact .inl ⟨heq, (Option.some.inj h).symm⟩
  · exact .inr ⟨(Array.getElem?_eq_some_iff.1 h).1, h⟩

/-- A symbol that was there before is still there. -/
theorem SymbolTable.get?_declare_of_some {table : SymbolTable} {id : SymbolId}
    (h : table.get? id = some symbol) (name : String) (kind : BindingKind)
    (declaration : Option NodeId) :
    (table.declare name kind declaration).2.get? id = some symbol := by
  rw [get?_declare, if_neg, h]
  rintro rfl
  obtain ⟨hlt, _⟩ := Array.getElem?_eq_some_iff.1 h
  exact Nat.lt_irrefl _ hlt

namespace Binding

/-- A name is looked up from the inside out. -/
theorem lookup_cases {P : Scope → NodeId → Prop} {scopes : List Scope}
    (h : List.Forall₂ P scopes opened) (name : String) :
    (lookup scopes name = none ∧ ∀ s ∈ opened, ∃ scope, P scope s ∧ scope.lookup name = none) ∨
      ∃ inner s outer scope id, opened = inner ++ s :: outer ∧
        (∀ o ∈ inner, ∃ scope, P scope o ∧ scope.lookup name = none) ∧
        P scope s ∧ scope.lookup name = some id ∧ lookup scopes name = some id := by
  induction h with
  | nil => exact .inl ⟨rfl, by simp⟩
  | @cons scope s scopes opened hscope _ ih =>
    cases hname : scope.lookup name with
    | none =>
      have hlookup : lookup (scope :: scopes) name = lookup scopes name := by
        rw [lookup, List.findSome?_cons, hname]
        rfl
      have hfirst : ∃ scope, P scope s ∧ scope.lookup name = none := ⟨scope, hscope, hname⟩
      rw [hlookup]
      rcases ih with ⟨hnone, hall⟩ | ⟨inner, s', outer, scope', id, rfl, hinner, hfound⟩
      · exact .inl ⟨hnone, List.forall_mem_cons.2 ⟨hfirst, hall⟩⟩
      · exact .inr ⟨s :: inner, s', outer, scope', id, rfl,
          List.forall_mem_cons.2 ⟨hfirst, hinner⟩, hfound⟩
    | some id =>
      refine .inr ⟨[], s, opened, scope, id, rfl, by simp, hscope, hname, ?_⟩
      rw [lookup, List.findSome?_cons, hname]

/-! ## 3. Declarations -/

section

variable {P Q : Scope → NodeId → Prop} {scopes : List Scope} {name : String} {id : SymbolId}

theorem forall₂_of_mem (h : List.Forall₂ P scopes opened)
    (hall : ∀ o ∈ opened, ∀ scope, P scope o → Q scope o) : List.Forall₂ Q scopes opened := by
  induction h with
  | nil => exact .nil
  | cons hscope _ ih =>
    obtain ⟨hfirst, hall⟩ := List.forall_mem_cons.1 hall
    exact .cons (hfirst _ hscope) (ih hall)

/-- A name that is added to the innermost scope concerns that scope only. -/
theorem forall₂_bindInnermost (h : List.Forall₂ P scopes (s :: outer))
    (hadd : ∀ scope, P scope s → Q ((name, id) :: scope) s)
    (hskip : ∀ o ∈ outer, ∀ scope, P scope o → Q scope o) :
    List.Forall₂ Q (bindInnermost name id scopes) (s :: outer) := by
  cases h with
  | cons hscope hrest => exact .cons (hadd _ hscope) (forall₂_of_mem hrest hskip)

/-- A name that is added to the outermost scope concerns that scope only. -/
theorem forall₂_bindOutermost (h : List.Forall₂ P scopes opened)
    (hlast : opened.getLast? = some r) (hadd : ∀ scope, P scope r → Q ((name, id) :: scope) r)
    (hskip : ∀ o ∈ opened.dropLast, ∀ scope, P scope o → Q scope o) :
    List.Forall₂ Q (bindOutermost name id scopes) opened := by
  induction h with
  | nil => cases hlast
  | @cons scope s scopes opened hscope hrest ih =>
    cases hrest with
    | nil =>
      cases hlast
      exact .cons (hadd _ hscope) .nil
    | cons hscope' hrest =>
      rw [List.getLast?_cons_cons] at hlast
      rw [List.dropLast_cons_cons] at hskip
      obtain ⟨hfirst, hskip⟩ := List.forall_mem_cons.1 hskip
      exact .cons (hfirst _ hscope) (ih hlast hskip)

end

namespace Sound

theorem declareName (h : b.Sound t r (s :: outer)) (hd : t.Surrounds r s outer d)
    {nameNode : NodeId} {initializer : Option NodeId} {name : String}
    (hshape : t.shape d = .ok (.declaration nameNode initializer))
    (hname : t.shape nameNode = .ok (.identifier name)) (kind : BindingKind) :
    (b.declareName kind name d).Sound t r (s :: outer) := by
  have hkept : ∀ {o : NodeId} {entry : String × SymbolId}, b.table.Offers t r o entry →
      (b.table.declare name kind (some d)).2.Offers t r o entry := by
    rintro o entry ⟨symbol, hget, hrest⟩
    exact ⟨symbol, SymbolTable.get?_declare_of_some hget name kind (some d), hrest⟩
  have hscopes := h.scopes.imp fun _ _ hall entry hentry => hkept (hall entry hentry)
  have hnew : ∀ o, t.ScopeOf r kind o d →
      (b.table.declare name kind (some d)).2.Offers t r o (name, ⟨b.table.symbols.size⟩) :=
    fun o ho => ⟨_, by rw [SymbolTable.get?_declare, if_pos rfl], rfl, d, nameNode, initializer,
      rfl, hshape, hname, ho⟩
  have hclosed : ¬t.OpensScope d := not_opensScope hshape id
  constructor
  · show List.Forall₂ _ (if kind.isBlockScoped
      then bindInnermost name ⟨b.table.symbols.size⟩ b.scopes
      else bindOutermost name ⟨b.table.symbols.size⟩ b.scopes) (s :: outer)
    split
    · rename_i hkind
      have hs : t.ScopeOf r kind s d := by
        rw [ScopeOf, if_pos hkind]
        exact ⟨hd.opens, hd.reachesInScope hclosed⟩
      exact forall₂_bindInnermost hscopes
        (fun _ hall => List.forall_mem_cons.2 ⟨hnew s hs, hall⟩) fun _ _ _ hall => hall
    · rename_i hkind
      have hs : t.ScopeOf r kind r d := by
        rw [ScopeOf, if_neg hkind]
        exact ⟨rfl, hd.reaches⟩
      exact forall₂_bindOutermost hscopes hd.outermost
        (fun _ hall => List.forall_mem_cons.2 ⟨hnew r hs, hall⟩) fun _ _ _ hall => hall
  · intro x id hx
    obtain ⟨symbol, hget, hrefers⟩ := h.resolutions x id hx
    exact ⟨symbol, SymbolTable.get?_declare_of_some hget name kind (some d), hrefers⟩

variable (hc : t.Closed Everywhere)

include hc

theorem declare (h : b.Sound t r (s :: outer)) (hd : t.Surrounds r s outer d)
    (kind : BindingKind) :
    ∃ b', Binding.declare t kind b d = .ok b' ∧ b'.Sound t r (s :: outer) := by
  unfold Binding.declare
  split
  · exact ⟨b, rfl, h⟩
  have hmarked : ({ b with declared := d :: b.declared } : Binding).Sound t r (s :: outer) :=
    ⟨h.scopes, h.resolutions⟩
  obtain ⟨p, _, hholds⟩ := hd.innermost
  obtain ⟨n, hn⟩ := exists_get? (hc.children p d trivial hholds).2
  simp only
  rw [bind_of_ok _ (shape_of_get? hn)]
  split
  · rename_i nameNode initializer hshape
    have hname : t.Holds d nameNode := ⟨n, hn, by simp [hshape]⟩
    obtain ⟨k, hk⟩ := exists_get? (hc.children d nameNode trivial hname).2
    rw [bind_of_ok _ (shape_of_get? hk)]
    split
    · rename_i name hident
      have hshape' : t.shape d = .ok (.declaration nameNode initializer) := by
        rw [shape_of_get? hn, hshape]
      have hident' : t.shape nameNode = .ok (.identifier name) := by rw [shape_of_get? hk, hident]
      exact ⟨_, rfl, hmarked.declareName hd hshape' hident' kind⟩
    · exact ⟨_, rfl, hmarked⟩
  · exact ⟨_, rfl, hmarked⟩

theorem declareList (h : b.Sound t r (s :: outer)) (hx : t.Surrounds r s outer x) :
    ∃ b', b.declareList t x = .ok b' ∧ b'.Sound t r (s :: outer) := by
  obtain ⟨p, _, hholds⟩ := hx.innermost
  obtain ⟨n, hn⟩ := exists_get? (hc.children p x trivial hholds).2
  unfold Binding.declareList
  rw [bind_of_ok _ (shape_of_get? hn)]
  split
  · rename_i kind declarations hshape
    have hclosed : ¬t.OpensScope x :=
      not_opensScope (shape_of_get? hn) (by rw [hshape]; exact id)
    refine exists_foldlM (fun b hb d hd => hb.declare hc (hx.child hclosed ?_) kind) h
    exact ⟨n, hn, by rwa [hshape, Shape.children_declarationList]⟩
  · exact ⟨_, rfl, h⟩

theorem declareStatement (h : b.Sound t r (s :: outer)) (hx : t.Surrounds r s outer x) :
    ∃ b', b.declareStatement t x = .ok b' ∧ b'.Sound t r (s :: outer) := by
  obtain ⟨p, _, hholds⟩ := hx.innermost
  obtain ⟨n, hn⟩ := exists_get? (hc.children p x trivial hholds).2
  unfold Binding.declareStatement
  rw [bind_of_ok _ (shape_of_get? hn)]
  split
  · rename_i list hshape
    have hclosed : ¬t.OpensScope x :=
      not_opensScope (shape_of_get? hn) (by rw [hshape]; exact id)
    exact h.declareList hc (hx.child hclosed ⟨n, hn, by simp [hshape]⟩)
  · exact ⟨_, rfl, h⟩

theorem enter {statements : List NodeId} (h : b.Sound t r outer)
    (hstatements : ∀ x ∈ statements, t.Surrounds r s outer x) :
    ∃ b', b.enter t statements = .ok b' ∧ b'.Sound t r (s :: outer) :=
  exists_foldlM (fun _ hb x hx => hb.declareStatement hc (hstatements x hx))
    ⟨.cons (by simp) h.scopes, h.resolutions⟩

omit hc

theorem leave (h : b.Sound t r (s :: outer)) : b.leave.Sound t r outer := by
  obtain ⟨scope, scopes, _, hrest, heq⟩ := List.forall₂_cons_right_iff.1 h.scopes
  refine ⟨?_, h.resolutions⟩
  show List.Forall₂ _ b.scopes.tail outer
  rw [heq]
  exact hrest

/-! ## 4. Identifiers -/

theorem exists_of_lookup {P : NodeId → String × SymbolId → Prop} {scopes : List Scope}
    {name : String} {id : SymbolId}
    (h : List.Forall₂ (fun scope s => ∀ e ∈ scope, P s e) scopes opened)
    (hlookup : lookup scopes name = some id) : ∃ o ∈ opened, P o (name, id) := by
  rcases lookup_cases h name with
    ⟨hnone, -⟩ | ⟨inner, o, outer, scope, id', rfl, -, hall, hname, hsome⟩
  · rw [hnone] at hlookup
    cases hlookup
  · obtain rfl := Option.some.inj (hsome.symm.trans hlookup)
    obtain ⟨before, after, rfl, -⟩ := List.lookup_eq_some_iff.1 hname
    exact ⟨o, by simp, hall _ (by simp)⟩

/-- An identifier is recorded to refer to a symbol of a scope around it. -/
theorem refer {name : String} (h : b.Sound t r (s :: outer)) (hx : t.Surrounds r s outer x)
    (hshape : t.shape x = .ok (.identifier name)) : (b.refer x name).Sound t r (s :: outer) := by
  unfold Binding.refer
  split
  · rename_i id hlookup
    obtain ⟨o, ho, symbol, hget, rfl, hintroduces⟩ := exists_of_lookup h.scopes hlookup
    refine ⟨h.scopes, fun y id' hy => ?_⟩
    rcases List.mem_cons.1 hy with heq | hy
    · cases heq
      exact ⟨symbol, hget, hshape, o, hintroduces, hx.around o ho⟩
    · exact h.resolutions y id' hy
  · exact h

end Sound

/-! ## 5. Visits -/

section

variable {depth : Nat} {b₁ b₂ : Binding} {shape : Shape NodeId} {name : String}
  {kind : BindingKind} {statements declarations : List NodeId}

/-- A scope is entered, what stands in it is visited, and it is left. -/
theorem visit_scope (hs : t.shape x = .ok shape)
    (hkind : shape = .sourceFile statements ∨ shape = .block statements)
    (h₁ : b.enter t statements = .ok b₁)
    (h₂ : statements.foldlM (visitWithin t depth) b₁ = .ok b₂) :
    visitWithin t (depth + 1) b x = .ok b₂.leave := by
  rw [visitWithin, bind_of_ok _ hs]
  rcases hkind with rfl | rfl <;>
    · simp only
      rw [bind_of_ok _ h₁, bind_of_ok _ h₂]
      rfl

/-- A list declares what stands in it, before that is visited. -/
theorem visit_list (hs : t.shape x = .ok (.declarationList kind declarations))
    (h₁ : b.declareList t x = .ok b₁)
    (h₂ : declarations.foldlM (visitWithin t depth) b₁ = .ok b₂) :
    visitWithin t (depth + 1) b x = .ok b₂ := by
  rw [visitWithin, bind_of_ok _ hs]
  simp only
  rw [bind_of_ok _ h₁]
  exact h₂

theorem visit_identifier (hs : t.shape x = .ok (.identifier name)) :
    visitWithin t (depth + 1) b x = .ok (b.refer x name) := by
  rw [visitWithin, bind_of_ok _ hs]
  rfl

/-- Any other node does nothing but to have its children visited. -/
theorem visit_other (hs : t.shape x = .ok shape) (hclosed : ¬shape.OpensScope)
    (hlist : ∀ kind declarations, shape ≠ .declarationList kind declarations)
    (hname : ∀ name, shape ≠ .identifier name) :
    visitWithin t (depth + 1) b x = shape.children.foldlM (visitWithin t depth) b := by
  rw [visitWithin, bind_of_ok _ hs]
  cases shape with
  | sourceFile | block => exact absurd trivial hclosed
  | declarationList kind declarations => exact absurd rfl (hlist kind declarations)
  | identifier name => exact absurd rfl (hname name)
  | _ => rfl

end

/-! ## 6. Walking -/

namespace Sound

/-- What binding keeps at every node of less than some rank, it keeps at a node
with a scope of that rank. -/
theorem scope (hg : t.Graded Everywhere rank t.size) {depth : Nat}
    (ih : ∀ {b : Binding} {s x : NodeId} {outer : List NodeId}, b.Sound t r (s :: outer) →
      t.Surrounds r s outer x → rank x < depth →
      ∃ b', visitWithin t depth b x = .ok b' ∧ b'.Sound t r (s :: outer))
    (h : b.Sound t r outer) {shape : Shape NodeId} {statements : List NodeId}
    (hshape : t.shape x = .ok shape)
    (hstatements : shape = .sourceFile statements ∨ shape = .block statements)
    (hreach : t.Reaches r x) (hlast : (x :: outer).getLast? = some r)
    (haround : ∀ o ∈ outer, t.Reaches r o ∧ t.Reaches o x) (hdepth : rank x < depth + 1) :
    ∃ b', visitWithin t (depth + 1) b x = .ok b' ∧ b'.Sound t r outer := by
  have hopens : t.OpensScope x :=
    ⟨shape, hshape, by rcases hstatements with rfl | rfl <;> exact trivial⟩
  have hholds : ∀ y ∈ statements, t.Holds x y := by
    intro y hy
    obtain ⟨n, hn, rfl⟩ := shape_eq_ok.1 hshape
    exact ⟨n, hn, by rcases hstatements with hs | hs <;> rw [hs] <;> simpa using hy⟩
  have hsurrounds : ∀ y ∈ statements, t.Surrounds r x outer y := by
    intro y hy
    have hxy := hholds y hy
    refine ⟨hopens, hlast, List.forall_mem_cons.2 ⟨⟨hreach, .single hxy⟩, fun o ho => ?_⟩,
      x, .refl, hxy⟩
    exact ⟨(haround o ho).1, (haround o ho).2.trans_holds hxy⟩
  obtain ⟨b₁, hb₁, h₁⟩ := h.enter hg.toClosed hsurrounds
  obtain ⟨b₂, hb₂, h₂⟩ := exists_foldlM (f := visitWithin t depth)
    (fun b hb y hy => ih hb (hsurrounds y hy) (by
      have := hg.descends x y trivial (hholds y hy)
      omega)) h₁
  exact ⟨b₂.leave, visit_scope hshape hstatements hb₁ hb₂, h₂.leave⟩

/-- Binding comes to an end within a depth beyond the rank of its node, and it
keeps what its scopes and the references mean. -/
theorem visit (hg : t.Graded Everywhere rank t.size) {depth : Nat} :
    ∀ {b : Binding} {s x : NodeId} {outer : List NodeId}, b.Sound t r (s :: outer) →
      t.Surrounds r s outer x → rank x < depth →
      ∃ b', visitWithin t depth b x = .ok b' ∧ b'.Sound t r (s :: outer) := by
  induction depth with
  | zero =>
    intro b s x outer _ _ hdepth
    omega
  | succ depth ih =>
    intro b s x outer h hx hdepth
    obtain ⟨p, _, hp⟩ := hx.innermost
    obtain ⟨n, hn⟩ := exists_get? (hg.children p x trivial hp).2
    have hshape := shape_of_get? hn
    -- the children are visited in the same scopes
    have hchildren : ¬t.OpensScope x → ∀ {b : Binding}, b.Sound t r (s :: outer) →
        ∃ b', n.shape.children.foldlM (visitWithin t depth) b = .ok b' ∧
          b'.Sound t r (s :: outer) := by
      intro hclosed b hb
      refine exists_foldlM (fun b hb y hy => ih hb (hx.child hclosed ⟨n, hn, hy⟩) ?_) hb
      have := hg.descends x y trivial ⟨n, hn, hy⟩
      omega
    cases hs : n.shape with
    | sourceFile statements | block statements =>
      have hlast : (x :: s :: outer).getLast? = some r := by
        rw [List.getLast?_cons_cons]
        exact hx.outermost
      have hkind : n.shape = .sourceFile statements ∨ n.shape = .block statements := by simp [hs]
      exact scope hg ih h hshape hkind hx.reaches hlast hx.around hdepth
    | declarationList kind declarations =>
      obtain ⟨b₁, hb₁, h₁⟩ := h.declareList hg.toClosed hx
      obtain ⟨b₂, hb₂, h₂⟩ := hchildren (not_opensScope hshape (by rw [hs]; exact id)) h₁
      rw [hs, Shape.children_declarationList] at hb₂
      exact ⟨b₂, visit_list (hs ▸ hshape) hb₁ hb₂, h₂⟩
    | identifier name =>
      exact ⟨b.refer x name, visit_identifier (hs ▸ hshape), h.refer hx (hs ▸ hshape)⟩
    | _ =>
      have hclosed : ¬n.shape.OpensScope := by rw [hs]; exact id
      rw [visit_other hshape hclosed (by simp [hs]) (by simp [hs])]
      exact hchildren (not_opensScope hshape hclosed) h

end Sound

end Binding

/-- A graded tree with a source file at its root is bound, and an identifier
refers to a symbol of its name that belongs to a scope around it. -/
theorem SymbolTable.exists_ofTree (hg : t.Graded Everywhere rank t.size) {statements : List NodeId}
    (hr : t.root = some r) (hs : t.shape r = .ok (.sourceFile statements)) :
    ∃ table, SymbolTable.ofTree t = .ok table ∧
      ∀ x symbol, table.resolve x = some symbol → t.Refers r x symbol := by
  have hstart : Binding.start.Sound t r [] := ⟨.nil, by simp [Binding.start, SymbolTable.empty]⟩
  obtain ⟨b, hb, h⟩ := Binding.Sound.scope hg (Binding.Sound.visit hg) hstart hs (.inl rfl) .refl
    rfl (by simp) (Nat.lt_succ_of_le (hg.rank_le r))
  refine ⟨b.table, ?_, fun x symbol hx => ?_⟩
  · rw [ofTree, hr]
    simp only
    rw [bind_of_ok _ (show Binding.start.visitWithin t t.depthLimit r = .ok b from hb)]
    rfl
  · obtain ⟨id, hid, hget⟩ := Option.bind_eq_some_iff.1 hx
    obtain ⟨before, after, heq, _⟩ := List.lookup_eq_some_iff.1 hid
    obtain ⟨symbol', hget', hrefers⟩ := h.resolutions x id (by rw [heq]; simp)
    rw [hget] at hget'
    cases hget'
    exact hrefers

/-- The declarations of a table that a tree is bound to are nodes of it. -/
theorem SymbolTable.within_of_refers {table : SymbolTable}
    (h : ∀ x symbol, table.resolve x = some symbol → t.Refers r x symbol) :
    table.resolve.Within t := by
  intro x symbol d hx hd
  obtain ⟨_, _, ⟨d', _, _, hd', hshape, _⟩, _⟩ := h x symbol hx
  rw [hd] at hd'
  cases hd'
  exact lt_size_of_shape hshape

end ScriptReduce
