/-
ScriptReduce.Proofs.Symbol.Foremost: what an identifier refers to, in any program.

While binding is under way, each open scope has the names of the symbols that belong to
it and have been made so far, and each name stands for the newest of them (`Stands`).
Every step keeps this. The delicate step is the one that opens a scope: it has no names
yet, so no symbol may belong to it yet. Indeed what belongs to it stands below it, and
the walk has met only what is listed above or beside it.

An identifier is looked up once, when the walk comes to it. So it refers to the
foremost of the symbols that are in view there (`Binding.Run.foremost`): those of its
name that belong to a scope around it and whose declaration has been met by then.
Nearer scopes come first, and in one scope newer symbols do. What is met later does
not count, wherever it stands.
-/
import ScriptReduce.Proofs.Symbol.Account
import ScriptReduce.Proofs.Symbol.Lexical

namespace ScriptReduce

open ScriptReduce.Tree Relation

variable {t : Tree} {r s x y d : NodeId} {opened order : List NodeId} {name : String}
  {id : SymbolId}

/-! ## 1. The scopes around a node -/

namespace Tree.Consistent

theorem antisymm (ht : t.Consistent) (h : t.Reaches x y) (h' : t.Reaches y x) : x = y := by
  rcases ReflTransGen.cases_head h with heq | ⟨z, hxz, hzy⟩
  · exact heq
  · exact absurd (hzy.trans h') (ht.not_reaches_of_holds hxz)

/-- All scopes around a node are around its innermost scope. -/
theorem reaches_innermost {s' : NodeId} (ht : t.Consistent) (hx : t.ReachesInScope s x)
    (hs' : t.OpensScope s') (h : t.Reaches s' x) : t.Reaches s' s := by
  induction hx with
  | refl => exact h
  | @tail p x _ hpx ih =>
    obtain ⟨hholds, hclosed⟩ := hpx
    refine ih (ht.reaches_holder h ?_ hholds)
    rintro rfl
    exact hclosed hs'

/-- A node has one innermost scope. -/
theorem innermost_eq {s' : NodeId} (ht : t.Consistent) (hs : t.OpensScope s)
    (hs' : t.OpensScope s') (hx : t.ReachesInScope s x) (hx' : t.ReachesInScope s' x) : s = s' :=
  ht.antisymm (ht.reaches_innermost hx' hs hx.reaches) (ht.reaches_innermost hx hs' hx'.reaches)

/-- What is announced at a node stands below every scope that is around it. -/
theorem reaches_of_announced {e : BindingKind × NodeId} (ht : t.Consistent)
    (he : e ∈ t.announced x) (hs : t.OpensScope s) (hd : ¬t.OpensScope e.2)
    (h : t.Reaches s e.2) : t.Reaches s x := by
  have hup : ∀ {y z : NodeId}, ¬t.OpensScope z → t.Holds y z → t.Reaches s z → t.Reaches s y := by
    intro y z hz hyz hsz
    refine ht.reaches_holder hsz ?_ hyz
    rintro rfl
    exact hz hs
  rcases of_mem_announced he with ⟨ds, hx, hmem⟩ | he
  · exact hup hd (holds_of_shape hx (by simpa using hmem)) h
  · obtain ⟨v, hv, he⟩ := List.mem_flatMap.1 he
    obtain ⟨l, ds, hvs, hls, -, hvl, hld⟩ := of_mem_listed he
    obtain ⟨-, hxv⟩ := of_mem_statements hv
    have hl : t.Reaches s l := hup hd hld h
    have hv : t.Reaches s v := hup (not_opensScope hls (fun h => h)) hvl hl
    exact hup (not_opensScope hvs (fun h => h)) hxv hv

end Tree.Consistent

namespace Tree.Path

/-- The open scopes are those around the node, unless it is the root. -/
theorem surrounds (h : t.Path r opened x) (hr : t.OpensScope r) :
    (x = r ∧ opened = []) ∨ ∃ s outer, opened = s :: outer ∧ t.Surrounds r s outer x := by
  induction h with
  | root => exact .inl ⟨rfl, rfl⟩
  | @inner opened x y path opens holds ih =>
    refine .inr ⟨x, opened, rfl, opens, ?_, ?_, x, .refl, holds⟩
    · rcases ih with ⟨rfl, rfl⟩ | ⟨s, outer, rfl, hs⟩
      · rfl
      · rw [List.getLast?_cons_cons]
        exact hs.outermost
    · intro o ho
      rcases List.mem_cons.1 ho with rfl | ho
      · exact ⟨path.reaches, .single holds⟩
      · rcases ih with ⟨-, rfl⟩ | ⟨s, outer, rfl, hs⟩
        · cases ho
        · obtain ⟨hro, hox⟩ := hs.around o ho
          exact ⟨hro, hox.trans_holds holds⟩
  | beside _ closed holds ih =>
    rcases ih with ⟨rfl, -⟩ | ⟨s, outer, rfl, hs⟩
    · exact absurd hr closed
    · exact .inr ⟨s, outer, rfl, hs.child closed holds⟩

theorem enclosed (h : t.Path r opened x) (ht : t.Consistent) : t.Enclosed r opened x := by
  induction h with
  | root => exact .root ht r
  | inner _ opens holds ih => exact ih.inner ht opens holds
  | beside _ closed holds ih => exact ih.child ht closed holds

theorem above (h : t.Path r opened x) : ∀ o ∈ opened, TransGen t.Holds o x := by
  induction h with
  | root => simp
  | inner _ _ holds ih =>
    exact List.forall_mem_cons.2 ⟨.single holds, fun o ho => (ih o ho).tail holds⟩
  | beside _ _ holds ih => exact fun o ho => (ih o ho).tail holds

/-- No scope is open twice. -/
theorem nodup (h : t.Path r opened x) (ht : t.Consistent) : opened.Nodup := by
  induction h with
  | root => exact .nil
  | inner path _ _ ih =>
    exact List.nodup_cons.2 ⟨fun hmem => ht.acyclic _ (path.above _ hmem), ih⟩
  | beside _ _ _ ih => exact ih

end Tree.Path

/-- A declaration is declared with the scopes around it open. -/
theorem Tree.ListedIn.surrounds {e : BindingKind × NodeId} (h : t.ListedIn r opened e)
    (hr : t.OpensScope r) : ∃ s outer, opened = s :: outer ∧ t.Surrounds r s outer e.2 := by
  obtain ⟨l, ds, hpath, hl, hd⟩ := h
  have hclosed : ¬t.OpensScope l := not_opensScope hl (fun h => h)
  rcases hpath.surrounds hr with ⟨rfl, -⟩ | ⟨s, outer, rfl, hs⟩
  · exact absurd hr hclosed
  · exact ⟨s, outer, rfl, hs.child hclosed (holds_of_shape hl (by simpa using hd))⟩

/-! ## 2. What the names of a scope stand for -/

theorem Tree.not_opensScope_of_nameOf? (h : t.nameOf? d = some name) : ¬t.OpensScope d := by
  unfold nameOf? at h
  split at h
  · rename_i hd
    exact not_opensScope hd (fun h => h)
  · cases h

theorem Tree.introduces_iff {symbol : Symbol} : t.Introduces r s symbol ↔
    ∃ d, symbol.declaration = some d ∧ t.nameOf? d = some symbol.name ∧
      t.ScopeOf r symbol.kind s d := by
  constructor
  · rintro ⟨d, n, initializer, hd, hshape, hname, hscope⟩
    exact ⟨d, hd, by simp [nameOf?, hshape, hname], hscope⟩
  · rintro ⟨d, hd, hname, hscope⟩
    unfold nameOf? at hname
    split at hname
    · rename_i n initializer hshape
      split at hname
      · rename_i name hident
        cases hname
        exact ⟨d, n, initializer, hd, hshape, hident, hscope⟩
      · cases hname
    · cases hname

/-- No symbol of a name belongs to a scope. -/
def SymbolTable.Lacks (table : SymbolTable) (t : Tree) (r s : NodeId) (name : String) : Prop :=
  ∀ (i : Nat) (symbol : Symbol), table.symbols[i]? = some symbol → symbol.name = name →
    ¬t.Introduces r s symbol

/-- Of the symbols of a name that belong to a scope, the newest. -/
structure SymbolTable.Newest (table : SymbolTable) (t : Tree) (r s : NodeId) (name : String)
    (id : SymbolId) (symbol : Symbol) : Prop where
  has : table.get? id = some symbol
  named : symbol.name = name
  introduces : t.Introduces r s symbol
  newest : ∀ (i : Nat) (symbol' : Symbol), table.symbols[i]? = some symbol' →
    symbol'.name = name → t.Introduces r s symbol' → i ≤ id.index

/-- Each name in a scope stands for the newest symbol of it that belongs there. -/
def Stands (t : Tree) (r : NodeId) (table : SymbolTable) (scope : Scope) (s : NodeId) : Prop :=
  ∀ name, (scope.lookup name = none ∧ table.Lacks t r s name) ∨
    ∃ id symbol, scope.lookup name = some id ∧ table.Newest t r s name id symbol

section

variable {table table' : SymbolTable} {scope : Scope} {kind : BindingKind}

theorem Stands.lacks (h : Stands t r table scope s) (hname : scope.lookup name = none) :
    table.Lacks t r s name := by
  rcases h name with ⟨-, hno⟩ | ⟨_, _, hsome, -⟩
  · exact hno
  · rw [hname] at hsome
    cases hsome

theorem Stands.newest (h : Stands t r table scope s) (hname : scope.lookup name = some id) :
    ∃ symbol, table.Newest t r s name id symbol := by
  rcases h name with ⟨hnone, -⟩ | ⟨id', symbol, hsome, hnew⟩
  · rw [hname] at hnone
    cases hnone
  · obtain rfl := Option.some.inj (hname.symm.trans hsome)
    exact ⟨symbol, hnew⟩

/-- A scope lacks a name as long as no symbol of it is added there. -/
theorem SymbolTable.Lacks.mono (h : table.Lacks t r s name)
    (hold : ∀ (i : Nat) (symbol : Symbol), table'.symbols[i]? = some symbol →
      symbol.name = name → t.Introduces r s symbol → table.symbols[i]? = some symbol) :
    table'.Lacks t r s name := by
  intro i symbol hi hname hs
  exact h i symbol (hold i symbol hi hname hs) hname hs

theorem SymbolTable.Newest.mono {symbol : Symbol} (h : table.Newest t r s name id symbol)
    (hext : table.Extends table')
    (hold : ∀ (i : Nat) (symbol : Symbol), table'.symbols[i]? = some symbol →
      symbol.name = name → t.Introduces r s symbol → table.symbols[i]? = some symbol) :
    table'.Newest t r s name id symbol where
  has := hext id symbol h.has
  named := h.named
  introduces := h.introduces
  newest i symbol' hi hname hs := h.newest i symbol' (hold i symbol' hi hname hs) hname hs

/-- The names of a scope stand for the same symbols if none is added that belongs there. -/
theorem Stands.mono (h : Stands t r table scope s) (hext : table.Extends table')
    (hold : ∀ (i : Nat) (symbol : Symbol), table'.symbols[i]? = some symbol →
      t.Introduces r s symbol → table.symbols[i]? = some symbol) :
    Stands t r table' scope s := by
  intro name
  rcases h name with ⟨hnone, hno⟩ | ⟨id, symbol, hsome, hnew⟩
  · exact .inl ⟨hnone, hno.mono fun i symbol hi _ => hold i symbol hi⟩
  · exact .inr ⟨id, symbol, hsome, hnew.mono hext fun i symbol hi _ => hold i symbol hi⟩

/-- What identifiers refer to does not matter. -/
theorem Stands.bind (h : Stands t r table scope s) (x : NodeId) (id : SymbolId) :
    Stands t r (table.bind x id) scope s :=
  h.mono (fun _ _ hget => hget) fun _ _ hi _ => hi

/-- A symbol that belongs elsewhere changes nothing. -/
theorem Stands.skip (h : Stands t r table scope s)
    (hd : ¬t.Introduces r s ⟨⟨table.symbols.size⟩, name, kind, some d⟩) :
    Stands t r (table.declare name kind (some d)).2 scope s := by
  refine h.mono (.declare table name kind (some d)) fun i symbol hi hs => ?_
  rcases SymbolTable.declare_cases hi with ⟨-, rfl⟩ | ⟨-, hi⟩
  · exact absurd hs hd
  · exact hi

/-- A symbol that belongs to the scope takes over its name. -/
theorem Stands.add (h : Stands t r table scope s)
    (hd : t.Introduces r s ⟨⟨table.symbols.size⟩, name, kind, some d⟩) :
    Stands t r (table.declare name kind (some d)).2 ((name, ⟨table.symbols.size⟩) :: scope) s := by
  intro name'
  by_cases hname : name' = name
  · subst hname
    refine .inr ⟨⟨table.symbols.size⟩, _, by simp, ?_, rfl, hd, fun i symbol hi _ _ => ?_⟩
    · rw [SymbolTable.get?_declare, if_pos rfl]
    · rcases SymbolTable.declare_cases hi with ⟨rfl, -⟩ | ⟨hlt, -⟩
      · exact Nat.le_refl _
      · exact Nat.le_of_lt hlt
  · have hold : ∀ (i : Nat) (symbol : Symbol),
        (table.declare name kind (some d)).2.symbols[i]? = some symbol → symbol.name = name' →
        t.Introduces r s symbol → table.symbols[i]? = some symbol := by
      intro i symbol hi hs _
      rcases SymbolTable.declare_cases hi with ⟨-, rfl⟩ | ⟨-, hi⟩
      · exact absurd hs.symm hname
      · exact hi
    rw [List.lookup_cons, beq_eq_false_iff_ne.2 hname]
    rcases h name' with ⟨hnone, hno⟩ | ⟨id, symbol, hsome, hnew⟩
    · exact .inl ⟨hnone, hno.mono hold⟩
    · exact .inr ⟨id, symbol, hsome, hnew.mono (.declare table name kind (some d)) hold⟩

end

namespace Binding

variable {m m' : Moment} {b b' : Binding} {passed : List NodeId}
  {met : List (BindingKind × NodeId)} {e : BindingKind × NodeId}

/-- Binding keeps its account, and each name in an open scope stands for the newest symbol
of it that belongs there. -/
structure Tracks (t : Tree) (r : NodeId) (m : Moment) : Prop extends Accounts t r m where
  scopes : List.Forall₂ (Stands t r m.binding.table) m.binding.scopes m.opened

/-- When a scope is opened no symbol belongs to it yet: what is announced at a node that the
walk has come to stands below that node or beside it. -/
theorem Accounts.lacks (h : Accounts t r ⟨opened, passed, passed.flatMap t.announced, b⟩)
    (ht : t.Consistent) (hx : t.OpensScope x) (hpassed : ∀ y ∈ passed, ¬t.Reaches x y)
    (name : String) : b.table.Lacks t r x name := by
  intro i symbol hi _ hs
  obtain ⟨d, hd, hname, hscope⟩ := introduces_iff.1 hs
  obtain ⟨-, d', hd', hmem, -⟩ := h.symbols i symbol hi
  obtain rfl := Option.some.inj (hd.symm.trans hd')
  obtain ⟨y, hy, he⟩ := List.mem_flatMap.1 hmem
  have hclosed : ¬t.OpensScope d := not_opensScope_of_nameOf? hname
  exact hpassed y hy (ht.reaches_of_announced he hx hclosed hscope.reaches)

namespace Tracks

theorem start (t : Tree) (r : NodeId) : Tracks t r ⟨[], [], [], .start⟩ :=
  ⟨.start t r, .nil⟩

/-- The symbol of a declaration takes over its name in the one open scope that it belongs
to. -/
theorem declareName (h : Tracks t r ⟨opened, passed, met, b⟩) (ht : t.Consistent)
    (hr : t.OpensScope r) (he : t.ListedIn r opened e) (hname : t.nameOf? e.2 = some name) :
    List.Forall₂ (Stands t r (b.table.declare name e.1 (some e.2)).2)
      (b.declareName e.1 name e.2).scopes opened := by
  obtain ⟨s, outer, rfl, hs⟩ := he.surrounds hr
  obtain ⟨l, ds, hpath, -⟩ := he
  have hnodup := hpath.nodup ht
  have hin : t.ReachesInScope s e.2 := hs.reachesInScope (not_opensScope_of_nameOf? hname)
  have hiff : ∀ o, t.Introduces r o ⟨⟨b.table.symbols.size⟩, name, e.1, some e.2⟩ ↔
      t.ScopeOf r e.1 o e.2 := by
    simp [introduces_iff, hname]
  unfold Binding.declareName
  simp only
  split
  · rename_i hkind
    refine forall₂_bindInnermost h.scopes (fun scope hscope => hscope.add ?_)
      fun o ho scope hscope => hscope.skip fun hintro => ?_
    · rw [hiff, ScopeOf, if_pos hkind]
      exact ⟨hs.opens, hin⟩
    · rw [hiff, ScopeOf, if_pos hkind] at hintro
      obtain rfl := ht.innermost_eq hintro.1 hs.opens hintro.2 hin
      exact (List.nodup_cons.1 hnodup).1 ho
  · rename_i hkind
    refine forall₂_bindOutermost h.scopes hs.outermost (fun scope hscope => hscope.add ?_)
      fun o ho scope hscope => hscope.skip fun hintro => ?_
    · rw [hiff, ScopeOf, if_neg hkind]
      exact ⟨rfl, hs.reaches⟩
    · rw [hiff, ScopeOf, if_neg hkind] at hintro
      obtain rfl := hintro.1
      rw [← List.dropLast_append_getLast? o hs.outermost] at hnodup
      exact List.disjoint_of_nodup_append hnodup ho (by simp)

/-- Every step keeps track, in an order in which no node comes after what is below it. -/
theorem step (h : Tracks t r m) (ht : t.Consistent) (hr : t.OpensScope r)
    (horder : order.Pairwise fun y z => ¬t.Reaches z y) (hstep : Step t r order m m') :
    Tracks t r m' := by
  refine ⟨h.toAccounts.step hstep, ?_⟩
  have hscopes := h.scopes
  cases hstep with
  | pass => exact hscopes
  | enter path next opens =>
    rw [next] at horder
    have hpassed := (List.pairwise_append.1 horder).2.2
    have hlacks := h.toAccounts.lacks ht opens fun y hy => hpassed y hy _ List.mem_cons_self
    exact .cons (fun name => .inl ⟨rfl, hlacks name⟩) hscopes
  | refer =>
    unfold Binding.refer
    split
    · exact hscopes.imp fun _ _ hscope => hscope.bind _ _
    · exact hscopes
  | declare lists declares =>
    rcases declare_cases declares with ⟨-, rfl⟩ | ⟨-, ⟨-, rfl⟩ | ⟨name, hname, rfl⟩⟩
    · exact hscopes
    · exact hscopes
    · exact h.declareName ht hr lists hname
  | leave =>
    obtain ⟨scope, scopes, -, hrest, heq⟩ := List.forall₂_cons_right_iff.1 hscopes
    show List.Forall₂ _ (Binding.scopes _).tail _
    rw [heq]
    exact hrest

/-- So does every run. -/
theorem run (h : Tracks t r m) (ht : t.Consistent) (hr : t.OpensScope r)
    (horder : order.Pairwise fun y z => ¬t.Reaches z y) (hrun : Run t r order m m') :
    Tracks t r m' := by
  induction hrun with
  | refl => exact h
  | tail _ hstep ih => exact ih.step ht hr horder hstep

/-- A name that is looked up is found in the innermost scope around the node that has a
symbol of it, and stands for the newest there. -/
theorem lookup_cases (h : Tracks t r ⟨opened, passed, met, b⟩) (ht : t.Consistent)
    (hpath : t.Path r opened x) (hx : ¬t.OpensScope x) (name : String) :
    (lookup b.scopes name = none ∧ ∀ s, t.ScopeAround r s x → b.table.Lacks t r s name) ∨
      ∃ s id symbol, lookup b.scopes name = some id ∧ t.ScopeAround r s x ∧
        b.table.Newest t r s name id symbol ∧
        ∀ s', t.ScopeAround r s' x → t.Reaches s' s ∨ b.table.Lacks t r s' name := by
  have henclosed := hpath.enclosed ht
  have hopened : ∀ s, t.ScopeAround r s x → s ∈ opened := by
    intro s hs
    refine henclosed.all s hs ?_
    rintro rfl
    exact hx hs.1
  rcases Binding.lookup_cases h.scopes name with
    ⟨hnone, hall⟩ | ⟨inner, s, outer, scope, id, rfl, hinner, hstands, hname, hsome⟩
  · refine .inl ⟨hnone, fun s hs => ?_⟩
    obtain ⟨scope, hstands, hempty⟩ := hall s (hopened s hs)
    exact hstands.lacks hempty
  · obtain ⟨symbol, hnew⟩ := hstands.newest hname
    refine .inr ⟨s, id, symbol, hsome, henclosed.around s (by simp), hnew, fun s' hs' => ?_⟩
    rcases List.mem_append.1 (hopened s' hs') with hmem | hmem
    · obtain ⟨scope, hstands', hempty⟩ := hinner s' hmem
      exact .inr (hstands'.lacks hempty)
    · rcases List.mem_cons.1 hmem with rfl | hmem
      · exact .inl .refl
      · have hnested := (List.pairwise_append.1 henclosed.nested).2.1
        exact .inl ((List.pairwise_cons.1 hnested).1 s' hmem)

end Tracks

/-! ## 4. When an identifier is looked up -/

theorem Step.extends (h : Step t r order m m') : m.binding.table.Extends m'.binding.table := by
  cases h with
  | pass | enter | leave => exact .refl _
  | refer =>
    unfold Binding.refer
    split <;> exact .refl _
  | declare _ declares =>
    rcases declare_cases declares with ⟨-, rfl⟩ | ⟨-, ⟨-, rfl⟩ | ⟨name, -, rfl⟩⟩
    · exact .refl _
    · exact .refl _
    · exact .declare _ _ _ _

/-- No symbol is lost. -/
theorem Run.extends (h : Run t r order m m') : m.binding.table.Extends m'.binding.table := by
  induction h with
  | refl => exact .refl _
  | tail _ hstep ih => exact ih.trans hstep.extends

/-- What has been recorded for a node that the walk has come to stays so, if the walk does
not come to it again. -/
theorem Step.settled (h : Step t r order m m') (horder : order.Nodup) (hx : x ∈ m.passed) :
    x ∈ m'.passed ∧ m'.binding.table.resolution? x = m.binding.table.resolution? x := by
  cases h with
  | pass | enter => exact ⟨List.mem_append_left _ hx, rfl⟩
  | leave => exact ⟨hx, rfl⟩
  | declare _ declares =>
    rcases declare_cases declares with ⟨-, rfl⟩ | ⟨-, ⟨-, rfl⟩ | ⟨name, -, rfl⟩⟩ <;>
      exact ⟨hx, rfl⟩
  | @refer _ _ _ y b name _ next _ =>
    refine ⟨List.mem_append_left _ hx, ?_⟩
    have hne : x ≠ y := by
      rintro rfl
      rw [next] at horder
      exact List.disjoint_of_nodup_append horder hx List.mem_cons_self
    unfold Binding.refer
    split
    · simp only [SymbolTable.resolution?, SymbolTable.bind]
      rw [List.lookup_cons, beq_eq_false_iff_ne.2 hne]
    · rfl

theorem Run.settled (h : Run t r order m m') (horder : order.Nodup) (hx : x ∈ m.passed) :
    x ∈ m'.passed ∧ m'.binding.table.resolution? x = m.binding.table.resolution? x := by
  induction h with
  | refl => exact ⟨hx, rfl⟩
  | tail _ hstep ih =>
    obtain ⟨hmem, heq⟩ := ih
    obtain ⟨hmem', heq'⟩ := hstep.settled horder hmem
    exact ⟨hmem', heq'.trans heq⟩

/-- In a run that comes to an identifier there is the moment in which it is looked up. -/
theorem Run.exists_refer (h : Run t r order m m') (hx : t.shape x = .ok (.identifier name))
    (hmem : x ∈ m'.passed) : x ∈ m.passed ∨ ∃ opened passed after b, t.Path r opened x ∧
      order = passed ++ x :: after ∧
      Run t r order m ⟨opened, passed, passed.flatMap t.announced, b⟩ ∧
      Run t r order ⟨opened, passed ++ [x], passed.flatMap t.announced, b.refer x name⟩ m' := by
  induction h with
  | refl => exact .inl hmem
  | @tail m₁ m₂ hrun hstep ih =>
    by_cases hmem₁ : x ∈ m₁.passed
    · rcases ih hmem₁ with hm | ⟨opened, passed, after, b, hpath, hnext, hbefore, hafter⟩
      · exact .inl hm
      · exact .inr ⟨opened, passed, after, b, hpath, hnext, hbefore, hafter.tail hstep⟩
    · -- then it is this step that comes to the identifier
      have hlast : ∀ {passed : List NodeId} {y : NodeId}, x ∉ passed → x ∈ passed ++ [y] →
          x = y := by
        intro passed y hnot h
        simpa [hnot] using h
      cases hstep with
      | pass path next closed other =>
        obtain rfl := hlast hmem₁ hmem
        exact absurd hx (other name)
      | enter path next opens =>
        obtain rfl := hlast hmem₁ hmem
        exact absurd opens (not_opensScope hx (fun h => h))
      | refer path next identifier =>
        obtain rfl := hlast hmem₁ hmem
        rw [hx] at identifier
        cases identifier
        exact .inr ⟨_, _, _, _, path, next, hrun, .refl⟩
      | declare | leave => exact absurd hmem hmem₁

end Binding

/-- A declaration has been met when the walk comes to a node. -/
def Tree.Met (t : Tree) (order : List NodeId) (x d : NodeId) : Prop :=
  ∃ before after, order = before ++ x :: after ∧ d ∈ (before.flatMap t.announced).map Prod.snd

/-- A symbol is in view from a node: it has the name in question and belongs to a scope
around the node, and its declaration has been met when the walk comes there. -/
structure SymbolTable.InView (table : SymbolTable) (t : Tree) (r : NodeId) (order : List NodeId)
    (x : NodeId) (name : String) (s : NodeId) (symbol : Symbol) : Prop where
  has : table.get? symbol.id = some symbol
  named : symbol.name = name
  around : t.ScopeAround r s x
  introduces : t.Introduces r s symbol
  met : ∃ d, symbol.declaration = some d ∧ t.Met order x d

/-- A symbol comes before all others in view: each belongs to a scope further out, or is an
older one of the same scope. -/
structure SymbolTable.Foremost (table : SymbolTable) (t : Tree) (r : NodeId) (order : List NodeId)
    (x : NodeId) (name : String) (s : NodeId) (symbol : Symbol) : Prop where
  inView : table.InView t r order x name s symbol
  before : ∀ s' symbol', table.InView t r order x name s' symbol' →
    t.Reaches s' s ∧ (s' = s → symbol'.id.index ≤ symbol.id.index)

/-- Of two symbols that come before each other there is but one. -/
theorem SymbolTable.InView.eq {table : SymbolTable} {s' y : NodeId} {symbol symbol' : Symbol}
    (h : table.InView t r order x name s symbol) (h' : table.InView t r order y name s' symbol')
    (ht : t.Consistent) (hle : t.Reaches s s' ∧ (s = s' → symbol.id.index ≤ symbol'.id.index))
    (hle' : t.Reaches s' s ∧ (s' = s → symbol'.id.index ≤ symbol.id.index)) :
    symbol = symbol' := by
  obtain rfl := ht.antisymm hle.1 hle'.1
  have hid : symbol.id = symbol'.id := Id.ext_index (Nat.le_antisymm (hle.2 rfl) (hle'.2 rfl))
  have hget := h.has
  rw [hid, h'.has] at hget
  exact (Option.some.inj hget).symm

namespace Binding.Run

variable {passed after : List NodeId} {b b' : Binding} {symbol : Symbol}

/-- The symbols in view from a node are those that there are when the walk comes to it. -/
theorem inView_iff (hb : Accounts t r ⟨opened, passed, passed.flatMap t.announced, b⟩)
    (hb' : Accounts t r ⟨[], order, order.flatMap t.announced, b'⟩)
    (hext : b.table.Extends b'.table) (horder : order.Nodup)
    (hnext : order = passed ++ x :: after) :
    b'.table.InView t r order x name s symbol ↔ b.table.get? symbol.id = some symbol ∧
      symbol.name = name ∧ t.ScopeAround r s x ∧ t.Introduces r s symbol := by
  constructor
  · rintro ⟨hget, hname, haround, hintro, d, hd, before, after', heq, hmem⟩
    -- the walk comes to the node once
    obtain ⟨rfl, -⟩ : passed = before ∧ after = after' := by
      rw [hnext] at horder heq
      obtain ⟨hx, hx'⟩ := not_or.1 (List.mem_append.not.1 (List.nodup_cons.1
        (List.nodup_middle.1 horder)).1)
      obtain ⟨h, -, h'⟩ := (List.append_cons_inj_of_notMem hx hx').1 heq
      exact ⟨h, h'⟩
    obtain ⟨d', hd', hdname, -⟩ := introduces_iff.1 hintro
    obtain rfl := Option.some.inj (hd.symm.trans hd')
    obtain ⟨symbol', hmem', hd'⟩ := hb.complete d hmem symbol.name hdname
    obtain ⟨i, hi⟩ := Array.mem_iff_getElem?.1 hmem'
    -- what there is now is there in the end, under the same identifier
    obtain rfl := hb'.index_eq (hext ⟨i⟩ symbol' hi) hget hd' hd
    have hsame : symbol' = symbol := Option.some.inj ((hext _ symbol' hi).symm.trans hget)
    exact ⟨hsame ▸ hi, hname, haround, hintro⟩
  · rintro ⟨hget, hname, haround, hintro⟩
    obtain ⟨-, d, hd, hmem, -⟩ := hb.symbols _ symbol hget
    exact ⟨hext _ symbol hget, hname, haround, hintro, d, hd, passed, after, hnext,
      List.mem_map_of_mem hmem⟩

/-- What is recorded for an identifier in the end is what was found when the walk came to
it. -/
theorem resolution?_eq {met met' : List (BindingKind × NodeId)} {opened' : List NodeId} {m : Moment}
    (hb : Accounts t r ⟨opened, passed, met, b⟩) (horder : order.Nodup)
    (hnext : order = passed ++ x :: after)
    (hafter : Run t r order ⟨opened', passed ++ [x], met', b.refer x name⟩ m) :
    m.binding.table.resolution? x = lookup b.scopes name := by
  rw [(hafter.settled horder (by simp)).2]
  unfold Binding.refer
  split
  · rename_i id hsome
    simp [SymbolTable.resolution?, SymbolTable.bind, hsome]
  · rename_i hnone
    -- the walk has not come to it before
    rw [hnone, SymbolTable.resolution?, List.lookup_eq_none_iff]
    rintro ⟨y, id⟩ hy
    obtain ⟨hpassed, -⟩ := hb.resolutions y id hy
    rw [bne_iff_ne]
    rintro rfl
    rw [hnext] at horder
    exact List.disjoint_of_nodup_append horder hpassed List.mem_cons_self

/-- An identifier refers to the foremost of the symbols in view from it, if there are any. -/
theorem foremost (h : Run t r order ⟨[], [], [], .start⟩ ⟨[], order, order.flatMap t.announced, b⟩)
    (ht : t.Consistent) (hr : t.OpensScope r) (horder : t.preorder r = .ok order)
    (hreach : t.Reaches r x) (hx : t.shape x = .ok (.identifier name)) :
    (b.table.resolve x = none ∧ ∀ s symbol, ¬b.table.InView t r order x name s symbol) ∨
      ∃ s symbol, b.table.resolve x = some symbol ∧
        b.table.Foremost t r order x name s symbol := by
  have hpairs := ht.pairwise_preorderWithin horder
  have hnodup : order.Nodup := by
    refine hpairs.imp ?_
    rintro y _ hne rfl
    exact hne .refl
  have hclosed : ¬t.OpensScope x := not_opensScope hx (fun h => h)
  -- the moment in which it is looked up
  rcases h.exists_refer hx ((mem_preorderWithin horder).2 hreach) with
    hmem | ⟨opened, passed, after, b₀, hpath, hnext, hbefore, hafter⟩
  · cases hmem
  have htracks := (Tracks.start t r).run ht hr hpairs hbefore
  have hview : ∀ s symbol, b.table.InView t r order x name s symbol ↔
      b₀.table.get? symbol.id = some symbol ∧ symbol.name = name ∧ t.ScopeAround r s x ∧
        t.Introduces r s symbol := fun s symbol =>
    inView_iff htracks.toAccounts ((Accounts.start t r).run h)
      (Run.extends (.head (.refer hpath hnext hx) hafter)) hnodup hnext
  have hresolve : b.table.resolve x = (lookup b₀.scopes name).bind b.table.get? := by
    rw [SymbolTable.resolve, resolution?_eq htracks.toAccounts hnodup hnext hafter]
  rcases htracks.lookup_cases ht hpath hclosed name with
    ⟨hnone, hlacks⟩ | ⟨s, id, symbol, hsome, haround, hnew, houter⟩
  · refine .inl ⟨by rw [hresolve, hnone]; rfl, fun s symbol hs => ?_⟩
    obtain ⟨hget, hnamed, haround, hintro⟩ := (hview s symbol).1 hs
    exact hlacks s haround _ symbol hget hnamed hintro
  · have hid : symbol.id = id := (htracks.symbols id.index symbol hnew.has).1
    subst hid
    have hin := (hview s symbol).2 ⟨hnew.has, hnew.named, haround, hnew.introduces⟩
    refine .inr ⟨s, symbol, by rw [hresolve, hsome]; exact hin.has, ⟨hin, fun s' symbol' hs' => ?_⟩⟩
    obtain ⟨hget, hnamed, haround', hintro⟩ := (hview s' symbol').1 hs'
    constructor
    · rcases houter s' haround' with hreaches | hlacks
      · exact hreaches
      · exact absurd hintro (hlacks _ symbol' hget hnamed)
    · rintro rfl
      exact hnew.newest _ symbol' hget hnamed hintro

end Binding.Run

/-- Each identifier refers to the foremost symbol in view from it, and to none if there is
no symbol in view. -/
def SymbolTable.Resolves (table : SymbolTable) (t : Tree) (r : NodeId) (order : List NodeId) :
    Prop :=
  ∀ x name, t.Reaches r x → t.shape x = .ok (.identifier name) →
    (table.resolve x = none ∧ ∀ s symbol, ¬table.InView t r order x name s symbol) ∨
      ∃ s symbol, table.resolve x = some symbol ∧ table.Foremost t r order x name s symbol

theorem SymbolTable.Resolves.eq_some_iff {table : SymbolTable} {symbol : Symbol}
    (h : table.Resolves t r order) (ht : t.Consistent) (hreach : t.Reaches r x)
    (hx : t.shape x = .ok (.identifier name)) :
    table.resolve x = some symbol ↔ ∃ s, table.Foremost t r order x name s symbol := by
  rcases h x name hreach hx with ⟨hnone, hno⟩ | ⟨s, symbol', hsome, hfore⟩
  · rw [hnone]
    constructor
    · intro h
      cases h
    · rintro ⟨s, hfore⟩
      exact absurd hfore.inView (hno s symbol)
  · rw [hsome]
    constructor
    · intro h
      cases h
      exact ⟨s, hfore⟩
    · rintro ⟨s', hfore'⟩
      rw [hfore.inView.eq hfore'.inView ht (hfore'.before s symbol' hfore.inView)
        (hfore.before s' symbol hfore'.inView)]

theorem Tree.Consistent.opensScope_root (ht : t.Consistent) (hr : t.root = some r) :
    r.index < t.size ∧ t.OpensScope r := by
  obtain ⟨_, n, statements, hr', hn, hs⟩ := ht.root
  obtain rfl := Option.some.inj (hr.symm.trans hr')
  exact ⟨lt_size_of_get? hn, n.shape, shape_of_get? hn, by rw [hs]; exact trivial⟩

/-- Binding a tree that hangs together gives a table that accounts for its declarations and
resolves its identifiers. -/
theorem SymbolTable.exists_resolves (ht : t.Consistent) (hr : t.root = some r) :
    ∃ order b, t.preorder r = .ok order ∧ ofTree t = .ok b.table ∧
      Binding.Accounts t r ⟨[], order, order.flatMap t.announced, b⟩ ∧
      b.table.Resolves t r order := by
  obtain ⟨hinside, hroot⟩ := ht.opensScope_root hr
  obtain ⟨order, b, horder, htable, hrun⟩ := exists_run ht.acyclic ht.children hr hinside
  exact ⟨order, b, horder, htable, (Binding.Accounts.start t r).run hrun,
    fun x name hreach hx => hrun.foremost ht hroot horder hreach hx⟩

end ScriptReduce
