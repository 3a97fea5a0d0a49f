/-
ScriptReduce.Proofs.Symbol.Account: one symbol for each declaration.

A list of declarations is met when the scope around it is entered and again when the
walk comes to it, and a node that is held by several slots is met each time. Binding
keeps account of this (`Binding.Accounts`): what has been declared is what has been
met, each symbol stands for something met, and all that was met and has a name has a
symbol. Every step keeps the account. A run comes to all that can be reached, so in
the end the symbols are those of the declarations that stand in some list below the
root, neither more nor fewer (`SymbolTable.ofTree_bijOn`). Nothing is asked of the
tree but that no node is below itself.
-/
import ScriptReduce.Proofs.Symbol.Walk
import Mathlib.Data.Set.Function

namespace ScriptReduce

open ScriptReduce.Tree Relation

variable {t : Tree} {r x d d' : NodeId} {order : List NodeId} {name : String} {id : SymbolId}

/-! ## 1. The account -/

/-- A declaration stands under a keyword in some list below a root. -/
def Tree.Listed (t : Tree) (r : NodeId) (e : BindingKind × NodeId) : Prop :=
  ∃ l ds, t.Reaches r l ∧ t.shape l = .ok (.declarationList e.1 ds) ∧ e.2 ∈ ds

theorem Tree.ListedIn.listed {opened : List NodeId} {e : BindingKind × NodeId}
    (h : t.ListedIn r opened e) : t.Listed r e := by
  obtain ⟨l, ds, hpath, hl, hd⟩ := h
  exact ⟨l, ds, hpath.reaches, hl, hd⟩

/-- Of two declarations the first has been met before the second. -/
def Sooner (met : List (BindingKind × NodeId)) (d d' : NodeId) : Prop :=
  ∃ before after, met = before ++ after ∧ d ∈ before.map Prod.snd ∧ d' ∉ before.map Prod.snd

theorem Sooner.append {met : List (BindingKind × NodeId)} (h : Sooner met d d')
    (more : List (BindingKind × NodeId)) : Sooner (met ++ more) d d' := by
  obtain ⟨before, after, rfl, hd, hd'⟩ := h
  exact ⟨before, after ++ more, by simp, hd, hd'⟩

theorem Sooner.ne {met : List (BindingKind × NodeId)} (h : Sooner met d d') : d ≠ d' := by
  rintro rfl
  obtain ⟨before, after, -, hd, hd'⟩ := h
  exact hd' hd

theorem Sooner.asymm {met : List (BindingKind × NodeId)} (h : Sooner met d d') :
    ¬Sooner met d' d := by
  rintro ⟨before', after', heq, hd', hd⟩
  obtain ⟨before, after, rfl, hmem, hmem'⟩ := h
  rcases List.append_eq_append_iff.1 heq with ⟨more, rfl, -⟩ | ⟨more, rfl, -⟩
  · exact hd (by simp [hmem])
  · exact hmem' (by simp [hd'])

namespace Binding

variable {m m' : Moment} {b b' : Binding} {opened passed : List NodeId}
  {met : List (BindingKind × NodeId)} {e : BindingKind × NodeId}

/-- How the symbols of a binding stand to what has been met, and what the names of
scopes and the identifiers recorded stand for. -/
structure Accounts (t : Tree) (r : NodeId) (m : Moment) : Prop where
  declared : ∀ d, d ∈ m.binding.declared ↔ d ∈ m.met.map Prod.snd
  listed : ∀ e ∈ m.met, t.Listed r e
  symbols : ∀ (i : Nat) (symbol : Symbol), m.binding.table.symbols[i]? = some symbol →
    symbol.id = ⟨i⟩ ∧ ∃ d, symbol.declaration = some d ∧ (symbol.kind, d) ∈ m.met ∧
      t.nameOf? d = some symbol.name
  complete : ∀ d ∈ m.met.map Prod.snd, ∀ name, t.nameOf? d = some name →
    ∃ symbol ∈ m.binding.table.symbols, symbol.declaration = some d
  ordered : ∀ (i j : Nat) (symbol symbol' : Symbol) (d d' : NodeId), i < j →
    m.binding.table.symbols[i]? = some symbol → m.binding.table.symbols[j]? = some symbol' →
    symbol.declaration = some d → symbol'.declaration = some d' → Sooner m.met d d'
  names : ∀ scope ∈ m.binding.scopes, ∀ entry ∈ scope,
    ∃ symbol, m.binding.table.get? entry.2 = some symbol ∧ symbol.name = entry.1
  resolutions : ∀ x id, (x, id) ∈ m.binding.table.resolutions → x ∈ m.passed ∧
    ∃ symbol, m.binding.table.get? id = some symbol ∧ t.shape x = .ok (.identifier symbol.name)

/-! ## 2. What a step does to it -/

theorem mem_of_lookup {scopes : List Scope} (h : lookup scopes name = some id) :
    ∃ scope ∈ scopes, (name, id) ∈ scope := by
  obtain ⟨scope, hscope, hname⟩ := List.exists_of_findSome?_eq_some h
  obtain ⟨before, after, rfl, -⟩ := List.lookup_eq_some_iff.1 hname
  exact ⟨_, hscope, by simp⟩

section

variable {scopes : List Scope} {scope : Scope} {entry : String × SymbolId}

theorem mem_bindInnermost (h : scope ∈ bindInnermost name id scopes) (he : entry ∈ scope) :
    entry = (name, id) ∨ ∃ scope ∈ scopes, entry ∈ scope := by
  cases scopes with
  | nil => cases h
  | cons inner outer =>
    rcases List.mem_cons.1 h with rfl | h
    · exact (List.mem_cons.1 he).imp_right fun he => ⟨inner, List.mem_cons_self, he⟩
    · exact .inr ⟨scope, List.mem_cons_of_mem inner h, he⟩

theorem mem_bindOutermost (h : scope ∈ bindOutermost name id scopes) (he : entry ∈ scope) :
    entry = (name, id) ∨ ∃ scope ∈ scopes, entry ∈ scope := by
  induction scopes with
  | nil => cases h
  | cons inner outer ih =>
    cases outer with
    | nil =>
      obtain rfl := List.mem_singleton.1 h
      exact (List.mem_cons.1 he).imp_right fun he => ⟨inner, List.mem_cons_self, he⟩
    | cons next outer =>
      rcases List.mem_cons.1 h with rfl | h
      · exact .inr ⟨scope, List.mem_cons_self, he⟩
      · exact (ih h).imp_right fun ⟨s, hs, he⟩ => ⟨s, List.mem_cons_of_mem inner hs, he⟩

end

namespace Accounts

theorem start (t : Tree) (r : NodeId) : Accounts t r ⟨[], [], [], .start⟩ := by
  constructor <;> simp [Binding.start, SymbolTable.empty]

theorem pass (h : Accounts t r ⟨opened, passed, met, b⟩) (x : NodeId) :
    Accounts t r ⟨opened, passed ++ [x], met, b⟩ :=
  { h with
    resolutions := fun y id hy => (h.resolutions y id hy).imp_left (List.mem_append_left [x]) }

theorem enter (h : Accounts t r ⟨opened, passed, met, b⟩) (x : NodeId) :
    Accounts t r ⟨x :: opened, passed ++ [x], met, { b with scopes := [] :: b.scopes }⟩ :=
  { h.pass x with names := List.forall_mem_cons.2 ⟨by simp, h.names⟩ }

theorem leave (h : Accounts t r ⟨x :: opened, passed, met, b⟩) :
    Accounts t r ⟨opened, passed, met, b.leave⟩ :=
  { h with names := fun scope hscope => h.names scope (List.mem_of_mem_tail hscope) }

/-- An identifier is looked up in scopes whose names are those of symbols. -/
theorem refer (h : Accounts t r ⟨opened, passed, met, b⟩)
    (hx : t.shape x = .ok (.identifier name)) :
    Accounts t r ⟨opened, passed ++ [x], met, b.refer x name⟩ := by
  unfold Binding.refer
  split
  · rename_i id hlookup
    obtain ⟨scope, hscope, hentry⟩ := mem_of_lookup hlookup
    obtain ⟨symbol, hget, rfl⟩ := h.names scope hscope _ hentry
    refine { h.pass x with resolutions := fun y id' hy => ?_ }
    rcases List.mem_cons.1 hy with heq | hy
    · cases heq
      exact ⟨by simp, symbol, hget, hx⟩
    · exact (h.pass x).resolutions y id' hy
  · exact h.pass x

/-- An item is met that needs no new symbol. -/
theorem meet (h : Accounts t r ⟨opened, passed, met, b⟩) (he : t.Listed r e)
    {declared : List NodeId} (hdeclared : ∀ d, d ∈ declared ↔ d ∈ b.declared ∨ d = e.2)
    (hname : ∀ name, t.nameOf? e.2 = some name →
      ∃ symbol ∈ b.table.symbols, symbol.declaration = some e.2) :
    Accounts t r ⟨opened, passed, met ++ [e], { b with declared }⟩ where
  declared d := by simp [hdeclared, ← h.declared]
  listed := List.forall_mem_append.2 ⟨h.listed, by simpa using he⟩
  symbols i symbol hi := by
    obtain ⟨hid, d, hd, hmem, hnameOf⟩ := h.symbols i symbol hi
    exact ⟨hid, d, hd, List.mem_append_left [e] hmem, hnameOf⟩
  complete d hd name hd' := by
    rw [List.map_append, List.mem_append] at hd
    rcases hd with hd | hd
    · exact h.complete d hd name hd'
    · obtain rfl := List.mem_singleton.1 hd
      exact hname name hd'
  ordered i j symbol symbol' d d' hlt hi hj hd hd' :=
    (h.ordered i j symbol symbol' d d' hlt hi hj hd hd').append [e]
  names := h.names
  resolutions := h.resolutions

/-- A declaration with a name gets a symbol, behind all others. -/
theorem declareName (h : Accounts t r ⟨opened, passed, met, b⟩) (he : t.Listed r e)
    (hnew : e.2 ∉ b.declared) (hname : t.nameOf? e.2 = some name) :
    Accounts t r ⟨opened, passed, met ++ [e],
      { b with declared := e.2 :: b.declared }.declareName e.1 name e.2⟩ where
  declared d := by simp [Binding.declareName, ← h.declared, or_comm]
  listed := List.forall_mem_append.2 ⟨h.listed, by simpa using he⟩
  symbols i symbol hi := by
    rcases SymbolTable.declare_cases hi with ⟨rfl, rfl⟩ | ⟨-, hi⟩
    · exact ⟨rfl, e.2, rfl, by simp, hname⟩
    · obtain ⟨hid, d, hd, hmem, hnameOf⟩ := h.symbols i symbol hi
      exact ⟨hid, d, hd, List.mem_append_left [e] hmem, hnameOf⟩
  complete d hd name' hd' := by
    simp only [Binding.declareName, SymbolTable.declare, Array.mem_push]
    rw [List.map_append, List.mem_append] at hd
    rcases hd with hd | hd
    · obtain ⟨symbol, hsymbol, hdecl⟩ := h.complete d hd name' hd'
      exact ⟨symbol, .inl hsymbol, hdecl⟩
    · obtain rfl := List.mem_singleton.1 hd
      exact ⟨_, .inr rfl, rfl⟩
  ordered i j symbol symbol' d d' hlt hi hj hd hd' := by
    rcases SymbolTable.declare_cases hi with ⟨rfl, -⟩ | ⟨-, hi⟩
    · -- nothing comes behind the new symbol
      rcases SymbolTable.declare_cases hj with ⟨rfl, -⟩ | ⟨hj, -⟩ <;> omega
    · rcases SymbolTable.declare_cases hj with ⟨-, rfl⟩ | ⟨-, hj⟩
      · -- the new symbol comes last, and its declaration had not been met
        cases hd'
        obtain ⟨-, d₁, hd₁, hmem, -⟩ := h.symbols i symbol hi
        obtain rfl := Option.some.inj (hd.symm.trans hd₁)
        refine ⟨met, [e], rfl, List.mem_map_of_mem hmem, fun hmet => ?_⟩
        exact hnew ((h.declared e.2).2 hmet)
      · exact (h.ordered i j symbol symbol' d d' hlt hi hj hd hd').append [e]
  names scope hscope entry hentry := by
    have hold : ∀ scope ∈ b.scopes, ∀ entry ∈ scope, ∃ symbol,
        (b.table.declare name e.1 (some e.2)).2.get? entry.2 = some symbol ∧
          symbol.name = entry.1 := by
      intro scope hscope entry hentry
      obtain ⟨symbol, hget, hname⟩ := h.names scope hscope entry hentry
      exact ⟨symbol, SymbolTable.get?_declare_of_some hget name e.1 (some e.2), hname⟩
    have hcases : entry = (name, ⟨b.table.symbols.size⟩) ∨ ∃ scope ∈ b.scopes, entry ∈ scope := by
      simp only [Binding.declareName] at hscope
      split at hscope
      · exact mem_bindInnermost hscope hentry
      · exact mem_bindOutermost hscope hentry
    rcases hcases with rfl | ⟨scope, hscope, hentry⟩
    · exact ⟨_, by rw [Binding.declareName, SymbolTable.get?_declare, if_pos rfl], rfl⟩
    · exact hold scope hscope entry hentry
  resolutions x id hx := by
    obtain ⟨hpassed, symbol, hget, hshape⟩ := h.resolutions x id hx
    exact ⟨hpassed, symbol, SymbolTable.get?_declare_of_some hget name e.1 (some e.2), hshape⟩

theorem declare (h : Accounts t r ⟨opened, passed, met, b⟩) (he : t.Listed r e)
    (hb : Binding.declare t e.1 b e.2 = .ok b') :
    Accounts t r ⟨opened, passed, met ++ [e], b'⟩ := by
  rcases declare_cases hb with ⟨hmem, heq⟩ | ⟨hnew, ⟨hname, rfl⟩ | ⟨name, hname, rfl⟩⟩
  · -- it has been met before
    rw [heq]
    have hdeclared : ∀ d, d ∈ b.declared ↔ d ∈ b.declared ∨ d = e.2 := by
      intro d
      refine ⟨.inl, ?_⟩
      rintro (hd | rfl)
      · exact hd
      · exact hmem
    exact h.meet he hdeclared (h.complete e.2 ((h.declared e.2).1 hmem))
  · refine h.meet he (by simp [or_comm]) fun name hname' => ?_
    rw [hname] at hname'
    cases hname'
  · exact h.declareName he hnew hname

/-- Every step keeps the account. -/
theorem step (h : Accounts t r m) (hstep : Step t r order m m') : Accounts t r m' := by
  cases hstep with
  | pass => exact h.pass _
  | enter => exact h.enter _
  | refer _ _ identifier => exact h.refer identifier
  | declare lists declares => exact h.declare lists.listed declares
  | leave => exact h.leave

/-- So does every run. -/
theorem run (h : Accounts t r m) (hrun : Run t r order m m') : Accounts t r m' := by
  induction hrun with
  | refl => exact h
  | tail _ hstep ih => exact ih.step hstep

/-- Two symbols are not for one declaration. -/
theorem index_eq (h : Accounts t r m) {i j : Nat} {symbol symbol' : Symbol}
    (hi : m.binding.table.symbols[i]? = some symbol)
    (hj : m.binding.table.symbols[j]? = some symbol') (hd : symbol.declaration = some d)
    (hd' : symbol'.declaration = some d) : i = j := by
  rcases Nat.lt_trichotomy i j with hlt | heq | hlt
  · exact absurd rfl (h.ordered i j symbol symbol' d d hlt hi hj hd hd').ne
  · exact heq
  · exact absurd rfl (h.ordered j i symbol' symbol d d hlt hj hi hd' hd).ne

end Accounts

end Binding

/-! ## 3. The symbols of a tree -/

/-- A walk from a root meets all that is listed below it. -/
theorem Tree.Listed.mem_met {e : BindingKind × NodeId} (h : t.Listed r e)
    (horder : t.preorder r = .ok order) : e ∈ order.flatMap t.announced := by
  obtain ⟨l, ds, hreach, hl, hd⟩ := h
  refine List.mem_flatMap.2 ⟨l, (mem_preorderWithin horder).2 hreach, ?_⟩
  rw [announced_of_list hl]
  exact List.mem_map_of_mem hd

/-- A declaration of a name stands in some list below the root. -/
def Tree.Declaring (t : Tree) (d : NodeId) : Prop :=
  ∃ r kind name, t.root = some r ∧ t.Listed r (kind, d) ∧ t.nameOf? d = some name

/-- In a tree in which no node is below itself, the symbols correspond to the declarations
of names that stand in lists below the root. Each has its place for its identifier, the
name of its declaration and the keyword of a list that the declaration stands in. What an
identifier is recorded to refer to is a symbol of its name. -/
theorem SymbolTable.ofTree_bijOn (hacyclic : t.Acyclic)
    (hchildren : ∀ g x, t.Holds g x → x.index < t.size)
    (hroot : ∀ r, t.root = some r → r.index < t.size) :
    ∃ table, SymbolTable.ofTree t = .ok table ∧
      Set.BijOn Symbol.declaration {symbol | symbol ∈ table.symbols} (some '' {d | t.Declaring d}) ∧
      (∀ (i : Nat) (symbol : Symbol), table.symbols[i]? = some symbol → symbol.id = ⟨i⟩ ∧
        ∃ r d, t.root = some r ∧ symbol.declaration = some d ∧ t.Listed r (symbol.kind, d) ∧
          t.nameOf? d = some symbol.name) ∧
      ∀ x id, (x, id) ∈ table.resolutions → ∃ r symbol, t.root = some r ∧ t.Reaches r x ∧
        t.shape x = .ok (.identifier symbol.name) ∧ table.get? id = some symbol := by
  cases hr : t.root with
  | none =>
    refine ⟨empty, by rw [ofTree, hr], ⟨by simp [Set.MapsTo, empty], by simp [Set.InjOn, empty],
      ?_⟩, by simp [empty], by simp [empty]⟩
    rintro _ ⟨d, ⟨r, _, _, hr', _⟩, rfl⟩
    rw [hr] at hr'
    cases hr'
  | some r =>
    obtain ⟨order, b, horder, htable, hrun⟩ := exists_run hacyclic hchildren hr (hroot r hr)
    have h := (Binding.Accounts.start t r).run hrun
    refine ⟨b.table, htable, ⟨?_, ?_, ?_⟩, fun i symbol hi => ?_, fun x id hx => ?_⟩
    · -- each symbol is that of a declaration
      intro symbol hsymbol
      obtain ⟨i, hi⟩ := Array.mem_iff_getElem?.1 hsymbol
      obtain ⟨-, d, hd, hmem, hname⟩ := h.symbols i symbol hi
      exact ⟨d, ⟨r, symbol.kind, symbol.name, hr, h.listed _ hmem, hname⟩, hd.symm⟩
    · intro symbol hsymbol symbol' hsymbol' heq
      obtain ⟨i, hi⟩ := Array.mem_iff_getElem?.1 hsymbol
      obtain ⟨j, hj⟩ := Array.mem_iff_getElem?.1 hsymbol'
      obtain ⟨-, d, hd, -⟩ := h.symbols j symbol' hj
      obtain rfl := h.index_eq hi hj (heq.trans hd) hd
      exact Option.some.inj (hi.symm.trans hj)
    · -- each declaration has been met
      rintro _ ⟨d, ⟨r', kind, name, hr', hlisted, hname⟩, rfl⟩
      obtain rfl := Option.some.inj (hr.symm.trans hr')
      exact h.complete d (List.mem_map_of_mem (hlisted.mem_met horder)) name hname
    · obtain ⟨hid, d, hd, hmem, hname⟩ := h.symbols i symbol hi
      exact ⟨hid, r, d, rfl, hd, h.listed _ hmem, hname⟩
    · obtain ⟨hpassed, symbol, hget, hshape⟩ := h.resolutions x id hx
      exact ⟨r, symbol, rfl, (mem_preorderWithin horder).1 hpassed, hshape, hget⟩

namespace Sample

/-- The program `{ let x; } let x; var x, x, y;` as nobody should build it: all that
declares `x` is one node, and both `let` lists are another. -/
def redeclared : Tree where
  nodes := #[
    ⟨.identifier "x", some ⟨1⟩, none⟩,
    ⟨.declaration ⟨0⟩ none, some ⟨2⟩, none⟩,
    ⟨.declarationList .blockVariable [⟨1⟩], some ⟨3⟩, none⟩,
    ⟨.variableStatement ⟨2⟩, none, none⟩,
    ⟨.block [⟨3⟩], some ⟨9⟩, none⟩,
    ⟨.identifier "y", some ⟨6⟩, none⟩,
    ⟨.declaration ⟨5⟩ none, some ⟨7⟩, none⟩,
    ⟨.declarationList .functionVariable [⟨1⟩, ⟨1⟩, ⟨6⟩], some ⟨8⟩, none⟩,
    ⟨.variableStatement ⟨7⟩, some ⟨9⟩, none⟩,
    ⟨.sourceFile [⟨4⟩, ⟨3⟩, ⟨8⟩], none, none⟩]
  root := some ⟨9⟩

theorem redeclared_layered : redeclared.Layered := ⟨by decide +kernel, by decide +kernel⟩

end Sample

/-- Of five declarations listed there are two, and so there are two symbols. -/
theorem SymbolTable.ofTree_bijOn_redeclared :
    ∃ table, SymbolTable.ofTree Sample.redeclared = .ok table ∧ table.symbols.size = 2 ∧
      Set.BijOn Symbol.declaration {symbol | symbol ∈ table.symbols}
        (some '' {d | Sample.redeclared.Declaring d}) ∧
      (some '' {d | Sample.redeclared.Declaring d} : Set (Option NodeId))
        = {some ⟨1⟩, some ⟨6⟩} := by
  obtain ⟨table, htable, hbij, -⟩ := SymbolTable.ofTree_bijOn Sample.redeclared_layered.acyclic
    (fun g x h => (Sample.redeclared_layered.closed.children g x trivial h).2)
    (fun r hr => by cases hr; decide)
  have hresult : SymbolTable.ofTree Sample.redeclared = .ok ⟨#[
      ⟨⟨0⟩, "x", .blockVariable, some ⟨1⟩⟩, ⟨⟨1⟩, "y", .functionVariable, some ⟨6⟩⟩],
      [(⟨5⟩, ⟨1⟩), (⟨0⟩, ⟨0⟩), (⟨0⟩, ⟨0⟩), (⟨0⟩, ⟨0⟩), (⟨0⟩, ⟨0⟩)]⟩ := by decide +kernel
  obtain rfl := Except.ok.inj (hresult.symm.trans htable)
  refine ⟨_, htable, rfl, hbij, ?_⟩
  rw [← hbij.image_eq]
  ext d
  simp [eq_comm]

end ScriptReduce
