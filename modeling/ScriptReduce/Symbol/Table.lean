/-
ScriptReduce.Symbol.Table: symbols, and which identifier refers to which.

The reductions ask one question about names: which symbol does this
identifier refer to. A table answers it from what was recorded before. It has
room for any number of symbols: as in a tree, the bound on identifiers
(`Id.largest`) is left out.
-/
import ScriptReduce.Tree.Basic

namespace ScriptReduce

abbrev SymbolId := Id "SymbolId"

structure Symbol where
  id : SymbolId
  name : String
  kind : BindingKind
  /-- The declaration that introduces the symbol, if any. -/
  declaration : Option NodeId
deriving DecidableEq

/-- The answer to which symbol an identifier refers to. -/
abbrev Resolver := NodeId → Option Symbol

/-- Symbols in the order of their declaration, each at the place its
identifier names, and the identifiers recorded to refer to them, the latest
first. -/
structure SymbolTable where
  symbols : Array Symbol
  resolutions : List (NodeId × SymbolId)
deriving DecidableEq

namespace SymbolTable

def empty : SymbolTable := ⟨#[], []⟩

/-- Adds a symbol. -/
def declare (t : SymbolTable) (name : String) (kind : BindingKind)
    (declaration : Option NodeId) : SymbolId × SymbolTable :=
  let id : SymbolId := ⟨t.symbols.size⟩
  (id, { t with symbols := t.symbols.push ⟨id, name, kind, declaration⟩ })

/-- Records that an identifier refers to a symbol, from now on. -/
def bind (t : SymbolTable) (identifier : NodeId) (symbol : SymbolId) : SymbolTable :=
  { t with resolutions := (identifier, symbol) :: t.resolutions }

def get? (t : SymbolTable) (id : SymbolId) : Option Symbol := t.symbols[id.index]?

/-- The symbol recorded for an identifier, be it in the table or not. -/
def resolution? (t : SymbolTable) (identifier : NodeId) : Option SymbolId :=
  t.resolutions.lookup identifier

/-- The symbol that an identifier refers to. -/
def resolve (t : SymbolTable) : Resolver := fun identifier =>
  (t.resolution? identifier).bind t.get?

/-- The symbols of a given name, in the order of their declaration. -/
def named (t : SymbolTable) (name : String) : List Symbol :=
  t.symbols.toList.filter fun symbol => symbol.name == name

end SymbolTable

end ScriptReduce
