/-
ScriptReduce.Symbol.Scope: which identifier refers to which declaration.

Names are looked up in scopes, one for the source file and one for each block
around the identifier, from the inside out. A scope has its names before its
statements are looked into, so an identifier may stand before the declaration
it refers to. `let` and `const` declare a name in the innermost scope, `var`
in the outermost. Where a scope declares a name twice, the later one counts.
-/
import ScriptReduce.Symbol.Table
import ScriptReduce.Tree.Term

namespace ScriptReduce

/-- The names declared in one scope, the latest first. -/
abbrev Scope := List (String × SymbolId)

/-- The state of binding: the symbols found, the scopes around the current
node with the innermost first, and the declarations that have their symbol. -/
structure Binding where
  table : SymbolTable
  scopes : List Scope
  declared : List NodeId

namespace Binding

def start : Binding := ⟨SymbolTable.empty, [], []⟩

/-! ## 1. Declaring and looking up -/

/-- Adds a name to the innermost scope. -/
def bindInnermost (name : String) (symbol : SymbolId) : List Scope → List Scope
  | [] => []
  | scope :: outer => ((name, symbol) :: scope) :: outer

/-- Adds a name to the outermost scope. -/
def bindOutermost (name : String) (symbol : SymbolId) : List Scope → List Scope
  | [] => []
  | [scope] => [(name, symbol) :: scope]
  | scope :: outer => scope :: bindOutermost name symbol outer

/-- The symbol of a name in the innermost scope that has it. -/
def lookup (scopes : List Scope) (name : String) : Option SymbolId :=
  scopes.findSome? fun scope => scope.lookup name

/-- Makes a symbol for a declaration and adds its name to the scope it
belongs to. -/
def declareName (b : Binding) (kind : BindingKind) (name : String) (declaration : NodeId) :
    Binding :=
  let (symbol, table) := b.table.declare name kind (some declaration)
  let scopes :=
    if kind.isBlockScoped then bindInnermost name symbol b.scopes
    else bindOutermost name symbol b.scopes
  { b with table, scopes }

/-- Declares the name of a declaration, unless that has been done before. A
declaration of something other than an identifier declares no name. -/
def declare (t : Tree) (kind : BindingKind) (b : Binding) (declaration : NodeId) :
    Except Fault Binding := do
  if b.declared.contains declaration then return b
  let b := { b with declared := declaration :: b.declared }
  match ← t.shape declaration with
  | .declaration nameNode _ =>
    match ← t.shape nameNode with
    | .identifier name => return b.declareName kind name declaration
    | _ => return b
  | _ => return b

/-- Declares what a list of declarations declares. -/
def declareList (t : Tree) (b : Binding) (list : NodeId) : Except Fault Binding := do
  match ← t.shape list with
  | .declarationList kind declarations => declarations.foldlM (declare t kind) b
  | _ => return b

/-- Declares what a statement declares, if it is a statement of
declarations. -/
def declareStatement (t : Tree) (b : Binding) (statement : NodeId) : Except Fault Binding := do
  match ← t.shape statement with
  | .variableStatement list => b.declareList t list
  | _ => return b

/-- Opens a scope with the names that its statements declare. -/
def enter (t : Tree) (b : Binding) (statements : List NodeId) : Except Fault Binding :=
  statements.foldlM (declareStatement t) { b with scopes := [] :: b.scopes }

/-- Closes the innermost scope. -/
def leave (b : Binding) : Binding := { b with scopes := b.scopes.tail }

/-- Records the symbol that an identifier refers to, if there is one. -/
def refer (b : Binding) (identifier : NodeId) (name : String) : Binding :=
  match lookup b.scopes name with
  | some symbol => { b with table := b.table.bind identifier symbol }
  | none => b

/-! ## 2. Walking -/

/-- Binds a node and what is below it, descending at most a given number of
steps. Lists of declarations that do not stand in a statement of a scope are
declared when they are met. -/
def visitWithin (t : Tree) : Nat → Binding → NodeId → Except Fault Binding
  | 0, _, _ => .error .endless
  | depth + 1, b, id => do
    let shape ← t.shape id
    match shape with
    | .sourceFile statements | .block statements =>
      let b ← b.enter t statements
      let b ← statements.foldlM (visitWithin t depth) b
      return b.leave
    | .declarationList _ declarations =>
      let b ← b.declareList t id
      declarations.foldlM (visitWithin t depth) b
    | .identifier name => return b.refer id name
    | shape => shape.children.foldlM (visitWithin t depth) b

end Binding

namespace SymbolTable

/-- The symbols declared in a tree, with what each identifier refers to. -/
def ofTree (t : Tree) : Except Fault SymbolTable :=
  match t.root with
  | none => .ok empty
  | some root => do
    let b ← Binding.start.visitWithin t t.depthLimit root
    return b.table

end SymbolTable

end ScriptReduce
