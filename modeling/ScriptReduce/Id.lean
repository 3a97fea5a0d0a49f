/-
ScriptReduce.Id: typed identifiers and their supply.

An identifier is a position in the store of one kind of entity. The kind is
part of the type, so a node's identifier cannot be used for a symbol. People
see positions counted from one: the entity at index 0 is `NodeId#1`.
-/

namespace ScriptReduce

/-! ## 1. Identifiers -/

/-- The identifier of the entity stored at `index`. `entity` is the name of
its kind, both in the type and in texts. -/
structure Id (entity : String) where
  index : Nat
deriving DecidableEq

/-- Why a number is not the number of an entity. -/
inductive IdError where
  | zero
  | tooLarge
deriving DecidableEq

namespace Id

variable {entity : String}

/-- The largest number an entity may have: identifiers fit 32 bits. It bounds
the numbers that are read and those of a supply; trees and symbol tables, which
count on from their size, do not look at it. -/
def largest : Nat := 4294967295

/-- The number of an entity, counted from one. -/
def number (id : Id entity) : Nat := id.index + 1

/-- The identifier with a given number. -/
def ofNumber (n : Nat) : Except IdError (Id entity) :=
  if n = 0 then .error .zero
  else if largest < n then .error .tooLarge
  else .ok ⟨n - 1⟩

/-- The identifier at a given index, whose number is one more. -/
def ofIndex (i : Nat) : Except IdError (Id entity) := ofNumber (i + 1)

/-- The text of an identifier within a sentence. -/
def display (id : Id entity) : String := entity ++ "#" ++ toString id.number

/-- The text of an identifier as a term. -/
def debug (id : Id entity) : String := entity ++ "(" ++ toString id.number ++ ")"

@[ext] theorem ext_index {a b : Id entity} (h : a.index = b.index) : a = b := by
  cases a; cases b; cases h; rfl

end Id

/-! ## 2. Supply -/

/-- A supply of identifiers of one kind: it hands out each index once, in
order, starting at zero. -/
structure IdSupply (entity : String) where
  issued : Nat
deriving DecidableEq

namespace IdSupply

variable {entity : String}

/-- A supply that has handed out nothing. -/
def fresh : IdSupply entity := ⟨0⟩

def isFresh (s : IdSupply entity) : Bool := s.issued == 0

/-- Hands out the next identifier. -/
def next (s : IdSupply entity) : Except IdError (Id entity × IdSupply entity) := do
  let id ← Id.ofIndex s.issued
  return (id, ⟨s.issued + 1⟩)

end IdSupply

end ScriptReduce
