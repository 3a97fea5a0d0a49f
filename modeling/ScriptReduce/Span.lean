/-
ScriptReduce.Span: positions and ranges in a source text.

Lines and columns are counted from zero inside and from one in texts. Ranges
are ordered by where they start, and by where they end when they start
together. There is no bound on lines and columns: that they fit 32 bits is left
out here.
-/

namespace ScriptReduce

/-- A place in a source text. -/
structure Position where
  line : Nat
  column : Nat
deriving DecidableEq

namespace Position

/-- The order of reading: by line, then by column. -/
def order (a b : Position) : Ordering :=
  (compare a.line b.line).then (compare a.column b.column)

def display (p : Position) : String :=
  toString (p.line + 1) ++ ":" ++ toString (p.column + 1)

end Position

/-- The range of source text that a node was read from. -/
structure Span where
  start : Position
  stop : Position
deriving DecidableEq

namespace Span

/-- By start, then by end. -/
def order (a b : Span) : Ordering :=
  (a.start.order b.start).then (a.stop.order b.stop)

def display (s : Span) : String := s.start.display ++ "-" ++ s.stop.display

end Span

end ScriptReduce
