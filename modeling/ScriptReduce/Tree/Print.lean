/-
ScriptReduce.Tree.Print: programs as text.

Statements stand on lines of their own, those of a block indented by four
columns. Only the operands of operators are put in parentheses, and only when
they are binary expressions themselves.
-/
import ScriptReduce.Tree.Term

namespace ScriptReduce

/-! ## 1. Literals -/

namespace Literal

/-- How a character is spelled in a string literal. -/
def spellChar : Char → List Char
  | '"' => ['\\', '"']
  | '\\' => ['\\', '\\']
  | '\n' => ['\\', 'n']
  | c => [c]

def print : Literal → List Char
  | .boolean true => "true".toList
  | .boolean false => "false".toList
  | .numeric text => text.toList
  | .string text => '"' :: (text.toList.flatMap spellChar ++ ['"'])

end Literal

/-! ## 2. Terms -/

namespace Term

variable {ι : Type}

def isBinary : Term ι → Bool
  | .mk _ (.binary _ _ _) => true
  | _ => false

def indent (level : Nat) : List Char := List.replicate (4 * level) ' '

/-- The text of an operand, in parentheses if it is a binary expression. -/
def operand (term : Term ι) (text : List Char → List Char) (rest : List Char) : List Char :=
  if term.isBinary then '(' :: text (')' :: rest) else text rest

mutual

/-- The text of a term within statements indented by `level`, with `rest`
behind it. -/
def print (level : Nat) : Term ι → List Char → List Char
  | .mk _ (.sourceFile statements), rest => printStatements level statements rest
  | .mk _ (.literal l), rest => l.print ++ rest
  | .mk _ (.identifier name), rest => name.toList ++ rest
  | .mk _ (.unary op a), rest => op.text.toList ++ operand a (print level a) rest
  | .mk _ (.binary a op b), rest =>
    operand a (print level a)
      (' ' :: (op.text.toList ++ ' ' :: operand b (print level b) rest))
  | .mk _ (.call callee arguments), rest =>
    print level callee ('(' :: printSeparated level arguments (')' :: rest))
  | .mk _ (.branch condition whenTrue none), rest =>
    "if (".toList ++ print level condition (") ".toList ++ print level whenTrue rest)
  | .mk _ (.branch condition whenTrue (some whenFalse)), rest =>
    "if (".toList ++ print level condition
      (") ".toList ++ print level whenTrue (" else ".toList ++ print level whenFalse rest))
  | .mk _ (.block []), rest => '{' :: '}' :: rest
  | .mk _ (.block (first :: more)), rest =>
    '{' :: '\n' :: printStatements (level + 1) (first :: more) (indent level ++ '}' :: rest)
  | .mk _ (.expressionStatement expression), rest => print level expression (';' :: rest)
  | .mk _ (.variableStatement declarations), rest => print level declarations (';' :: rest)
  | .mk _ (.declarationList kind declarations), rest =>
    kind.keyword.toList ++ ' ' :: printSeparated level declarations rest
  | .mk _ (.declaration name none), rest => print level name rest
  | .mk _ (.declaration name (some initializer)), rest =>
    print level name (" = ".toList ++ print level initializer rest)
  | .mk _ .emptyStatement, rest => ';' :: rest
  | .mk _ (.other label children), rest =>
    '#' :: (label.toList ++ '[' :: printSeparated level children (']' :: rest))

/-- The texts of statements, each on its own line. -/
def printStatements (level : Nat) : List (Term ι) → List Char → List Char
  | [], rest => rest
  | statement :: more, rest =>
    indent level ++ print level statement ('\n' :: printStatements level more rest)

/-- The texts of terms with commas between them. -/
def printSeparated (level : Nat) : List (Term ι) → List Char → List Char
  | [], rest => rest
  | [term], rest => print level term rest
  | term :: next :: more, rest =>
    print level term (',' :: ' ' :: printSeparated level (next :: more) rest)

end

theorem operand_append (term : Term ι) {text : List Char → List Char}
    (h : ∀ rest more, text (rest ++ more) = text rest ++ more) (rest more : List Char) :
    operand term text (rest ++ more) = operand term text rest ++ more := by
  unfold operand
  split
  · rw [← List.cons_append, h, List.cons_append]
  · exact h rest more

mutual

/-- What stands behind a term does not change its text. -/
theorem print_append (level : Nat) : ∀ (term : Term ι) (rest more : List Char),
    term.print level (rest ++ more) = term.print level rest ++ more
  | .mk _ (.sourceFile statements), rest, more => by
    simp only [print, printStatements_append level statements]
  | .mk _ (.literal l), rest, more => by simp only [print, List.append_assoc]
  | .mk _ (.identifier name), rest, more => by simp only [print, List.append_assoc]
  | .mk _ (.unary op a), rest, more => by
    simp only [print, operand_append a (print_append level a), List.append_assoc]
  | .mk _ (.binary a op b), rest, more => by
    simp only [print, operand_append b (print_append level b),
      ← operand_append a (print_append level a), List.append_assoc, List.cons_append]
  | .mk _ (.call callee arguments), rest, more => by
    simp only [print, ← print_append level callee, ← printSeparated_append level arguments,
      List.cons_append]
  | .mk _ (.branch condition whenTrue none), rest, more => by
    simp only [print, print_append level whenTrue, ← print_append level condition,
      List.append_assoc]
  | .mk _ (.branch condition whenTrue (some whenFalse)), rest, more => by
    simp only [print, print_append level whenFalse, ← print_append level whenTrue,
      ← print_append level condition, List.append_assoc]
  | .mk _ (.block []), rest, more => rfl
  | .mk _ (.block (first :: others)), rest, more => by
    simp only [print, ← printStatements_append (level + 1) (first :: others), List.append_assoc,
      List.cons_append]
  | .mk _ (.expressionStatement expression), rest, more => by
    simp only [print, ← print_append level expression, List.cons_append]
  | .mk _ (.variableStatement declarations), rest, more => by
    simp only [print, ← print_append level declarations, List.cons_append]
  | .mk _ (.declarationList kind declarations), rest, more => by
    simp only [print, printSeparated_append level declarations, List.append_assoc,
      List.cons_append]
  | .mk _ (.declaration name none), rest, more => by
    simp only [print, print_append level name]
  | .mk _ (.declaration name (some initializer)), rest, more => by
    simp only [print, print_append level initializer, ← print_append level name,
      List.append_assoc]
  | .mk _ .emptyStatement, rest, more => rfl
  | .mk _ (.other label children), rest, more => by
    simp only [print, ← printSeparated_append level children, List.append_assoc, List.cons_append]

theorem printStatements_append (level : Nat) : ∀ (terms : List (Term ι)) (rest more : List Char),
    printStatements level terms (rest ++ more) = printStatements level terms rest ++ more
  | [], _, _ => rfl
  | term :: terms, rest, more => by
    simp only [printStatements, printStatements_append level terms, ← print_append level term,
      List.append_assoc, List.cons_append]

theorem printSeparated_append (level : Nat) : ∀ (terms : List (Term ι)) (rest more : List Char),
    printSeparated level terms (rest ++ more) = printSeparated level terms rest ++ more
  | [], _, _ => rfl
  | [term], rest, more => by simp only [printSeparated, print_append level term]
  | term :: next :: terms, rest, more => by
    simp only [printSeparated, printSeparated_append level (next :: terms),
      ← print_append level term, List.cons_append]

end

/-- The text of a term. -/
def text (term : Term ι) : List Char := term.print 0 []

end Term

/-! ## 3. Trees -/

namespace Tree

/-- The text of a node and what is below it. -/
def printNode (t : Tree) (id : NodeId) : Except Fault String := do
  let term ← t.term id
  return String.ofList term.text

/-- The text of a whole tree; nothing if it has no root. -/
def print (t : Tree) : Except Fault String :=
  match t.root with
  | none => .ok ""
  | some root => t.printNode root

end Tree

end ScriptReduce
