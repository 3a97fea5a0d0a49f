/-
ScriptReduce.Proofs.Tree.Opening: what printed nodes begin with, and signs side by side.

The text of a node begins with its own spelling, or with the text of its first child, which is
in parentheses if both are binary expressions. So a sign at the very front is found on a way
down through first children (`Shows.head?_text_iff`, `Tree.Opens`). Nothing else is put in
parentheses, and nothing but spaces, brackets and separators stands between the texts of
children. So there is only one place where two signs can come together: between a sign and
its operand (`repeats_print_iff`). In a tree in which no sign is glued to another
(`Tree.SignsApart`) two signs in a row are therefore part of a single spelling, and a tree has
them in its text if and only if a node has them in its spelling (`Shows.repeats_iff`).
-/
import ScriptReduce.Proofs.Text.Repeats
import ScriptReduce.Proofs.Tree.Readable
import ScriptReduce.Proofs.Tree.WellFormed

namespace ScriptReduce

open Relation Text

variable {ι α β : Type} {c : Char}

/-! ## 1. Shapes -/

/-- The character of an operator that is a sign. -/
def UnaryOperator.sign? : UnaryOperator → Option Char
  | .minus => some '-'
  | .plus => some '+'
  | _ => none

theorem UnaryOperator.sign?_eq_some {op : UnaryOperator} :
    op.sign? = some c ↔ IsSign c ∧ op.text.toList = [c] := by
  cases op <;> simp [sign?, text, IsSign] <;> grind

namespace Shape

def isBinary : Shape α → Bool
  | .binary _ _ _ => true
  | _ => false

/-- Whether the text of a node begins with that of its first child. -/
def isOpened : Shape α → Bool
  | .sourceFile _ | .binary _ _ _ | .call _ _ | .expressionStatement _ | .variableStatement _
  | .declaration _ _ => true
  | _ => false

/-- The child that the text of a node begins with. -/
def opener (s : Shape α) : Option α := if s.isOpened then s.children.head? else none

/-- What a node itself is spelled with: the texts of literals and names, the operators in front
of operands and the labels of other constructs. -/
def spelling : Shape α → List Char
  | .literal l => l.print
  | .identifier name => name.toList
  | .unary op _ => op.text.toList
  | .other label _ => '#' :: label.toList
  | _ => []

/-- The level at which the children of a node are printed. -/
def inner (level : Nat) : Shape α → Nat
  | .block _ => level + 1
  | _ => level

theorem isBinary_bare (s : Shape α) : s.bare.isBinary = s.isBinary := by
  cases s <;> rfl

theorem isOpened_bare (s : Shape α) : s.bare.isOpened = s.isOpened := by
  cases s <;> rfl

theorem spelling_bare (s : Shape α) : s.bare.spelling = s.spelling := by
  cases s <;> rfl

@[simp] theorem isBinary_map (f : α → β) (s : Shape α) : (s.map f).isBinary = s.isBinary := by
  cases s <;> rfl

@[simp] theorem opener_map (f : α → β) (s : Shape α) : (s.map f).opener = s.opener.map f := by
  unfold opener
  rw [← isOpened_bare, bare_map, isOpened_bare, children_map, List.head?_map]
  split <;> rfl

@[simp] theorem spelling_map (f : α → β) (s : Shape α) : (s.map f).spelling = s.spelling := by
  rw [← spelling_bare, bare_map, spelling_bare]

theorem mem_children_of_opener {s : Shape α} {a : α} (h : s.opener = some a) :
    a ∈ s.children := by
  unfold opener at h
  split at h
  · exact List.mem_of_mem_head? h
  · cases h

end Shape

/-! ## 2. Texts of terms -/

namespace Term

theorem isBinary_eq (T : Term ι) : T.isBinary = T.shape.isBinary := by
  rcases T with ⟨n, s⟩
  cases s <;> rfl

theorem labels_sublist_of_child {T A : Term ι} (hA : A ∈ T.shape.children) :
    A.labels.Sublist T.labels := by
  rw [T.labels_eq]
  exact (List.sublist_flatten_of_mem (List.mem_map_of_mem hA)).cons T.label

theorem print_eq (level : Nat) (T : Term ι) (rest : List Char) :
    T.print level rest = T.print level [] ++ rest := print_append level T [] rest

theorem printStatements_eq (level : Nat) (terms : List (Term ι)) (rest : List Char) :
    printStatements level terms rest = printStatements level terms [] ++ rest :=
  printStatements_append level terms [] rest

theorem printSeparated_eq (level : Nat) (terms : List (Term ι)) (rest : List Char) :
    printSeparated level terms rest = printSeparated level terms [] ++ rest :=
  printSeparated_append level terms [] rest

theorem operand_eq (level : Nat) (A : Term ι) (rest : List Char) :
    A.operand (A.print level) rest = A.operand (A.print level) [] ++ rest :=
  operand_append A (print_append level A) [] rest

theorem operand_of_binary {A : Term ι} (h : A.isBinary) (level : Nat) :
    A.operand (A.print level) [] = '(' :: (A.print level [] ++ [')']) := by
  rw [operand, if_pos h, print_eq]

theorem operand_of_not_binary {A : Term ι} (h : A.isBinary = false) (level : Nat) :
    A.operand (A.print level) [] = A.print level [] := by
  rw [operand, h]
  rfl

theorem head?_operand_iff (hc : IsSign c) (level : Nat) (A : Term ι) :
    (A.operand (A.print level) []).head? = some c ↔
      A.isBinary = false ∧ (A.print level []).head? = some c := by
  cases h : A.isBinary with
  | true => simp [operand_of_binary h, ne_of_isSign hc (show ¬IsSign '(' by decide)]
  | false => simp [operand_of_not_binary h]

theorem repeats_operand_iff (hc : IsSign c) (level : Nat) (A : Term ι) :
    Repeats c (A.operand (A.print level) []) ↔ Repeats c (A.print level []) := by
  cases h : A.isBinary with
  | true =>
    rw [operand_of_binary h, repeats_cons (ne_of_isSign hc (by decide)),
      repeats_append_cons (ne_of_isSign hc (by decide))]
    simp [not_repeats_nil]
  | false => rw [operand_of_not_binary h]

/-- What the text of a term begins with, if it is a sign. The statements of a file are only
printed without an indentation at the outermost level. -/
theorem head?_print_iff (hc : IsSign c) (level : Nat) (T : Term ι) :
    (T.print level []).head? = some c ↔ T.shape.spelling.head? = some c ∨
      ∃ A, T.shape.opener = some A ∧ ¬(T.shape.isBinary ∧ A.shape.isBinary) ∧
        (T.shape.bare = .sourceFile [] → level = 0) ∧ (A.print level []).head? = some c := by
  have hother : ∀ {d : Char}, ¬IsSign d → d ≠ c := fun hd => ne_of_isSign hc hd
  obtain ⟨n, s⟩ := T
  simp only [shape_mk]
  cases s with
  | sourceFile terms =>
    cases terms with
    | nil => simp [print, printStatements, Shape.spelling, Shape.opener]
    | cons first more =>
      rw [print, printStatements, print_eq]
      cases level with
      | zero =>
        rw [show indent 0 = [] from rfl, List.nil_append,
          head?_append_cons (hother (show ¬IsSign '\n' by decide))]
        simp [Shape.spelling, Shape.opener, Shape.isOpened, Shape.isBinary]
      | succ level =>
        have hindent : indent (level + 1) = ' ' :: List.replicate (4 * level + 3) ' ' := rfl
        simp [hindent, hother (show ¬IsSign ' ' by decide), Shape.spelling, Shape.bare]
  | literal l => simp [print, Shape.spelling, Shape.opener, Shape.isOpened]
  | identifier name => simp [print, Shape.spelling, Shape.opener, Shape.isOpened]
  | unary op a =>
    cases op <;> simp [print, UnaryOperator.text, Shape.spelling, Shape.opener, Shape.isOpened]
  | binary a op b =>
    rw [print, operand_eq, head?_append_cons (hother (show ¬IsSign ' ' by decide)),
      head?_operand_iff hc, isBinary_eq]
    simp [Shape.spelling, Shape.opener, Shape.isOpened, Shape.isBinary, Shape.bare]
  | call callee arguments =>
    rw [print, print_eq, head?_append_cons (hother (show ¬IsSign '(' by decide))]
    simp [Shape.spelling, Shape.opener, Shape.isOpened, Shape.isBinary, Shape.bare]
  | branch condition whenTrue whenFalse =>
    cases whenFalse <;> simp [print, hother (show ¬IsSign 'i' by decide), Shape.spelling,
      Shape.opener, Shape.isOpened]
  | block terms =>
    cases terms <;> simp [print, hother (show ¬IsSign '{' by decide), Shape.spelling,
      Shape.opener, Shape.isOpened]
  | expressionStatement a | variableStatement a =>
    rw [print, print_eq, head?_append_cons (hother (show ¬IsSign ';' by decide))]
    simp [Shape.spelling, Shape.opener, Shape.isOpened, Shape.isBinary, Shape.bare]
  | declarationList kind terms =>
    have hkind : ∀ d ∈ kind.keyword.toList.head?, ¬IsSign d := by
      cases kind <;> simp [BindingKind.keyword, IsSign]
    rw [print, head?_append_cons (hother (show ¬IsSign ' ' by decide))]
    simpa [Shape.spelling, Shape.opener, Shape.isOpened] using fun h => hkind c h hc
  | declaration name initializer =>
    cases initializer with
    | none => simp [print, Shape.spelling, Shape.opener, Shape.isOpened, Shape.isBinary, Shape.bare]
    | some a =>
      rw [print, print_eq, show " = ".toList = [' ', '=', ' '] from rfl, List.cons_append,
        head?_append_cons (hother (show ¬IsSign ' ' by decide))]
      simp [Shape.spelling, Shape.opener, Shape.isOpened, Shape.isBinary, Shape.bare]
  | emptyStatement =>
    simp [print, hother (show ¬IsSign ';' by decide), Shape.spelling, Shape.opener, Shape.isOpened]
  | other label terms =>
    simp [print, Shape.spelling, Shape.opener, Shape.isOpened]

/-- A sign that stands in front at some level does so at the outermost one. -/
theorem head?_text_of_print (hc : IsSign c) {level : Nat} {T : Term ι}
    (h : (T.print level []).head? = some c) : T.text.head? = some c := by
  induction T using induct with
  | h n s ih =>
    rcases (head?_print_iff hc level _).1 h with hown | ⟨A, hA, hbinary, -, hhead⟩
    · exact (head?_print_iff hc 0 _).2 (.inl hown)
    · have hchild := ih A (Shape.mem_children_of_opener hA) hhead
      exact (head?_print_iff hc 0 _).2 (.inr ⟨A, hA, hbinary, fun _ => rfl, hchild⟩)

theorem not_isSign_of_mem_indent {level : Nat} {d : Char} (h : d ∈ indent level) : ¬IsSign d := by
  rw [List.eq_of_mem_replicate h]
  decide

theorem repeats_statements_iff (hc : IsSign c) (level : Nat) (terms : List (Term ι)) :
    Repeats c (printStatements level terms []) ↔ ∃ T ∈ terms, Repeats c (T.print level []) := by
  induction terms with
  | nil => simp [printStatements, not_repeats_nil]
  | cons T terms ih =>
    rw [printStatements, print_eq, repeats_append_left (fun _ => not_isSign_of_mem_indent) hc,
      repeats_append_cons (ne_of_isSign hc (by decide)), ih]
    simp

theorem repeats_separated_iff (hc : IsSign c) (level : Nat) : ∀ terms : List (Term ι),
    Repeats c (printSeparated level terms []) ↔ ∃ T ∈ terms, Repeats c (T.print level [])
  | [] => by simp [printSeparated, not_repeats_nil]
  | [T] => by simp [printSeparated]
  | T :: next :: terms => by
    rw [printSeparated, print_eq, repeats_append_cons (ne_of_isSign hc (by decide)),
      repeats_cons (ne_of_isSign hc (by decide)), repeats_separated_iff hc level (next :: terms)]
    simp

/-- Two signs in a row are part of the spelling of a node or of the text of a child, or they
are a sign and the first character of its operand. -/
theorem repeats_print_iff (hc : IsSign c) (level : Nat) (T : Term ι) :
    Repeats c (T.print level []) ↔ Repeats c T.shape.spelling ∨
      (∃ A ∈ T.shape.children, Repeats c (A.print (T.shape.inner level) [])) ∨
      ∃ op A, T.shape = .unary op A ∧ op.sign? = some c ∧
        (A.operand (A.print level) []).head? = some c := by
  have hother : ∀ {d : Char}, ¬IsSign d → d ≠ c := fun hd => ne_of_isSign hc hd
  obtain ⟨n, s⟩ := T
  simp only [shape_mk]
  cases s with
  | sourceFile terms =>
    rw [print, repeats_statements_iff hc]
    simp [Shape.spelling, Shape.inner, not_repeats_nil]
  | literal l => simp [print, Shape.spelling]
  | identifier name => simp [print, Shape.spelling]
  | unary op a =>
    obtain ⟨e, he⟩ : ∃ e, op.text.toList = [e] := by cases op <;> exact ⟨_, rfl⟩
    have hsign : op.sign? = some c ↔ e = c := by
      rw [UnaryOperator.sign?_eq_some, he]
      simp [hc]
    rw [print, he, repeats_append, repeats_operand_iff hc]
    simp [Shape.spelling, Shape.inner, he, hsign, not_repeats_singleton]
  | binary a op b =>
    have hop : ¬Repeats c op.text.toList := by
      rcases hc with rfl | rfl <;> cases op <;> decide
    have hspace : ' ' ≠ c := hother (by decide)
    rw [print, operand_eq, repeats_append_cons hspace, repeats_append_cons hspace,
      repeats_operand_iff hc, repeats_operand_iff hc]
    simp [Shape.spelling, Shape.inner, hop, not_repeats_nil]
  | call callee arguments =>
    rw [print, print_eq, printSeparated_eq, repeats_append_cons (hother (show ¬IsSign '(' by decide)),
      repeats_append_cons (hother (show ¬IsSign ')' by decide)), repeats_separated_iff hc]
    simp [Shape.spelling, Shape.inner, not_repeats_nil]
  | branch condition whenTrue whenFalse =>
    have hif : ∀ d ∈ "if (".toList, ¬IsSign d := by simp [IsSign]
    have hclose : ∀ d ∈ ") ".toList, ¬IsSign d := by simp [IsSign]
    have helse : ∀ d ∈ " else ".toList, ¬IsSign d := by simp [IsSign]
    cases whenFalse with
    | none =>
      rw [print, repeats_append_left hif hc, print_eq, repeats_between (by simp) hclose hc]
      simp [Shape.spelling, Shape.inner, not_repeats_nil]
    | some whenFalse =>
      rw [print, repeats_append_left hif hc, print_eq, repeats_between (by simp) hclose hc,
        print_eq level whenTrue, repeats_between (by simp) helse hc]
      simp [Shape.spelling, Shape.inner, not_repeats_nil]
  | block terms =>
    cases terms with
    | nil =>
      rw [print, repeats_cons (hother (show ¬IsSign '{' by decide))]
      simp [Shape.spelling, not_repeats_nil, not_repeats_singleton]
    | cons first more =>
      rw [print, repeats_cons (hother (show ¬IsSign '{' by decide)),
        repeats_cons (hother (show ¬IsSign '\n' by decide)), printStatements_eq,
        repeats_append_right (fun d hd => ?_) hc, repeats_statements_iff hc]
      · simp [Shape.spelling, Shape.inner, not_repeats_nil]
      · rcases List.mem_append.1 hd with hd | hd
        · exact not_isSign_of_mem_indent hd
        · rw [List.mem_singleton.1 hd]
          decide
  | expressionStatement a | variableStatement a =>
    rw [print, print_eq, repeats_append_cons (hother (show ¬IsSign ';' by decide))]
    simp [Shape.spelling, Shape.inner, not_repeats_nil]
  | declarationList kind terms =>
    have hkind : ¬Repeats c kind.keyword.toList := by
      rcases hc with rfl | rfl <;> cases kind <;> decide
    rw [print, repeats_append_cons (hother (show ¬IsSign ' ' by decide)), repeats_separated_iff hc]
    simp [Shape.spelling, Shape.inner, hkind, not_repeats_nil]
  | declaration name initializer =>
    cases initializer with
    | none => simp [print, Shape.spelling, Shape.inner, not_repeats_nil]
    | some a =>
      have hequal : ∀ d ∈ " = ".toList, ¬IsSign d := by simp [IsSign]
      rw [print, print_eq, repeats_between (by simp) hequal hc]
      simp [Shape.spelling, Shape.inner, not_repeats_nil]
  | emptyStatement => simp [print, Shape.spelling, not_repeats_nil, not_repeats_singleton]
  | other label terms =>
    have hlabel : Repeats c ('#' :: label.toList) ↔ Repeats c label.toList :=
      repeats_cons (hother (by decide))
    rw [print, printSeparated_eq, repeats_cons (hother (show ¬IsSign '#' by decide)),
      repeats_append_cons (hother (show ¬IsSign '[' by decide)),
      repeats_append_cons (hother (show ¬IsSign ']' by decide)), repeats_separated_iff hc]
    simp [Shape.spelling, Shape.inner, hlabel, not_repeats_nil]

end Term

/-! ## 3. First children in a tree -/

namespace Tree

variable {t : Tree} {p : Option NodeId} {T : Term NodeId} {x y : NodeId}

def IsBinary (t : Tree) (x : NodeId) : Prop := ∃ s, t.shape x = .ok s ∧ s.isBinary

/-- The text of a node begins with that of another, which may be in parentheses. -/
def Starts (t : Tree) (x y : NodeId) : Prop := ∃ s, t.shape x = .ok s ∧ s.opener = some y

/-- The text of a node begins with that of another, which is not in parentheses. -/
def StartsBare (t : Tree) (x y : NodeId) : Prop := t.Starts x y ∧ ¬(t.IsBinary x ∧ t.IsBinary y)

/-- One node stands at the very front of another. -/
def Opens (t : Tree) : NodeId → NodeId → Prop := ReflTransGen t.StartsBare

/-- A node stands directly behind an operator, at the very front of its operand. -/
def Behind (t : Tree) (op : UnaryOperator) (m z : NodeId) : Prop :=
  ∃ a, t.shape m = .ok (.unary op a) ∧ ¬t.IsBinary a ∧ t.Opens a z

/-- A node is a sign whose operand is printed with the same sign in front. -/
def Glued (t : Tree) (m : NodeId) : Prop :=
  ∃ op c a A, op.sign? = some c ∧ t.shape m = .ok (.unary op a) ∧ t.term a = .ok A ∧
    (A.operand (A.print 0) []).head? = some c

/-- No sign is printed next to another of the same kind. -/
def SignsApart (t : Tree) (r : NodeId) : Prop := ∀ m, t.Reaches r m → ¬t.Glued m

/-- Whether a sign is glued to its operand, as it is found out. -/
def isGlued (t : Tree) (m : NodeId) : Bool :=
  match t.shape m with
  | .ok (.unary op a) =>
    match op.sign?, t.term a with
    | some c, .ok A => (A.operand (A.print 0) []).head? == some c
    | _, _ => false
  | _ => false

theorem glued_iff_isGlued {m : NodeId} : t.Glued m ↔ t.isGlued m = true := by
  constructor
  · rintro ⟨op, c, a, A, hop, hshape, hterm, hhead⟩
    simp [isGlued, hshape, hop, hterm, hhead]
  · intro h
    unfold isGlued at h
    split at h
    · rename_i op a hshape
      split at h
      · rename_i c A hop hterm
        exact ⟨op, c, a, A, hop, hshape, hterm, beq_iff_eq.1 h⟩
      · cases h
    · cases h

instance (t : Tree) (m : NodeId) : Decidable (t.Glued m) := decidable_of_iff' _ glued_iff_isGlued

theorem signsApart_of_forall (h : ∀ i : Fin t.nodes.size, ¬t.Glued ⟨i⟩) (r : NodeId) :
    t.SignsApart r := by
  intro m _ hglued
  obtain ⟨op, c, a, A, -, hshape, -⟩ := id hglued
  obtain ⟨n, hn, -⟩ := shape_eq_ok.1 hshape
  obtain ⟨i, rfl, -⟩ := exists_fin hn
  exact h i hglued

namespace Shows

theorem shape_eq (hT : t.Shows p T) : t.shape T.label = .ok (T.shape.map Term.label) := by
  obtain ⟨span, hget⟩ := hT.get?
  exact shape_of_get? hget

theorem spelling_eq (hT : t.Shows p T) {s : Shape NodeId} (hs : t.shape T.label = .ok s) :
    s.spelling = T.shape.spelling := by
  rw [hT.shape_eq, Except.ok.injEq] at hs
  rw [← hs, Shape.spelling_map]

/-- What a node holds are the labels of its children. -/
theorem holds_iff_child (hT : t.Shows p T) :
    t.Holds T.label y ↔ ∃ A ∈ T.shape.children, A.label = y := by
  obtain ⟨span, hget⟩ := hT.get?
  rw [holds_iff hget, Shape.children_map, List.mem_map]

theorem isBinary_iff (hT : t.Shows p T) : t.IsBinary T.label ↔ T.shape.isBinary := by
  simp [IsBinary, hT.shape_eq]

theorem starts_iff (hT : t.Shows p T) :
    t.Starts T.label y ↔ ∃ A, T.shape.opener = some A ∧ A.label = y := by
  simp [Starts, hT.shape_eq, Option.map_eq_some_iff]

/-- The sign that the text of a node begins with is the first character of a node at its very
front. -/
theorem head?_text_iff (hT : t.Shows p T) (hc : IsSign c) :
    T.text.head? = some c ↔
      ∃ z s, t.Opens T.label z ∧ t.shape z = .ok s ∧ s.spelling.head? = some c := by
  induction hT with
  | @mk p n s span node below ih =>
    have hT : t.Shows p (.mk n s) := .mk node below
    constructor
    · intro h
      rcases (Term.head?_print_iff hc 0 _).1 h with hown | ⟨A, hA, hbare, -, hhead⟩
      · exact ⟨n, _, .refl, hT.shape_eq, by simpa using hown⟩
      · have hchild := below A (Shape.mem_children_of_opener hA)
        obtain ⟨z, s', hz, hs', hown⟩ := (ih A (Shape.mem_children_of_opener hA)).1 hhead
        have hfirst : t.StartsBare n A.label := by
          refine ⟨hT.starts_iff.2 ⟨A, hA, rfl⟩, ?_⟩
          rw [hchild.isBinary_iff]
          exact fun h => hbare ⟨hT.isBinary_iff.1 h.1, h.2⟩
        exact ⟨z, s', .head hfirst hz, hs', hown⟩
    · rintro ⟨z, s', hz, hs', hown⟩
      rcases ReflTransGen.cases_head hz with rfl | ⟨y, ⟨hfirst, hbare⟩, hyz⟩
      · rw [hT.spelling_eq hs'] at hown
        exact (Term.head?_print_iff hc 0 _).2 (.inl hown)
      · obtain ⟨A, hA, rfl⟩ := hT.starts_iff.1 hfirst
        have hchild := below A (Shape.mem_children_of_opener hA)
        have hhead := (ih A (Shape.mem_children_of_opener hA)).2 ⟨z, s', hyz, hs', hown⟩
        refine (Term.head?_print_iff hc 0 _).2 (.inr ⟨A, hA, ?_, fun _ => rfl, hhead⟩)
        rw [← hchild.isBinary_iff]
        exact fun h => hbare ⟨hT.isBinary_iff.2 h.1, h.2⟩

/-- A sign is glued to a sign that a node directly behind it is spelled with. -/
theorem glued_iff (hT : t.Shows p T) (hnodup : T.labels.Nodup) (hx : t.Reaches T.label x) :
    t.Glued x ↔ ∃ op c z s, op.sign? = some c ∧ t.Behind op x z ∧ t.shape z = .ok s ∧
      s.spelling.head? = some c := by
  obtain ⟨q, S, hS, rfl, hsub⟩ := hT.exists_subterm (hT.mem_of_reaches hx)
  have hoperand : ∀ {op a}, t.shape S.label = .ok (.unary op a) →
      ∃ A, A.label = a ∧ t.Shows (some S.label) A ∧ t.term a = .ok A := by
    intro op a hshape
    have ha : t.Holds S.label a := holds_of_shape hshape List.mem_cons_self
    obtain ⟨A, hA, rfl⟩ := hS.holds_iff_child.1 ha
    have hlabels := (Term.labels_sublist_of_child hA).trans hsub
    exact ⟨A, rfl, hS.child hA, (hS.child hA).term_eq (hnodup.sublist hlabels)⟩
  constructor
  · rintro ⟨op, c, a, A, hop, hshape, hterm, hhead⟩
    obtain ⟨A', rfl, hA, hterm'⟩ := hoperand hshape
    obtain rfl := Except.ok.inj (hterm.symm.trans hterm')
    have hc := (UnaryOperator.sign?_eq_some.1 hop).1
    obtain ⟨hbinary, hhead⟩ := (Term.head?_operand_iff hc 0 A).1 hhead
    obtain ⟨z, s, hz, hs, hown⟩ := (hA.head?_text_iff hc).1 hhead
    refine ⟨op, c, z, s, hop, ⟨A.label, hshape, ?_, hz⟩, hs, hown⟩
    rw [hA.isBinary_iff, ← Term.isBinary_eq, hbinary]
    exact Bool.false_ne_true
  · rintro ⟨op, c, z, s, hop, ⟨a, hshape, hbinary, hz⟩, hs, hown⟩
    obtain ⟨A, rfl, hA, hterm⟩ := hoperand hshape
    have hc := (UnaryOperator.sign?_eq_some.1 hop).1
    refine ⟨op, c, A.label, A, hop, hshape, hterm, (Term.head?_operand_iff hc 0 A).2 ⟨?_, ?_⟩⟩
    · rw [hA.isBinary_iff, ← Term.isBinary_eq] at hbinary
      simpa using hbinary
    · exact (hA.head?_text_iff hc).2 ⟨z, s, hz, hs, hown⟩

/-! ## 4. Two signs in a row -/

/-- Where signs are apart, two of them in a row are part of the spelling of one node. -/
theorem repeats_iff (hT : t.Shows p T) (hnodup : T.labels.Nodup) (hapart : t.SignsApart T.label)
    (hc : IsSign c) : ∀ level, Repeats c (T.print level []) ↔
      ∃ z s, t.Reaches T.label z ∧ t.shape z = .ok s ∧ Repeats c s.spelling := by
  induction hT with
  | @mk p n s span node below ih =>
    have hT : t.Shows p (.mk n s) := .mk node below
    have hholds : ∀ A ∈ s.children, t.Holds n A.label := fun A hA =>
      hT.holds_iff_child.2 ⟨A, hA, rfl⟩
    have hchild : ∀ A ∈ s.children, ∀ level, Repeats c (A.print level []) ↔
        ∃ z s, t.Reaches A.label z ∧ t.shape z = .ok s ∧ Repeats c s.spelling := by
      intro A hA
      have hlabels := Term.labels_sublist_of_child (T := .mk n s) hA
      exact ih A hA (hnodup.sublist hlabels) fun m hm => hapart m (.head (hholds A hA) hm)
    intro level
    rw [Term.repeats_print_iff hc]
    constructor
    · rintro (hown | ⟨A, hA, hrepeats⟩ | ⟨op, A, hs, hop, hhead⟩)
      · exact ⟨n, _, .refl, hT.shape_eq, by simpa using hown⟩
      · obtain ⟨z, s', hz, hs', hown⟩ := (hchild A hA _).1 hrepeats
        exact ⟨z, s', .head (hholds A hA) hz, hs', hown⟩
      · -- the sign would be glued to its operand
        obtain rfl : s = .unary op A := hs
        have hmem : A ∈ (Shape.unary op A).children := List.mem_cons_self
        have hlabels := Term.labels_sublist_of_child (T := .mk n _) hmem
        have hterm := (below A hmem).term_eq (hnodup.sublist hlabels)
        obtain ⟨hbinary, hhead⟩ := (Term.head?_operand_iff hc level A).1 hhead
        refine absurd ⟨op, c, A.label, A, hop, hT.shape_eq, hterm, ?_⟩
          (hapart n .refl)
        exact (Term.head?_operand_iff hc 0 A).2 ⟨hbinary, Term.head?_text_of_print hc hhead⟩
    · rintro ⟨z, s', hz, hs', hown⟩
      rcases ReflTransGen.cases_head hz with rfl | ⟨y, hy, hyz⟩
      · rw [hT.spelling_eq hs'] at hown
        exact .inl hown
      · obtain ⟨A, hA, rfl⟩ := hT.holds_iff_child.1 hy
        exact .inr (.inl ⟨A, hA, (hchild A hA _).2 ⟨z, s', hyz, hs', hown⟩⟩)

end Shows

end Tree

end ScriptReduce
