/-
ScriptReduce.Proofs.Tree.Place: where a node stands in its parent.

The slots of a shape differ in what may happen there: whether the position
has to be filled, whether a literal may take an identifier's place, whether
what stands there is an expression or a statement. `spots` lists the children
of a shape together with their places, and it is the view of a shape that the
proofs about changes work with: replacing a child keeps every place
(`spots_replace`), emptying a slot drops one spot (`spots_vacate`), and it
fails exactly at a place that has to be filled (`vacate_eq_none_iff`). `sieve`
changes all children at once and may leave some out.

What is left of a shape without its children is `bare`. A shape is determined
by its bare shape and its children (`ext_bare`).
-/
import ScriptReduce.Tree.Shape
import Mathlib.Data.List.Nodup

namespace ScriptReduce

/-! ## 1. Places -/

/-- The kinds of positions that a child may stand in. -/
inductive Place where
  /-- In a sequence of statements, or behind `else`. -/
  | statement
  /-- Behind the condition of an `if`. -/
  | body
  /-- An operand of a binary operator, unless it is assigned to. -/
  | operand
  /-- An argument of a call. -/
  | argument
  /-- The value that a declaration starts with. -/
  | initializer
  /-- Any other expression. -/
  | expression
  /-- One of the declarations of a list. -/
  | entry
  /-- The name of a declaration, or the list of a statement of declarations. -/
  | fixed
deriving DecidableEq

namespace Place

/-- Whether a literal may stand there in the place of an identifier. -/
def isSite : Place → Bool
  | .operand | .argument => true
  | _ => false

/-- Whether the position has to be filled. -/
def isRequired : Place → Bool
  | .body | .operand | .expression | .fixed => true
  | _ => false

/-- Whether what stands there is an expression that may be evaluated. -/
def isExpression : Place → Bool
  | .operand | .argument | .initializer | .expression => true
  | _ => false

/-- Whether a statement stands there, such as an `if`. -/
def isStatement : Place → Bool
  | .statement | .body => true
  | _ => false

/-- The place of the left operand of an operator. -/
def left (op : BinaryOperator) : Place := if op.isAssignment then .expression else .operand

theorem isStatement_eq_false_of_isExpression {p : Place} (h : p.isExpression) :
    p.isStatement = false := by
  cases p <;> simp_all [isExpression, isStatement]

@[simp] theorem isSite_left (op : BinaryOperator) : (left op).isSite = !op.isAssignment := by
  unfold left
  cases op.isAssignment <;> rfl

@[simp] theorem isRequired_left (op : BinaryOperator) : (left op).isRequired = true := by
  unfold left
  cases op.isAssignment <;> rfl

@[simp] theorem isExpression_left (op : BinaryOperator) : (left op).isExpression = true := by
  unfold left
  cases op.isAssignment <;> rfl

end Place

namespace Shape

variable {α β γ : Type}

/-! ## 2. Spots -/

/-- The children of a shape in source order, each with its place. -/
def spots : Shape α → List (Place × α)
  | .sourceFile statements | .block statements => statements.map (.statement, ·)
  | .literal _ | .identifier _ | .emptyStatement => []
  | .unary _ operand => [(.expression, operand)]
  | .binary l op r => [(.left op, l), (.operand, r)]
  | .call callee arguments => (.expression, callee) :: arguments.map (.argument, ·)
  | .branch condition whenTrue whenFalse =>
    (.expression, condition) :: (.body, whenTrue) :: whenFalse.toList.map (.statement, ·)
  | .expressionStatement expression => [(.expression, expression)]
  | .variableStatement declarations => [(.fixed, declarations)]
  | .declarationList _ declarations => declarations.map (.entry, ·)
  | .declaration name initializer =>
    (.fixed, name) :: initializer.toList.map (.initializer, ·)
  | .other _ children => children.map (.statement, ·)

@[simp] theorem map_snd_spots (s : Shape α) : s.spots.map Prod.snd = s.children := by
  cases s <;> simp [spots, Function.comp_def]

theorem mem_children_iff {s : Shape α} {x : α} :
    x ∈ s.children ↔ ∃ place, (place, x) ∈ s.spots := by
  rw [← map_snd_spots, List.mem_map]
  constructor
  · rintro ⟨⟨place, y⟩, h, rfl⟩
    exact ⟨place, h⟩
  · rintro ⟨place, h⟩
    exact ⟨(place, x), h, rfl⟩

theorem mem_children_of_mem_spots {s : Shape α} {place : Place} {x : α}
    (h : (place, x) ∈ s.spots) : x ∈ s.children :=
  mem_children_iff.2 ⟨place, h⟩

theorem mem_children_branch {c a s : α} {b : Option α} (h : s = a ∨ b = some s) :
    s ∈ (branch c a b).children := by
  rw [children_branch]
  rcases h with rfl | rfl <;> simp

/-- A child that is held once has one place. -/
theorem place_unique {s : Shape α} (hnodup : s.children.Nodup) {x : α} {p q : Place}
    (hp : (p, x) ∈ s.spots) (hq : (q, x) ∈ s.spots) : p = q := by
  rw [← map_snd_spots] at hnodup
  exact congrArg Prod.fst (List.inj_on_of_nodup_map hnodup hp hq rfl)

/-! ## 3. Shapes with other children -/

/-- The shape with each child changed. -/
def map (f : α → β) : Shape α → Shape β
  | .sourceFile statements => .sourceFile (statements.map f)
  | .literal l => .literal l
  | .identifier name => .identifier name
  | .unary op operand => .unary op (f operand)
  | .binary left op right => .binary (f left) op (f right)
  | .call callee arguments => .call (f callee) (arguments.map f)
  | .branch condition whenTrue whenFalse =>
    .branch (f condition) (f whenTrue) (whenFalse.map f)
  | .block statements => .block (statements.map f)
  | .expressionStatement expression => .expressionStatement (f expression)
  | .variableStatement declarations => .variableStatement (f declarations)
  | .declarationList kind declarations => .declarationList kind (declarations.map f)
  | .declaration name initializer => .declaration (f name) (initializer.map f)
  | .emptyStatement => .emptyStatement
  | .other label children => .other label (children.map f)

/-- The shape without its children: sequences are empty, and so are the
positions that need not be filled. -/
def bare : Shape α → Shape Unit
  | .sourceFile _ => .sourceFile []
  | .literal l => .literal l
  | .identifier name => .identifier name
  | .unary op _ => .unary op ()
  | .binary _ op _ => .binary () op ()
  | .call _ _ => .call () []
  | .branch _ _ _ => .branch () () none
  | .block _ => .block []
  | .expressionStatement _ => .expressionStatement ()
  | .variableStatement _ => .variableStatement ()
  | .declarationList kind _ => .declarationList kind []
  | .declaration _ _ => .declaration () none
  | .emptyStatement => .emptyStatement
  | .other label _ => .other label []

theorem toList_map (f : α → β) (o : Option α) : (o.map f).toList = o.toList.map f := by
  cases o <;> rfl

@[simp] theorem children_map (f : α → β) (s : Shape α) :
    (s.map f).children = s.children.map f := by
  cases s <;> simp [map, toList_map]

@[simp] theorem spots_map (f : α → β) (s : Shape α) :
    (s.map f).spots = s.spots.map (Prod.map id f) := by
  cases s <;> simp [map, spots, toList_map, Function.comp_def]

@[simp] theorem bare_map (f : α → β) (s : Shape α) : (s.map f).bare = s.bare := by
  cases s <;> rfl

theorem map_map (f : α → β) (g : β → γ) (s : Shape α) : (s.map f).map g = s.map (g ∘ f) := by
  cases s <;> simp [map]

@[simp] theorem map_id (s : Shape α) : s.map id = s := by
  cases s <;> simp [map]

theorem toList_inj {o o' : Option α} (h : o.toList = o'.toList) : o = o' := by
  cases o <;> cases o' <;> simp_all

/-- A shape is its bare shape with its children. -/
theorem ext_bare {s s' : Shape α} (hb : s.bare = s'.bare) (hc : s.children = s'.children) :
    s = s' := by
  cases s <;> cases s' <;> simp_all [bare] <;>
    first | exact toList_inj hc | exact toList_inj hc.2 | exact toList_inj hc.2.2

theorem bare_eq_branch {s : Shape α} :
    s.bare = .branch () () none ↔ ∃ c a b, s = .branch c a b := by
  cases s <;> simp [bare]

theorem bare_eq_sourceFile {s : Shape α} :
    s.bare = .sourceFile [] ↔ ∃ statements, s = .sourceFile statements := by
  cases s <;> simp [bare]

theorem map_congr {f g : α → β} {s : Shape α} (h : ∀ x ∈ s.children, f x = g x) :
    s.map f = s.map g := by
  refine ext_bare (by simp) ?_
  rw [children_map, children_map]
  exact List.map_congr_left h

theorem exists_option_map_eq (f : β → α) {o : Option α} {bs : List β} (h : bs.map f = o.toList) :
    ∃ o' : Option β, o'.map f = o ∧ o'.toList = bs := by
  cases o with
  | none => exact ⟨none, rfl, (List.map_eq_nil_iff.1 h).symm⟩
  | some a =>
    obtain ⟨b, bs, rfl, rfl, hbs⟩ := List.map_eq_cons_iff.1 h
    rw [List.map_eq_nil_iff.1 hbs]
    exact ⟨some b, rfl, rfl⟩

/-- A shape whose children are images is itself an image. -/
theorem exists_map_eq (f : β → α) {s : Shape α} {bs : List β} (h : bs.map f = s.children) :
    ∃ s' : Shape β, s'.map f = s ∧ s'.children = bs := by
  cases s with
  | sourceFile as => exact ⟨.sourceFile bs, by simpa [map] using h, by simp⟩
  | literal l => exact ⟨.literal l, rfl, by simpa using h.symm⟩
  | identifier name => exact ⟨.identifier name, rfl, by simpa using h.symm⟩
  | unary op a =>
    obtain ⟨b, _, rfl, rfl, hbs⟩ := List.map_eq_cons_iff.1 h
    rw [List.map_eq_nil_iff.1 hbs]
    exact ⟨.unary op b, rfl, rfl⟩
  | binary l op r =>
    obtain ⟨b, _, rfl, rfl, hbs⟩ := List.map_eq_cons_iff.1 h
    obtain ⟨c, _, rfl, rfl, hcs⟩ := List.map_eq_cons_iff.1 hbs
    rw [List.map_eq_nil_iff.1 hcs]
    exact ⟨.binary b op c, rfl, rfl⟩
  | call a as =>
    rw [children_call] at h
    obtain ⟨b, bs, rfl, rfl, hbs⟩ := List.map_eq_cons_iff.1 h
    exact ⟨.call b bs, by simp [map, hbs], by simp⟩
  | branch a b o =>
    rw [children_branch] at h
    obtain ⟨c, _, rfl, rfl, hcs⟩ := List.map_eq_cons_iff.1 h
    obtain ⟨d, _, rfl, rfl, hds⟩ := List.map_eq_cons_iff.1 hcs
    obtain ⟨o', rfl, rfl⟩ := exists_option_map_eq f hds
    exact ⟨.branch c d o', rfl, by simp⟩
  | block as => exact ⟨.block bs, by simpa [map] using h, by simp⟩
  | expressionStatement a =>
    obtain ⟨b, _, rfl, rfl, hbs⟩ := List.map_eq_cons_iff.1 h
    rw [List.map_eq_nil_iff.1 hbs]
    exact ⟨.expressionStatement b, rfl, rfl⟩
  | variableStatement a =>
    obtain ⟨b, _, rfl, rfl, hbs⟩ := List.map_eq_cons_iff.1 h
    rw [List.map_eq_nil_iff.1 hbs]
    exact ⟨.variableStatement b, rfl, rfl⟩
  | declarationList kind as => exact ⟨.declarationList kind bs, by simpa [map] using h, by simp⟩
  | declaration a o =>
    rw [children_declaration] at h
    obtain ⟨b, _, rfl, rfl, hbs⟩ := List.map_eq_cons_iff.1 h
    obtain ⟨o', rfl, rfl⟩ := exists_option_map_eq f hbs
    exact ⟨.declaration b o', rfl, by simp⟩
  | emptyStatement => exact ⟨.emptyStatement, rfl, by simpa using h.symm⟩
  | other label as => exact ⟨.other label bs, by simpa [map] using h, by simp⟩

/-! ## 4. Sieving -/

/-- The shape with each child changed or left out, if no position that has to
be filled is left empty. -/
def sieve (f : Place → α → Option β) : Shape α → Option (Shape β)
  | .sourceFile statements => some (.sourceFile (statements.filterMap (f .statement)))
  | .literal l => some (.literal l)
  | .identifier name => some (.identifier name)
  | .unary op operand => do
    return .unary op (← f .expression operand)
  | .binary l op r => do
    return .binary (← f (.left op) l) op (← f .operand r)
  | .call callee arguments => do
    return .call (← f .expression callee) (arguments.filterMap (f .argument))
  | .branch condition whenTrue whenFalse => do
    return .branch (← f .expression condition) (← f .body whenTrue)
      (whenFalse.bind (f .statement))
  | .block statements => some (.block (statements.filterMap (f .statement)))
  | .expressionStatement expression => do
    return .expressionStatement (← f .expression expression)
  | .variableStatement declarations => do
    return .variableStatement (← f .fixed declarations)
  | .declarationList kind declarations =>
    some (.declarationList kind (declarations.filterMap (f .entry)))
  | .declaration name initializer => do
    return .declaration (← f .fixed name) (initializer.bind (f .initializer))
  | .emptyStatement => some .emptyStatement
  | .other label children => some (.other label (children.filterMap (f .statement)))

theorem filterMap_toList (f : α → Option β) (o : Option α) :
    o.toList.filterMap f = (o.bind f).toList := by
  cases o with
  | none => rfl
  | some a => cases h : f a <;> simp [h]

/-- What is left has the places that it had. -/
theorem spots_sieve {f : Place → α → Option β} {s : Shape α} {s' : Shape β}
    (h : s.sieve f = some s') :
    s'.bare = s.bare ∧ s'.spots = s.spots.filterMap fun e => (f e.1 e.2).map (e.1, ·) := by
  have hmap : ∀ (place : Place) (as : List α), (as.filterMap (f place)).map (Prod.mk place)
      = (as.map (Prod.mk place)).filterMap fun e => (f e.1 e.2).map (e.1, ·) := by
    intro place as
    rw [List.map_filterMap, List.filterMap_map]
    rfl
  cases s with
  | branch c a b =>
    simp only [sieve, Option.bind_eq_bind, Option.bind_eq_some_iff] at h
    obtain ⟨c', hc, a', ha, h⟩ := h
    cases h
    refine ⟨rfl, ?_⟩
    simp [spots, hc, ha, ← filterMap_toList, hmap]
  | declaration a b =>
    simp only [sieve, Option.bind_eq_bind, Option.bind_eq_some_iff] at h
    obtain ⟨a', ha, h⟩ := h
    cases h
    refine ⟨rfl, ?_⟩
    simp [spots, ha, ← filterMap_toList, hmap]
  | binary a op b =>
    simp only [sieve, Option.bind_eq_bind, Option.bind_eq_some_iff] at h
    obtain ⟨a', ha, b', hb, h⟩ := h
    cases h
    exact ⟨rfl, by simp [spots, ha, hb]⟩
  | call a as =>
    simp only [sieve, Option.bind_eq_bind, Option.bind_eq_some_iff] at h
    obtain ⟨a', ha, h⟩ := h
    cases h
    exact ⟨rfl, by simp [spots, ha, hmap]⟩
  | unary _ a | expressionStatement a | variableStatement a =>
    simp only [sieve, Option.bind_eq_bind, Option.bind_eq_some_iff] at h
    obtain ⟨a', ha, h⟩ := h
    cases h
    exact ⟨rfl, by simp [spots, ha]⟩
  | literal _ | identifier _ | emptyStatement =>
    cases h
    exact ⟨rfl, rfl⟩
  | sourceFile _ | block _ | declarationList _ _ | other _ _ =>
    cases h
    exact ⟨rfl, by simp [spots, hmap]⟩

/-- Only a position that has to be filled can stand against it. -/
theorem exists_sieve {f : Place → α → Option β} {s : Shape α}
    (h : ∀ place x, (place, x) ∈ s.spots → place.isRequired → (f place x).isSome) :
    ∃ s', s.sieve f = some s' := by
  have hfilled : ∀ place x, (place, x) ∈ s.spots → place.isRequired → ∃ y, f place x = some y :=
    fun place x hx hp => Option.isSome_iff_exists.1 (h place x hx hp)
  cases s with
  | binary a op b =>
    obtain ⟨a', ha⟩ := hfilled (.left op) a (by simp [spots]) (by simp)
    obtain ⟨b', hb⟩ := hfilled .operand b (by simp [spots]) rfl
    exact ⟨.binary a' op b', by simp [sieve, ha, hb]⟩
  | branch c a b =>
    obtain ⟨c', hc⟩ := hfilled .expression c (by simp [spots]) rfl
    obtain ⟨a', ha⟩ := hfilled .body a (by simp [spots]) rfl
    exact ⟨.branch c' a' (b.bind (f .statement)), by simp [sieve, hc, ha]⟩
  | unary _ a | expressionStatement a | call a _ =>
    obtain ⟨a', ha⟩ := hfilled .expression a (by simp [spots]) rfl
    simp [sieve, ha]
  | variableStatement a | declaration a _ =>
    obtain ⟨a', ha⟩ := hfilled .fixed a (by simp [spots]) rfl
    simp [sieve, ha]
  | _ => exact ⟨_, rfl⟩

theorem sieve_congr {f g : Place → α → Option β} {s : Shape α}
    (h : ∀ place x, (place, x) ∈ s.spots → f place x = g place x) : s.sieve f = s.sieve g := by
  have hlist : ∀ place (as : List α), (∀ x ∈ as, f place x = g place x) →
      as.filterMap (f place) = as.filterMap (g place) :=
    fun _ _ has => List.filterMap_congr has
  have hoption : ∀ place (o : Option α), (∀ x, o = some x → f place x = g place x) →
      o.bind (f place) = o.bind (g place) := by
    rintro place (_ | x) hx
    · rfl
    · exact hx x rfl
  cases s with
  | branch c a b =>
    simp only [sieve, h .expression c (by simp [spots]), h .body a (by simp [spots]),
      hoption .statement b fun x hx => h .statement x (by simp [spots, hx])]
  | declaration a b =>
    simp only [sieve, h .fixed a (by simp [spots]),
      hoption .initializer b fun x hx => h .initializer x (by simp [spots, hx])]
  | binary a op b =>
    simp only [sieve, h (.left op) a (by simp [spots]), h .operand b (by simp [spots])]
  | call a as =>
    simp only [sieve, h .expression a (by simp [spots]),
      hlist .argument as fun x hx => h .argument x (by simp [spots, hx])]
  | unary _ a | expressionStatement a => simp only [sieve, h .expression a (by simp [spots])]
  | variableStatement a => simp only [sieve, h .fixed a (by simp [spots])]
  | literal _ | identifier _ | emptyStatement => rfl
  | declarationList k as =>
    simp only [sieve, hlist .entry as fun x hx => h .entry x (by simp [spots, hx])]
  | sourceFile as | block as | other _ as =>
    simp only [sieve, hlist .statement as fun x hx => h .statement x (by simp [spots, hx])]

/-- What is left may be changed afterwards or at once. -/
theorem map_sieve (f : Place → α → Option β) (g : β → γ) (s : Shape α) :
    (s.sieve f).map (map g) = s.sieve fun place x => (f place x).map g := by
  have hoption : ∀ (place : Place) (o : Option α),
      (o.bind (f place)).map g = o.bind fun x => (f place x).map g := by
    rintro place (_ | x) <;> rfl
  cases s with
  | branch c a b =>
    cases h : f .expression c <;> cases h' : f .body a <;> simp [sieve, map, h, h', hoption]
  | declaration a b =>
    cases h : f .fixed a <;> simp [sieve, map, h, hoption]
  | binary a op b =>
    cases h : f (.left op) a <;> cases h' : f .operand b <;> simp [sieve, map, h, h']
  | unary _ a | expressionStatement a =>
    cases h : f .expression a <;> simp [sieve, map, h]
  | call a as =>
    cases h : f .expression a <;> simp [sieve, map, h, List.map_filterMap]
  | variableStatement a =>
    cases h : f .fixed a <;> simp [sieve, map, h]
  | _ => simp [sieve, map, List.map_filterMap]

/-- What is left of the changed children is left of the children. -/
theorem sieve_map (f : Place → β → Option γ) (g : α → β) (s : Shape α) :
    (s.map g).sieve f = s.sieve fun place x => f place (g x) := by
  cases s <;> simp only [sieve, map, List.filterMap_map, Option.bind_map] <;> rfl

/-- Dropping children that need not be there keeps the places of the others. -/
theorem spots_of_filterMap {s : Shape α} {s' : Shape β} {g : α → Option β}
    (hb : s'.bare = s.bare) (hc : s'.children = s.children.filterMap g)
    (hr : ∀ place x, (place, x) ∈ s.spots → place.isRequired → (g x).isSome) :
    s'.spots = s.spots.filterMap fun spot => (g spot.2).map (spot.1, ·) := by
  obtain ⟨s'', h⟩ := exists_sieve (f := fun _ => g) hr
  obtain ⟨hb', hs⟩ := spots_sieve h
  have hc' : s''.children = s.children.filterMap g := by
    rw [← map_snd_spots s'', hs, ← map_snd_spots s, List.map_filterMap, List.filterMap_map]
    exact List.filterMap_congr fun e _ => by simp [Function.comp_def]
  rw [ext_bare (hb.trans hb'.symm) (hc.trans hc'.symm), hs]

/-! ## 5. Replacing and vacating -/

/-- Whether a literal may stand in the place of a child. -/
def isSite [DecidableEq α] (x : α) : Shape α → Bool
  | .call _ arguments => arguments.contains x
  | .binary l op _ => !(op.isAssignment && l == x)
  | _ => false

theorem isSite_of_spot [DecidableEq α] {s : Shape α} (h : s.children.Nodup) {x : α}
    {place : Place} (hx : (place, x) ∈ s.spots) : s.isSite x = place.isSite := by
  cases s with
  | binary l op r =>
    simp only [spots, List.mem_cons, Prod.mk.injEq, List.not_mem_nil, or_false] at hx
    rcases hx with ⟨rfl, rfl⟩ | ⟨rfl, rfl⟩
    · simp [isSite]
    · have hne : l ≠ x := by rintro rfl; simp at h
      simp [isSite, Place.isSite, hne]
  | call a as =>
    simp only [spots, List.mem_cons, Prod.mk.injEq, List.mem_map] at hx
    rcases hx with ⟨rfl, rfl⟩ | ⟨y, hy, rfl, rfl⟩
    · simp_all [isSite, Place.isSite]
    · simp [isSite, Place.isSite, hy]
  | branch a b o =>
    simp only [spots, List.mem_cons, Prod.mk.injEq, List.mem_map] at hx
    rcases hx with ⟨rfl, _⟩ | ⟨rfl, _⟩ | ⟨y, hy, rfl, _⟩ <;> rfl
  | declaration a o =>
    simp only [spots, List.mem_cons, Prod.mk.injEq, List.mem_map] at hx
    rcases hx with ⟨rfl, _⟩ | ⟨y, hy, rfl, _⟩ <;> rfl
  | literal _ | identifier _ | emptyStatement => simp [spots] at hx
  | unary _ _ | expressionStatement _ | variableStatement _ =>
    simp only [spots, List.mem_singleton, Prod.mk.injEq] at hx
    obtain ⟨rfl, _⟩ := hx
    rfl
  | sourceFile _ | block _ | declarationList _ _ | other _ _ =>
    simp only [spots, List.mem_map, Prod.mk.injEq] at hx
    obtain ⟨y, hy, rfl, _⟩ := hx
    rfl

section

variable [DecidableEq α]

@[simp] theorem bare_replace (old new : α) (s : Shape α) : (s.replace old new).bare = s.bare := by
  cases s <;> simp only [replace] <;> (repeat' split) <;> rfl

theorem bare_vacate {old : α} {s rest : Shape α} (h : s.vacate old = some rest) :
    rest.bare = s.bare := by
  cases s <;> simp only [vacate] at h <;> (repeat' split at h) <;> cases h <;> rfl

theorem swap_of_ne {old new x : α} (h : x ≠ old) : swap old new x = x := if_neg h

theorem swap_self (old new : α) : swap old new old = new := if_pos rfl

theorem mem_replace {l : List α} {old new x : α} (h : x ∈ l.replace old new) :
    x ∈ l ∨ x = new ∧ old ∈ l := by
  induction l with
  | nil => exact Or.inl h
  | cons a l ih =>
    rw [replace_cons_eq] at h
    split at h
    · rename_i ha
      rcases List.mem_cons.1 h with hx | hx
      · exact Or.inr ⟨hx, ha ▸ List.mem_cons_self⟩
      · exact Or.inl (List.mem_cons_of_mem a hx)
    · rcases List.mem_cons.1 h with hx | hx
      · exact Or.inl (hx ▸ List.mem_cons_self)
      · exact (ih hx).imp (List.mem_cons_of_mem a) (And.imp_right (List.mem_cons_of_mem a))

/-- Whatever is not replaced is still there. -/
theorem mem_replace_of_ne {l : List α} {old new x : α} (h : x ∈ l) (hne : x ≠ old) :
    x ∈ l.replace old new := by
  induction l with
  | nil => cases h
  | cons a l ih =>
    rw [replace_cons_eq]
    rcases List.mem_cons.1 h with rfl | hx
    · rw [if_neg hne]
      exact List.mem_cons_self
    · split
      · exact List.mem_cons_of_mem new hx
      · exact List.mem_cons_of_mem a (ih hx)

theorem mem_replace_self {l : List α} {old new : α} (h : old ∈ l) : new ∈ l.replace old new := by
  induction l with
  | nil => cases h
  | cons a l ih =>
    rw [replace_cons_eq]
    split
    · exact List.mem_cons_self
    · rename_i ha
      exact List.mem_cons_of_mem a (ih ((List.mem_cons.1 h).resolve_left fun h => ha h.symm))

theorem replace_eq_map {l : List α} (h : l.Nodup) (old new : α) :
    l.replace old new = l.map (swap old new) := by
  induction l with
  | nil => rfl
  | cons a l ih =>
    obtain ⟨ha, hl⟩ := List.nodup_cons.1 h
    rw [replace_cons_eq, List.map_cons]
    by_cases hold : a = old
    · subst hold
      have hrest : ∀ x ∈ l, swap a new x = x := fun x hx =>
        swap_of_ne fun h : x = a => ha (h ▸ hx)
      rw [if_pos rfl, swap_self, List.map_congr_left hrest, List.map_id']
    · rw [if_neg hold, swap_of_ne hold, ih hl]

/-- In a shape that holds each child once, replacing changes one child. -/
theorem replace_eq_map_swap {s : Shape α} (h : s.children.Nodup) (old new : α) :
    s.replace old new = s.map (swap old new) := by
  refine ext_bare (by simp) ?_
  rw [children_replace, children_map, replace_eq_map h]

/-- Replacing keeps every place. -/
theorem spots_replace {s : Shape α} (h : s.children.Nodup) (old new : α) :
    (s.replace old new).spots = s.spots.map (Prod.map id (swap old new)) := by
  rw [replace_eq_map_swap h, spots_map]

/-- A child cannot be taken out exactly where the position has to be filled. -/
theorem vacate_eq_none_iff {old : α} {s : Shape α} (hnodup : s.children.Nodup) {place : Place}
    (h : (place, old) ∈ s.spots) : s.vacate old = none ↔ place.isRequired := by
  cases s with
  | binary l op r =>
    simp only [spots, List.mem_cons, Prod.mk.injEq, List.not_mem_nil, or_false] at h
    rcases h with ⟨rfl, _⟩ | ⟨rfl, _⟩
    · simp [vacate]
    · simp [vacate, Place.isRequired]
  | call a as =>
    simp only [spots, List.mem_cons, Prod.mk.injEq, List.mem_map] at h
    rcases h with ⟨rfl, rfl⟩ | ⟨x, hx, rfl, rfl⟩
    · simp [vacate, Place.isRequired]
    · have hne : a ≠ x := by rintro rfl; simp_all
      simp [vacate, Place.isRequired, hne]
  | branch a b o =>
    simp only [spots, List.mem_cons, Prod.mk.injEq, List.mem_map] at h
    rcases h with ⟨rfl, rfl⟩ | ⟨rfl, rfl⟩ | ⟨x, hx, rfl, rfl⟩
    · simp [vacate, Place.isRequired]
    · simp [vacate, Place.isRequired]
    · have hne : a ≠ x ∧ b ≠ x := by constructor <;> (rintro rfl; simp_all)
      simp [vacate, Place.isRequired, hne]
  | declaration a o =>
    simp only [spots, List.mem_cons, Prod.mk.injEq, List.mem_map] at h
    rcases h with ⟨rfl, rfl⟩ | ⟨x, hx, rfl, rfl⟩
    · simp [vacate, Place.isRequired]
    · have hne : a ≠ x := by rintro rfl; simp_all
      simp [vacate, Place.isRequired, hne]
  | literal _ | identifier _ | emptyStatement => simp [spots] at h
  | unary _ _ | expressionStatement _ | variableStatement _ =>
    simp only [spots, List.mem_singleton, Prod.mk.injEq] at h
    obtain ⟨rfl, _⟩ := h
    simp [vacate, Place.isRequired]
  | sourceFile _ | block _ | declarationList _ _ | other _ _ =>
    simp only [spots, List.mem_map, Prod.mk.injEq] at h
    obtain ⟨x, hx, rfl, _⟩ := h
    simp [vacate, Place.isRequired]

/-- Vacating drops the spot of one child. -/
theorem spots_vacate {old : α} {s rest : Shape α} (hnodup : s.children.Nodup)
    (h : s.vacate old = some rest) :
    rest.spots = s.spots.filter fun spot => spot.2 ≠ old := by
  have hchildren : rest.children = s.children.filterMap (Option.guard (· ≠ old)) := by
    rw [children_vacate h, hnodup.erase_eq_filter, List.filterMap_eq_filter]
    exact List.filter_congr fun x _ => by simp [bne, beq_eq_decide]
  have hfilled : ∀ place x, (place, x) ∈ s.spots → place.isRequired →
      (Option.guard (· ≠ old) x).isSome := by
    intro place x hx hreq
    have hne : x ≠ old := by
      rintro rfl
      rw [(vacate_eq_none_iff hnodup hx).2 hreq] at h
      cases h
    simp [hne]
  rw [spots_of_filterMap (bare_vacate h) hchildren hfilled, ← List.filterMap_eq_filter]
  refine List.filterMap_congr fun spot _ => ?_
  by_cases hs : spot.2 = old <;> simp [Option.guard, hs]

end

end Shape

end ScriptReduce
