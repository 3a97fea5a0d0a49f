/-
ScriptReduce.Proofs.Evaluate.Semantics: the values that expressions have.

`look` is all that evaluation sees of one node: a literal, an operator with
its operands, or the initializer of the constant that an identifier stands
for. `Yields` gives an expression its value by rules over these views. The
rules know no depth and mark no declarations: an expression that leads back to
itself has no derivation, and so no value.

The evaluator agrees with the rules. What it returns is a value by the rules
(`evalWithin_sound`). A value by the rules is found as well, unless the descent
is cut off (`Yields.found`): the least derivation of a value never
passes the same declaration twice, so the marks do not stand in its way. Both
hold of every tree and every resolver.

Two trees whose views correspond give their expressions the same values
(`Yields.transfer`).
-/
import ScriptReduce.Proofs.Tree.Edit
import ScriptReduce.Reduce.Evaluate

namespace ScriptReduce

/-! ## 1. What evaluation sees -/

/-- What evaluation sees of a node. -/
inductive View where
  | literal (literal : Literal)
  | not (operand : NodeId)
  | binary (left : NodeId) (operator : BinaryOperator) (right : NodeId)
  /-- An identifier that stands for a constant. -/
  | constant (declaration initializer : NodeId)
  /-- Anything that has no value. -/
  | nothing
deriving DecidableEq

namespace View

/-- The view with each expression changed; declarations stay. -/
def map (f : NodeId → NodeId) : View → View
  | .literal l => .literal l
  | .not operand => .not (f operand)
  | .binary left op right => .binary (f left) op (f right)
  | .constant declaration initializer => .constant declaration (f initializer)
  | .nothing => .nothing

/-- The expressions that a view leads to. -/
def expressions : View → List NodeId
  | .literal _ | .nothing => []
  | .not operand => [operand]
  | .binary left _ right => [left, right]
  | .constant _ initializer => [initializer]

theorem map_map (f g : NodeId → NodeId) (v : View) : (v.map f).map g = v.map (g ∘ f) := by
  cases v <;> rfl

theorem map_eq_self {f : NodeId → NodeId} {v : View} (h : ∀ x ∈ v.expressions, f x = x) :
    v.map f = v := by
  cases v <;> simp_all [map, expressions]

@[simp] theorem expressions_map (f : NodeId → NodeId) (v : View) :
    (v.map f).expressions = v.expressions.map f := by
  cases v <;> rfl

end View

namespace Evaluator

variable {ev ev' : Evaluator} {id d i a b : NodeId} {v w : Value}

/-- The constant that an identifier may be looked through to: its declaration
and its initializer. -/
def constantOf (ev : Evaluator) (id : NodeId) : Option (NodeId × NodeId) :=
  match ev.isUse id, ev.constant? id with
  | .ok true, .ok constant => constant
  | _, _ => none

def look (ev : Evaluator) (id : NodeId) : View :=
  match ev.tree.shape id with
  | .ok (.literal l) => .literal l
  | .ok (.unary .not operand) => .not operand
  | .ok (.binary left op right) => .binary left op right
  | .ok (.identifier _) =>
    match ev.constantOf id with
    | some (declaration, initializer) => .constant declaration initializer
    | none => .nothing
  | _ => .nothing

/-! ## 2. Values by rules -/

/-- An expression has a value by a derivation of at most a given height. -/
inductive Derives (ev : Evaluator) : Nat → NodeId → Value → Prop where
  | literal {k id l v} (see : ev.look id = .literal l) (value : Value.ofLiteral? l = some v) :
    Derives ev k id v
  | not {k id a v} (see : ev.look id = .not a) (operand : Derives ev k a v) :
    Derives ev (k + 1) id (.boolean !v.isTruthy)
  | settled {k id a op b v} (see : ev.look id = .binary a op b) (left : Derives ev k a v)
    (settles : op.isSettledBy v = true) : Derives ev (k + 1) id v
  | combined {k id a op b v w u} (see : ev.look id = .binary a op b) (left : Derives ev k a v)
    (settles : op.isSettledBy v = false) (right : Derives ev k b w)
    (value : op.apply v w = some u) : Derives ev (k + 1) id u
  | constant {k id d i v} (see : ev.look id = .constant d i) (initializer : Derives ev k i v) :
    Derives ev (k + 1) id v

/-- An expression has a value. -/
def Yields (ev : Evaluator) (id : NodeId) (v : Value) : Prop := ∃ k, ev.Derives k id v

theorem Derives.yields {k : Nat} (h : ev.Derives k id v) : ev.Yields id v := ⟨k, h⟩

theorem Derives.mono {k m : Nat} (h : ev.Derives k id v) (hkm : k ≤ m) : ev.Derives m id v := by
  induction h generalizing m with
  | literal see value => exact .literal see value
  | not see _ ih =>
    cases m with
    | zero => omega
    | succ m => exact .not see (ih (by omega))
  | settled see _ settles ih =>
    cases m with
    | zero => omega
    | succ m => exact .settled see (ih (by omega)) settles
  | combined see _ settles _ value ihl ihr =>
    cases m with
    | zero => omega
    | succ m => exact .combined see (ihl (by omega)) settles (ihr (by omega)) value
  | constant see _ ih =>
    cases m with
    | zero => omega
    | succ m => exact .constant see (ih (by omega))

/-- An expression has one value at most. -/
theorem Derives.unique {k m : Nat} (h : ev.Derives k id v) (h' : ev.Derives m id w) : v = w := by
  induction h generalizing m w with
  | literal see value =>
    cases h' <;> simp_all
  | not see _ ih =>
    cases h' with
    | not see' operand' =>
      rw [see] at see'
      cases see'
      rw [ih operand']
    | _ => simp_all
  | settled see _ settles ih =>
    cases h' with
    | settled see' left' settles' =>
      rw [see] at see'
      cases see'
      exact ih left'
    | combined see' left' settles' right' value' =>
      rw [see] at see'
      cases see'
      rw [← ih left', settles] at settles'
      cases settles'
    | _ => simp_all
  | combined see _ settles _ value ihl ihr =>
    cases h' with
    | settled see' left' settles' =>
      rw [see] at see'
      cases see'
      rw [← ihl left', settles] at settles'
      cases settles'
    | combined see' left' settles' right' value' =>
      rw [see] at see'
      cases see'
      rw [← ihl left', ← ihr right', value] at value'
      exact Option.some.inj value'
    | _ => simp_all
  | constant see _ ih =>
    cases h' with
    | constant see' initializer' =>
      rw [see] at see'
      cases see'
      exact ih initializer'
    | _ => simp_all

theorem Yields.unique (h : ev.Yields id v) (h' : ev.Yields id w) : v = w := by
  obtain ⟨_, h⟩ := h
  obtain ⟨_, h'⟩ := h'
  exact h.unique h'

namespace Yields

theorem literal {l : Literal} (see : ev.look id = .literal l) (value : Value.ofLiteral? l = some v) :
    ev.Yields id v :=
  ⟨0, .literal see value⟩

theorem not (see : ev.look id = .not a) (h : ev.Yields a v) :
    ev.Yields id (.boolean !v.isTruthy) := by
  obtain ⟨k, h⟩ := h
  exact ⟨k + 1, .not see h⟩

theorem settled {op : BinaryOperator} (see : ev.look id = .binary a op b) (h : ev.Yields a v)
    (settles : op.isSettledBy v = true) : ev.Yields id v := by
  obtain ⟨k, h⟩ := h
  exact ⟨k + 1, .settled see h settles⟩

theorem combined {op : BinaryOperator} {u : Value} (see : ev.look id = .binary a op b)
    (hl : ev.Yields a v) (settles : op.isSettledBy v = false) (hr : ev.Yields b w)
    (value : op.apply v w = some u) : ev.Yields id u := by
  obtain ⟨k, hl⟩ := hl
  obtain ⟨m, hr⟩ := hr
  exact ⟨max k m + 1, .combined see (hl.mono (Nat.le_max_left k m)) settles
    (hr.mono (Nat.le_max_right k m)) value⟩

theorem constant (see : ev.look id = .constant d i) (h : ev.Yields i v) : ev.Yields id v := by
  obtain ⟨k, h⟩ := h
  exact ⟨k + 1, .constant see h⟩

/-- What is seen as a literal has the value of the literal. -/
theorem of_literal {l : Literal} (see : ev.look id = .literal l) (h : ev.Yields id v) :
    Value.ofLiteral? l = some v := by
  obtain ⟨k, h⟩ := h
  cases h <;> simp_all

theorem not_nothing (see : ev.look id = .nothing) : ¬ev.Yields id v := by
  rintro ⟨k, h⟩
  cases h <;> simp_all

end Yields

/-! ## 3. Views and shapes -/

theorem look_of_literal {l : Literal} (h : ev.tree.shape id = .ok (.literal l)) :
    ev.look id = .literal l := by
  rw [look, h]

theorem look_of_not (h : ev.tree.shape id = .ok (.unary .not a)) : ev.look id = .not a := by
  rw [look, h]

theorem look_of_binary {op : BinaryOperator} (h : ev.tree.shape id = .ok (.binary a op b)) :
    ev.look id = .binary a op b := by
  rw [look, h]

theorem look_of_identifier {name : String} (h : ev.tree.shape id = .ok (.identifier name))
    (hc : ev.constantOf id = some (d, i)) : ev.look id = .constant d i := by
  rw [look, h]
  simp only [hc]

theorem shape_of_look_literal {l : Literal} (h : ev.look id = .literal l) :
    ev.tree.shape id = .ok (.literal l) := by
  unfold look at h
  repeat' split at h
  all_goals first | (cases h; assumption) | cases h

theorem shape_of_look_not (h : ev.look id = .not a) : ev.tree.shape id = .ok (.unary .not a) := by
  unfold look at h
  repeat' split at h
  all_goals first | (cases h; assumption) | cases h

theorem shape_of_look_binary {op : BinaryOperator} (h : ev.look id = .binary a op b) :
    ev.tree.shape id = .ok (.binary a op b) := by
  unfold look at h
  repeat' split at h
  all_goals first | (cases h; assumption) | cases h

theorem shape_of_look_constant (h : ev.look id = .constant d i) :
    ∃ name, ev.tree.shape id = .ok (.identifier name) ∧ ev.constantOf id = some (d, i) := by
  unfold look at h
  split at h
  · cases h
  · cases h
  · cases h
  · rename_i name hs
    split at h
    · rename_i hc
      cases h
      exact ⟨name, hs, hc⟩
    · cases h
  · cases h

theorem constantOf_eq_some : ev.constantOf id = some (d, i) ↔
    ev.isUse id = .ok true ∧ ev.constant? id = .ok (some (d, i)) := by
  unfold constantOf
  split
  · rename_i hu hc
    simp [hu, hc]
  · rename_i hne
    simp only [reduceCtorEq, false_iff, not_and]
    exact fun hu hc => hne _ hu hc

/-- A constant is asked for by its symbol, and has the initializer of its
declaration. -/
theorem constant?_eq_some : ev.constant? id = .ok (some (d, i)) ↔
    ∃ symbol, ev.symbolAt id = some symbol ∧ symbol.kind.isImmutable = true ∧
      symbol.declaration = some d ∧ ev.initializer? d = .ok (some i) := by
  unfold constant?
  cases hs : ev.symbolAt id with
  | none => simp [pure_eq_ok]
  | some symbol =>
    by_cases hk : symbol.kind.isImmutable = true
    · cases hd : symbol.declaration with
      | none => simp [hk, hd, pure_eq_ok]
      | some d' =>
        simp only [hk, hd, if_true, bind_eq_ok, pure_eq_ok, Option.some.injEq]
        constructor
        · rintro ⟨o, ho, hmap⟩
          obtain ⟨j, rfl, hj⟩ := Option.map_eq_some_iff.1 hmap
          cases hj
          exact ⟨symbol, rfl, hk, hd, ho⟩
        · rintro ⟨_, rfl, _, hd', hi⟩
          rw [hd] at hd'
          cases hd'
          exact ⟨some i, hi, rfl⟩
    · simp [hk, pure_eq_ok]

/-- A declaration has one initializer. -/
theorem initializer_unique {x y j : NodeId} (hx : ev.constantOf x = some (d, i))
    (hy : ev.constantOf y = some (d, j)) : i = j := by
  obtain ⟨_, _, _, _, hi⟩ := constant?_eq_some.1 (constantOf_eq_some.1 hx).2
  obtain ⟨_, _, _, _, hj⟩ := constant?_eq_some.1 (constantOf_eq_some.1 hy).2
  rw [hi] at hj
  cases hj
  rfl

/-! ## 4. The evaluator follows the rules -/

/-- What an identifier resolves to is what the initializer of its constant
evaluates to, unless the declaration is marked. -/
theorem resolveWith_of_constant {eval : List NodeId → NodeId → Except Fault Outcome}
    {marked : List NodeId} (h : ev.constantOf id = some (d, i)) :
    ev.resolveWith eval marked id = if marked.contains d then .ok ⟨none, [id]⟩
      else do return (← eval (d :: marked) i).after [id] := by
  obtain ⟨hu, hc⟩ := constantOf_eq_some.1 h
  rw [resolveWith, bind_of_ok _ hu, if_pos rfl, bind_of_ok _ hc]
  rfl

theorem resolveWith_eq_ok {eval : List NodeId → NodeId → Except Fault Outcome}
    {marked : List NodeId} {o : Outcome} (h : ev.resolveWith eval marked id = .ok o)
    (hv : o.value = some v) : ∃ d i o', ev.constantOf id = some (d, i) ∧
      eval (d :: marked) i = .ok o' ∧ o'.value = some v := by
  rw [resolveWith] at h
  obtain ⟨use, hu, h⟩ := bind_eq_ok.1 h
  cases use with
  | false =>
    cases h
    cases hv
  | true =>
    rw [if_pos rfl] at h
    obtain ⟨c, hc, h⟩ := bind_eq_ok.1 h
    cases c with
    | none =>
      cases h
      cases hv
    | some c =>
      obtain ⟨d, i⟩ := c
      simp only at h
      split at h
      · cases h
        cases hv
      · obtain ⟨o', ho, h⟩ := bind_eq_ok.1 h
        cases h
        exact ⟨d, i, o', constantOf_eq_some.2 ⟨hu, hc⟩, ho, hv⟩

/-- What the evaluator returns is a value by the rules. -/
theorem evalWithin_sound {depth : Nat} {marked : List NodeId} {o : Outcome}
    (h : ev.evalWithin depth marked id = .ok o) (hv : o.value = some v) : ev.Yields id v := by
  induction depth generalizing marked id o v with
  | zero => cases h
  | succ depth ih =>
    rw [evalWithin] at h
    obtain ⟨s, hs, h⟩ := bind_eq_ok.1 h
    cases s with
    | literal l =>
      cases h
      exact .literal (look_of_literal hs) hv
    | unary op a =>
      cases op with
      | not =>
        obtain ⟨o', ho, h⟩ := bind_eq_ok.1 h
        cases h
        obtain ⟨w, hw, rfl⟩ := Option.map_eq_some_iff.1 hv
        exact .not (look_of_not hs) (ih ho hw)
      | _ =>
        cases h
        cases hv
    | binary a op b =>
      obtain ⟨l, hl, h⟩ := bind_eq_ok.1 h
      cases hlv : l.value with
      | none =>
        rw [hlv] at h
        cases h
        rw [hlv] at hv
        cases hv
      | some w =>
        rw [hlv] at h
        simp only at h
        by_cases hset : op.isSettledBy w = true
        · rw [if_pos hset] at h
          cases h
          rw [hlv] at hv
          cases hv
          exact .settled (look_of_binary hs) (ih hl hlv) hset
        · rw [if_neg hset] at h
          obtain ⟨r, hr, h⟩ := bind_eq_ok.1 h
          cases h
          obtain ⟨u, hu, happly⟩ := Option.bind_eq_some_iff.1 hv
          exact .combined (look_of_binary hs) (ih hl hlv) (by simpa using hset) (ih hr hu) happly
    | identifier name =>
      obtain ⟨d, i, o', hc, ho, hv'⟩ := resolveWith_eq_ok h hv
      exact .constant (look_of_identifier hs hc) (ih ho hv')
    | _ =>
      cases h
      cases hv

/-! ## 5. The evaluator finds every value -/

/-- A derivation of some height can be taken to be a least one. -/
theorem Derives.exists_least {k : Nat} (h : ev.Derives k id v) :
    ∃ m ≤ k, ev.Derives m id v ∧ ∀ j < m, ∀ w, ¬ev.Derives j id w := by
  induction k with
  | zero => exact ⟨0, Nat.le_refl 0, h, fun j hj => absurd hj (Nat.not_lt_zero j)⟩
  | succ k ih =>
    by_cases hk : ev.Derives k id v
    · obtain ⟨m, hm, h⟩ := ih hk
      exact ⟨m, Nat.le_succ_of_le hm, h⟩
    · refine ⟨k + 1, Nat.le_refl _, h, fun j hj w hw => hk ?_⟩
      rw [h.unique hw]
      exact hw.mono (Nat.le_of_lt_succ hj)

/-- An evaluation gives a value, unless it is cut off. -/
def Hits (result : Except Fault Outcome) (v : Value) : Prop :=
  result = .error .endless ∨ ∃ o, result = .ok o ∧ o.value = some v

namespace Hits

variable {result : Except Fault Outcome} {w : Value}

theorem of_value {o : Outcome} (h : o.value = some v) : Hits (.ok o) v := .inr ⟨o, rfl, h⟩

/-- What follows an evaluation goes on with its value. -/
theorem bind {f : Outcome → Except Fault Outcome} (h : Hits result v)
    (hf : ∀ o, o.value = some v → Hits (f o) w) : Hits (result >>= f) w := by
  rcases h with h | ⟨o, h, hv⟩
  · rw [h]
    exact .inl rfl
  · rw [bind_of_ok _ h]
    exact hf o hv

theorem value_eq {o : Outcome} (h : Hits result v) (ho : result = .ok o) : o.value = some v := by
  rcases h with h | ⟨o', h, hv⟩
  · rw [ho] at h
    cases h
  · rw [ho] at h
    cases h
    exact hv

theorem error_eq {e : Fault} (h : Hits result v) (he : result = .error e) : e = .endless := by
  rcases h with h | ⟨o, h, -⟩
  · rw [he] at h
    cases h
    rfl
  · rw [he] at h
    cases h

end Hits

/-- No marked declaration is needed for a derivation of less than some height. -/
def Unneeded (ev : Evaluator) (k : Nat) (marked : List NodeId) : Prop :=
  ∀ x d i, ev.constantOf x = some (d, i) → d ∈ marked → ∀ j < k, ∀ w, ¬ev.Derives j i w

namespace Unneeded

variable {k m : Nat} {marked : List NodeId}

theorem nil (ev : Evaluator) (k : Nat) : ev.Unneeded k [] := fun _ _ _ _ hd => by cases hd

theorem mono (h : ev.Unneeded k marked) (hm : m ≤ k) : ev.Unneeded m marked :=
  fun x d i hx hd j hj => h x d i hx hd j (Nat.lt_of_lt_of_le hj hm)

/-- A declaration may be marked up to the least height that its initializer has. -/
theorem cons (h : ev.Unneeded m marked) (hc : ev.constantOf id = some (d, i))
    (hnone : ∀ j < m, ∀ w, ¬ev.Derives j i w) : ev.Unneeded m (d :: marked) := by
  intro x d' i' hx hd' j hj
  rcases List.mem_cons.1 hd' with rfl | hd'
  · rw [initializer_unique hx hc]
    exact hnone j hj
  · exact h x d' i' hx hd' j hj

end Unneeded

/-- The evaluator finds a value that has a derivation, as long as no marked
declaration is needed for one that high. The induction is on the height. Where
an identifier is looked through, it goes on with the least derivation for the
initializer, so that the declaration which is marked then is not needed
again. -/
theorem Derives.found {k : Nat} (h : ev.Derives k id v) {marked : List NodeId}
    (hmarked : ev.Unneeded k marked) (depth : Nat) : Hits (ev.evalWithin depth marked id) v := by
  induction k using Nat.strongRecOn generalizing id v marked depth with
  | ind k ih =>
    cases depth with
    | zero => exact .inl rfl
    | succ depth =>
      rw [evalWithin]
      cases h with
      | literal see value =>
        rw [bind_of_ok _ (shape_of_look_literal see)]
        exact .of_value value
      | @not k _ a w see operand =>
        rw [bind_of_ok _ (shape_of_look_not see)]
        have hm := hmarked.mono (Nat.le_succ k)
        refine (ih k (Nat.lt_succ_self k) operand hm depth).bind fun o hv => .of_value ?_
        rw [hv]
        rfl
      | @settled k _ a op b w see left settles =>
        rw [bind_of_ok _ (shape_of_look_binary see)]
        have hm := hmarked.mono (Nat.le_succ k)
        refine (ih k (Nat.lt_succ_self k) left hm depth).bind fun o hv => ?_
        rw [hv]
        simp only [settles, if_true]
        exact .of_value hv
      | @combined k _ a op b u w _ see left settles right value =>
        rw [bind_of_ok _ (shape_of_look_binary see)]
        have hm := hmarked.mono (Nat.le_succ k)
        refine (ih k (Nat.lt_succ_self k) left hm depth).bind fun o hv => ?_
        rw [hv]
        simp only [settles, Bool.false_eq_true, if_false]
        refine (ih k (Nat.lt_succ_self k) right hm depth).bind fun o' hv' => .of_value ?_
        rw [hv']
        exact value
      | @constant k _ d i _ see initializer =>
        obtain ⟨name, hs, hc⟩ := shape_of_look_constant see
        rw [bind_of_ok _ hs]
        simp only
        have hd : d ∉ marked := fun hd => hmarked _ d i hc hd k (Nat.lt_succ_self k) _ initializer
        rw [resolveWith_of_constant hc, if_neg (by simpa using hd)]
        obtain ⟨m, hmk, hleast, hnone⟩ := initializer.exists_least
        have hm : ev.Unneeded m (d :: marked) :=
          (hmarked.mono (Nat.le_succ_of_le hmk)).cons hc hnone
        exact (ih m (Nat.lt_succ_of_le hmk) hleast hm depth).bind fun o hv => .of_value hv

/-- At the start of an evaluation nothing is marked, so every value is found. -/
theorem Yields.found (h : ev.Yields id v) (depth : Nat) : Hits (ev.evalWithin depth [] id) v := by
  obtain ⟨k, h⟩ := h
  exact h.found (.nil ev k) depth

/-- An evaluation that ends has found the value of the expression, if there
is one. -/
theorem evaluate_value_iff {o : Outcome} (h : ev.evaluate id = .ok o) :
    o.value = some v ↔ ev.Yields id v := by
  constructor
  · exact evalWithin_sound h
  · exact fun hy => (hy.found ev.depthLimit).value_eq h

/-- An identifier is resolved as it is evaluated. -/
theorem resolve_value_iff {name : String} {o : Outcome}
    (hs : ev.tree.shape id = .ok (.identifier name)) (h : ev.resolve id = .ok o) :
    o.value = some v ↔ ev.Yields id v := by
  have heval : ev.evalWithin (ev.depthLimit + 1) [] id = .ok o := by
    rw [evalWithin, bind_of_ok _ hs]
    exact h
  constructor
  · exact evalWithin_sound heval
  · exact fun hy => (hy.found (ev.depthLimit + 1)).value_eq heval

/-! ## 6. Corresponding trees -/

/-- Where the views of two evaluators correspond, and where they do not the
value is known to be the same, expressions have the same values. -/
theorem Yields.transfer {f : NodeId → NodeId} {P : NodeId → Prop}
    (H : ∀ x, P x → (∀ v, ev.Yields x v → ev'.Yields (f x) v) ∨
      (ev'.look (f x) = (ev.look x).map f ∧ ∀ y ∈ (ev.look x).expressions, P y))
    (hid : P id) (h : ev.Yields id v) : ev'.Yields (f id) v := by
  obtain ⟨k, h⟩ := h
  induction h with
  | literal see value =>
    rcases H _ hid with hknown | ⟨hlook, _⟩
    · exact hknown _ (.literal see value)
    · rw [see] at hlook
      exact .literal hlook value
  | not see operand ih =>
    rcases H _ hid with hknown | ⟨hlook, hP⟩
    · exact hknown _ (.not see operand.yields)
    · rw [see] at hlook hP
      exact .not hlook (ih (hP _ (by simp [View.expressions])))
  | settled see left settles ih =>
    rcases H _ hid with hknown | ⟨hlook, hP⟩
    · exact hknown _ (.settled see left.yields settles)
    · rw [see] at hlook hP
      exact .settled hlook (ih (hP _ (by simp [View.expressions]))) settles
  | combined see left settles right value ihl ihr =>
    rcases H _ hid with hknown | ⟨hlook, hP⟩
    · exact hknown _ (.combined see left.yields settles right.yields value)
    · rw [see] at hlook hP
      exact .combined hlook (ihl (hP _ (by simp [View.expressions]))) settles
        (ihr (hP _ (by simp [View.expressions]))) value
  | constant see initializer ih =>
    rcases H _ hid with hknown | ⟨hlook, hP⟩
    · exact hknown _ (.constant see initializer.yields)
    · rw [see] at hlook hP
      exact .constant hlook (ih (hP _ (by simp [View.expressions])))

end Evaluator

end ScriptReduce
