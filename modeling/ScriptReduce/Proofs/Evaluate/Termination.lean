/-
ScriptReduce.Proofs.Evaluate.Termination: evaluation comes to an end.

A descent through slots goes down in rank, and a look through a constant marks
one more declaration. So what is left to do is measured by the declarations
that are not marked yet and then by the rank, and the bound that the evaluator
puts on its depth is enough. All this is about a graded domain: nothing is
known of an evaluation that a symbol sends out of it. Within the domain one
thing only can go wrong: a symbol may name a declaration that is no node of
the tree (`Misled`).
-/
import ScriptReduce.Proofs.Evaluate.Semantics
import ScriptReduce.Proofs.Tree.Graded

namespace ScriptReduce

open ScriptReduce.Tree

/-! ## 1. Faults -/

namespace Resolver

/-- Whether the declarations that a resolver answers with belong to a
domain. -/
def Keeps (symbolAt : Resolver) (D : NodeId → Prop) : Prop :=
  ∀ x symbol d, symbolAt x = some symbol → symbol.declaration = some d → D d

/-- Whether the declarations that a resolver answers with are nodes of a
tree. -/
def Within (symbolAt : Resolver) (t : Tree) : Prop :=
  ∀ x symbol d, symbolAt x = some symbol → symbol.declaration = some d → d.index < t.size

theorem keeps_everywhere (symbolAt : Resolver) : symbolAt.Keeps Everywhere :=
  fun _ _ _ _ _ => trivial

theorem Within.mono {symbolAt : Resolver} {t t' : Tree} (h : symbolAt.Within t)
    (hle : t.size ≤ t'.size) : symbolAt.Within t' :=
  fun x symbol d hs hd => Nat.lt_of_lt_of_le (h x symbol d hs hd) hle

end Resolver

/-- The answers of a table are among its symbols. -/
theorem SymbolTable.mem_of_resolve {table : SymbolTable} {x : NodeId} {symbol : Symbol}
    (h : table.resolve x = some symbol) : symbol ∈ table.symbols := by
  obtain ⟨id, _, hid⟩ := Option.bind_eq_some_iff.1 h
  exact Array.mem_of_getElem? hid

/-- Whether all faults of a computation are of a certain kind. -/
def FailsOnly {α : Type} (P : Fault → Prop) (r : Except Fault α) : Prop := ∀ e, r = .error e → P e

namespace FailsOnly

variable {α β : Type} {P : Fault → Prop} {x : Except Fault α} {f : α → Except Fault β}

theorem ok (a : α) : FailsOnly P (.ok a) := by
  intro e h
  cases h

theorem of_exists (h : ∃ a, x = .ok a) : FailsOnly P x := by
  obtain ⟨a, rfl⟩ := h
  exact ok a

theorem bind (hx : FailsOnly P x) (hf : ∀ a, x = .ok a → FailsOnly P (f a)) :
    FailsOnly P (x >>= f) := by
  cases x with
  | error e =>
    intro e' h
    cases h
    exact hx e rfl
  | ok a => exact hf a rfl

/-- A computation with nothing to go wrong gives a result. -/
theorem exists_ok (hx : FailsOnly P x) (hP : ∀ e, ¬P e) : ∃ a, x = .ok a := by
  cases x with
  | error e => exact absurd (hx e rfl) (hP e)
  | ok a => exact ⟨a, rfl⟩

end FailsOnly

namespace Evaluator

variable {ev : Evaluator} {D : NodeId → Prop} {rank : NodeId → Nat} {limit : Nat} {id : NodeId}

/-- The fault of being sent to a declaration that is not there. -/
def Misled (ev : Evaluator) (e : Fault) : Prop := e ≠ .endless ∧ ¬ev.symbolAt.Within ev.tree

/-! ## 2. Looking at one node -/

theorem failsOnly_isUse (hc : ev.tree.Closed D) (hid : ev.tree.Inside D id) :
    FailsOnly ev.Misled (ev.isUse id) := by
  obtain ⟨n, hn⟩ := exists_get? hid.2
  unfold isUse
  split
  · exact .ok _
  · rw [bind_of_ok _ (parent_of_get? hn)]
    cases hp : n.parent with
    | none => exact .ok _
    | some p =>
      obtain ⟨k, hk⟩ := exists_get? (hc.parents id n p hid.1 hn hp).2
      refine .bind ?_ fun _ _ => .ok _
      unfold Tree.isDeclarationName
      rw [bind_of_ok _ (parent_of_get? hn), hp]
      refine .bind (x := ev.tree.shape p) ?_ fun s _ => ?_
      · rw [shape_of_get? hk]
        exact .ok _
      · split <;> exact .ok _

theorem failsOnly_initializer? (hc : ev.tree.Closed D) {d : NodeId} (hd : ev.tree.Inside D d) :
    FailsOnly ev.Misled (ev.initializer? d) := by
  obtain ⟨n, hn⟩ := exists_get? hd.2
  unfold initializer?
  rw [bind_of_ok _ (shape_of_get? hn)]
  split
  · rw [bind_of_ok _ (parent_of_get? hn)]
    split
    · exact .ok _
    · rename_i list hp
      obtain ⟨k, hk⟩ := exists_get? (hc.parents d n list hd.1 hn hp).2
      rw [bind_of_ok _ (shape_of_get? hk)]
      split <;> exact .ok _
  · exact .ok _

/-- A symbol may name a declaration that is not there; nothing else goes
wrong. -/
theorem failsOnly_constant? (hc : ev.tree.Closed D) (hk : ev.symbolAt.Keeps D) :
    FailsOnly ev.Misled (ev.constant? id) := by
  unfold constant?
  split
  · exact .ok _
  · rename_i symbol hs
    split
    · split
      · exact .ok _
      · rename_i d hd
        by_cases hlt : d.index < ev.tree.size
        · exact .bind (failsOnly_initializer? hc ⟨hk id symbol d hs hd, hlt⟩) fun _ _ => .ok _
        · have hnode : ev.tree.shape d = .error (.noSuchNode d) := by
            unfold Tree.shape Tree.node
            rw [Array.getElem?_eq_none (Nat.not_lt.1 hlt)]
            rfl
          intro e he
          unfold initializer? at he
          rw [hnode] at he
          cases he
          exact ⟨by simp, fun hw => hlt (hw id symbol d hs hd)⟩
    · exact .ok _

/-- The declaration of a constant belongs to the domain, and so does its
initializer. -/
theorem inside_of_constant? (hc : ev.tree.Closed D) (hk : ev.symbolAt.Keeps D)
    {d i : NodeId} (h : ev.constant? id = .ok (some (d, i))) :
    ev.tree.Inside D d ∧ ev.tree.Inside D i := by
  obtain ⟨symbol, hs, _, hd, hi⟩ := constant?_eq_some.1 h
  have hD := hk id symbol d hs hd
  unfold initializer? at hi
  obtain ⟨s, hs, hi⟩ := bind_eq_ok.1 hi
  obtain ⟨n, hn, rfl⟩ := shape_eq_ok.1 hs
  split at hi
  · rename_i name init hshape
    obtain ⟨p, hp, hi⟩ := bind_eq_ok.1 hi
    split at hi
    · cases hi
    · obtain ⟨l, hl, hi⟩ := bind_eq_ok.1 hi
      split at hi
      · cases hi
        exact ⟨⟨hD, lt_size_of_get? hn⟩, hc.children d i hD ⟨n, hn, by simp [hshape]⟩⟩
      · cases hi
  · cases hi

/-! ## 3. Descents -/

/-- A list of different declarations leaves room for one more that is not
among them. -/
theorem length_lt_size {marked : List NodeId} {d : NodeId} (hnodup : marked.Nodup)
    (hlt : ∀ x ∈ marked, x.index < ev.tree.size) (hd : d.index < ev.tree.size)
    (hnew : d ∉ marked) : marked.length < ev.tree.size := by
  refine length_le_size (List.nodup_cons.2 ⟨hnew, hnodup⟩) fun x hx => ?_
  rcases List.mem_cons.1 hx with rfl | hx
  · exact hd
  · exact hlt x hx

/-- The steps a descent may still take: as many as there are ranks for each
declaration that is not marked yet, and then those below the node. -/
def need (ev : Evaluator) (rank : NodeId → Nat) (limit : Nat) (marked : List NodeId)
    (id : NodeId) : Nat :=
  (ev.tree.size - marked.length) * (limit + 1) + rank id

theorem need_lt_of_marked (hg : ev.tree.Graded D rank limit) {marked : List NodeId} {d i : NodeId}
    (h : marked.length < ev.tree.size) :
    ev.need rank limit (d :: marked) i < ev.need rank limit marked id := by
  unfold need
  have hi := hg.rank_le i
  obtain ⟨k, hk⟩ : ∃ k, ev.tree.size - marked.length = k + 1 :=
    ⟨ev.tree.size - marked.length - 1, by omega⟩
  rw [List.length_cons, hk, show ev.tree.size - (marked.length + 1) = k by omega, Nat.succ_mul]
  omega

theorem failsOnly_evalWithin (hg : ev.tree.Graded D rank limit) (hk : ev.symbolAt.Keeps D)
    {depth : Nat} {marked : List NodeId} (hnodup : marked.Nodup)
    (hmarked : ∀ x ∈ marked, x.index < ev.tree.size) (hid : ev.tree.Inside D id)
    (hdepth : ev.need rank limit marked id < depth) :
    FailsOnly ev.Misled (ev.evalWithin depth marked id) := by
  induction depth generalizing marked id with
  | zero => omega
  | succ depth ih =>
    have hchild : ∀ c, ev.tree.Holds id c → FailsOnly ev.Misled (ev.evalWithin depth marked c) := by
      intro c hc
      have hlt := hg.descends id c hid.1 hc
      refine ih hnodup hmarked (hg.children id c hid.1 hc) ?_
      unfold need at hdepth ⊢
      omega
    obtain ⟨n, hn⟩ := exists_get? hid.2
    rw [evalWithin, bind_of_ok _ (shape_of_get? hn)]
    split
    · exact .ok _
    · rename_i a hs
      exact .bind (hchild a ⟨n, hn, by simp [hs]⟩) fun _ _ => .ok _
    · rename_i a op b hs
      refine .bind (hchild a ⟨n, hn, by simp [hs]⟩) fun l _ => ?_
      split
      · exact .ok _
      · split
        · exact .ok _
        · exact .bind (hchild b ⟨n, hn, by simp [hs]⟩) fun _ _ => .ok _
    · unfold resolveWith
      refine .bind (failsOnly_isUse hg.toClosed hid) fun use _ => ?_
      split
      · refine .bind (failsOnly_constant? hg.toClosed hk) fun c hc => ?_
        split
        · exact .ok _
        · rename_i d i
          obtain ⟨hd, hi⟩ := inside_of_constant? hg.toClosed hk hc
          split
          · exact .ok _
          · rename_i hnew
            have hnew' : d ∉ marked := by simpa using hnew
            refine .bind (ih (List.nodup_cons.2 ⟨hnew', hnodup⟩) ?_ hi ?_) fun _ _ => .ok _
            · intro x hx
              rcases List.mem_cons.1 hx with rfl | hx
              · exact hd.2
              · exact hmarked x hx
            · have := @need_lt_of_marked ev D rank limit id hg marked d i
                (length_lt_size hnodup hmarked hd.2 hnew')
              omega
      · exact .ok _
    · exact .ok _

/-! ## 4. Evaluations -/

theorem need_lt_depthLimit (hg : ev.tree.Graded D rank limit) (id : NodeId) :
    ev.need rank limit [] id < ev.depthLimit := by
  unfold need depthLimit
  have hrank := hg.rank_le id
  have hlimit := hg.limit_le
  have hmul := Nat.mul_le_mul_left ev.tree.size (Nat.succ_le_succ hlimit)
  simp only [List.length_nil, Nat.sub_zero, Nat.succ_mul, Nat.mul_succ] at hmul ⊢
  omega

/-- Evaluation ends; at worst it is sent to a declaration that is not there. -/
theorem failsOnly_evaluate (hg : ev.tree.Graded D rank limit) (hk : ev.symbolAt.Keeps D)
    (hid : ev.tree.Inside D id) : FailsOnly ev.Misled (ev.evaluate id) :=
  failsOnly_evalWithin hg hk List.nodup_nil (fun _ h => by cases h) hid (need_lt_depthLimit hg id)

theorem failsOnly_resolve (hg : ev.tree.Graded D rank limit) (hk : ev.symbolAt.Keeps D)
    (hid : ev.tree.Inside D id) : FailsOnly ev.Misled (ev.resolve id) := by
  unfold resolve resolveWith
  refine .bind (failsOnly_isUse hg.toClosed hid) fun use _ => ?_
  split
  · refine .bind (failsOnly_constant? hg.toClosed hk) fun c hc => ?_
    split
    · exact .ok _
    · rename_i d i
      obtain ⟨hd, hi⟩ := inside_of_constant? hg.toClosed hk hc
      refine .bind (failsOnly_evalWithin hg hk (List.nodup_singleton d) ?_ hi ?_) fun _ _ => .ok _
      · intro x hx
        rw [List.mem_singleton.1 hx]
        exact hd.2
      · have := hd.2
        exact Nat.lt_trans (@need_lt_of_marked ev D rank limit id hg [] d i (by simp; omega))
          (need_lt_depthLimit hg id)
  · exact .ok _

end Evaluator

end ScriptReduce
