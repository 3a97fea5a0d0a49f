/-
ScriptReduce.Proofs.Reduce.Values: optimizing keeps the values of expressions.

An expression that is not folded may have parts that are, and its value is
then found from their literals. `Kept` is what holds of the tree and the
journal throughout the runs of an optimizer: as long as the journal tells of
no negative zero, the tree is faithful to the tree at the start. So in the end
each place for an expression has an occupant of the value that it had
(`optimize_keeps_values`).

Negative zero is the exception. Its literal is that of zero, and one divided
by the one is not one divided by the other.
-/
import ScriptReduce.Proofs.Reduce.Run

namespace ScriptReduce

open ScriptReduce.Tree

variable {st : Setting} {t t' t₀ : Tree} {c c' : Context} {changed : Bool}
  {symbolAt : Resolver}

/-! ## 1. Places for expressions -/

/-- The children that stand where expressions are evaluated, with their
places. -/
def Shape.expressions {α : Type} (s : Shape α) : List (Place × α) :=
  s.spots.filter fun e => e.1.isExpression

theorem Shape.expressions_eq {α : Type} (s : Shape α) :
    s.expressions = s.firm.filter fun e => e.1.isExpression := by
  unfold expressions firm
  rw [List.filter_filter]
  refine List.filter_congr fun e _ => ?_
  cases h : e.1.isExpression with
  | false => rfl
  | true => simp [Place.isStatement_eq_false_of_isExpression h]

/-- In a tree that agrees with another each place for an expression has an
occupant of the same value. -/
theorem Faithful.expressions (h : Faithful st t₀ t) {x : NodeId} {n₀ n : Node}
    (hn₀ : t₀.get? x = some n₀) (hn : t.get? x = some n) :
    List.Forall₂ (fun e₀ e => e.1 = e₀.1 ∧
      ∀ v, (st.evaluator t).Yields e.2 v ↔ (st.evaluator t₀).Yields e₀.2 v)
      n₀.shape.expressions n.shape.expressions := by
  rw [Shape.expressions_eq, Shape.expressions_eq]
  refine List.rel_filter ?_ (h.occupants x n₀ n hn₀ hn).flip
  rintro e₀ e ⟨hplace, _⟩
  simp [hplace]

theorem lt_size_of_expression {D : NodeId → Prop} (hc : t.Closed D) {x : NodeId} {n : Node}
    (hD : D x) (hn : t.get? x = some n) {e : Place × NodeId} (he : e ∈ n.shape.expressions) :
    t.Inside D e.2 := by
  have hspot := (List.mem_filter.1 he).1
  exact hc.children x e.2 hD ⟨n, hn, Shape.mem_children_of_mem_spots hspot⟩

/-! ## 2. Throughout an optimization -/

/-- What holds between the runs: the tree agrees with the tree at the start,
unless a negative zero was folded. -/
structure Kept (st : Setting) (t₀ t : Tree) (c : Context) : Prop where
  setting : c.setting = st
  size : t₀.size ≤ t.size
  term : ∃ parent T, t.Presents parent T
  faithful : (∀ change ∈ c.changes, change.Safe) → Faithful st t₀ t

namespace Kept

theorem start (h : t₀.WellFormed) (hset : c.setting = st) : Kept st t₀ t₀ c where
  setting := hset
  size := Nat.le_refl _
  term := h.exists_presents
  faithful _ := .refl st h

theorem warn (h : Kept st t₀ t c) (warning : Warning) : Kept st t₀ t (c.warn warning) :=
  ⟨h.setting, h.size, h.term, h.faithful⟩

theorem foldConstants (h : Kept st t₀ t c) (hrun : foldConstants t c = .ok (changed, t', c')) :
    Kept st t₀ t' c' := by
  obtain ⟨parent, T, hT⟩ := h.term
  obtain ⟨T', news, hran, hguide⟩ :=
    foldConstants_presents (faithfulGuide st t₀) h.setting h.size hT hrun
  refine ⟨hran.follows.setting.trans h.setting, Nat.le_trans h.size hran.size,
    ⟨parent, T', hran.presents⟩, fun hsafe => ?_⟩
  rw [hran.follows.changes] at hsafe
  refine (hguide (h.faithful fun change hchange => ?_) fun change hchange => ?_).1
  · exact hsafe change (List.mem_append_right _ hchange)
  · exact hsafe change (List.mem_append_left _ hchange)

theorem optimizeIn (h : Kept st t₀ t c) (hrun : optimizeIn t c = .ok (changed, t', c')) :
    Kept st t₀ t' c' :=
  optimizeIn_keeps (fun h => h.foldConstants) (fun warning h => h.warn warning) h hrun

end Kept

/-! ## 3. Values before and after -/

/-- Expressions of the same value by the rules are evaluated to the same. -/
theorem Evaluator.evaluate_agree {ev ev' : Evaluator} {rank rank' : NodeId → Nat}
    {limit limit' : Nat} (hg : ev.tree.Graded Everywhere rank limit)
    (hg' : ev'.tree.Graded Everywhere rank' limit') (hw : ev.symbolAt.Within ev.tree)
    (hw' : ev'.symbolAt.Within ev'.tree) {x x' : NodeId} (hx : x.index < ev.tree.size)
    (hx' : x'.index < ev'.tree.size) (h : ∀ v, ev'.Yields x' v ↔ ev.Yields x v) :
    ∃ o o', ev.evaluate x = .ok o ∧ ev'.evaluate x' = .ok o' ∧ o'.value = o.value := by
  obtain ⟨o, ho⟩ := (failsOnly_evaluate hg ev.symbolAt.keeps_everywhere ⟨trivial, hx⟩).exists_ok
    fun e he => he.2 hw
  obtain ⟨o', ho'⟩ :=
    (failsOnly_evaluate hg' ev'.symbolAt.keeps_everywhere ⟨trivial, hx'⟩).exists_ok
      fun e he => he.2 hw'
  refine ⟨o, o', ho, ho', Option.ext fun v => ?_⟩
  rw [evaluate_value_iff ho, evaluate_value_iff ho']
  exact h v

/-- Optimizing a well-formed tree keeps the value of each place for an
expression, if no literal that it installs stands for negative zero: what
stands there afterwards is evaluated to the same as what stood there before. -/
theorem optimize_keeps_values (h : t.WellFormed) (hw : symbolAt.Within t) (options : Options) :
    ∃ t' c', optimize t symbolAt options = .ok (t', c') ∧
      ((∀ change ∈ c'.changes, change.Safe) → ∀ x n, t.get? x = some n →
        ∃ n', t'.get? x = some n' ∧ List.Forall₂ (fun e e' => e'.1 = e.1 ∧
          ∃ o o', (⟨t, symbolAt, options.propagate⟩ : Evaluator).evaluate e.2 = .ok o ∧
            (⟨t', symbolAt, options.propagate⟩ : Evaluator).evaluate e'.2 = .ok o' ∧
            o'.value = o.value)
          n.shape.expressions n'.shape.expressions) := by
  obtain ⟨t', c', hopt⟩ := h.exists_optimize hw options
  refine ⟨t', c', hopt, fun hsafe x n hn => ?_⟩
  obtain ⟨changed, hrun⟩ := optimize_eq_ok.1 hopt
  have hkept : Kept ⟨symbolAt, options⟩ t t' c' := (Kept.start h rfl).optimizeIn hrun
  have hfaithful := hkept.faithful hsafe
  obtain ⟨n', hn', _⟩ := hfaithful.kind x n hn
  refine ⟨n', hn', ?_⟩
  have hinside : ∀ e ∈ n.shape.expressions, t.Inside Everywhere e.2 := fun e he =>
    lt_size_of_expression h.closed trivial hn he
  have hinside' : ∀ e ∈ n'.shape.expressions, t'.Inside Everywhere e.2 := fun e he =>
    lt_size_of_expression hfaithful.graded.toClosed trivial hn' he
  refine ((List.forall₂_and_left _ _).2 ⟨hinside, ((List.forall₂_and_left _ _).2
    ⟨hinside', (hfaithful.expressions hn hn').flip⟩).flip⟩).imp ?_
  rintro e e' ⟨he, he', hplace, hvalue⟩
  refine ⟨hplace, ?_⟩
  exact Evaluator.evaluate_agree h.graded hfaithful.graded hw (hw.mono hkept.size) he.2 he'.2 hvalue

theorem optimize_keeps_values_sample :
    ∃ t' c', optimize Sample.tree Sample.symbols.resolve Sample.options = .ok (t', c') ∧
      ∀ x n, Sample.tree.get? x = some n →
        ∃ n', t'.get? x = some n' ∧ List.Forall₂ (fun e e' => e'.1 = e.1 ∧
          ∃ o o', (⟨Sample.tree, Sample.symbols.resolve, true⟩ : Evaluator).evaluate e.2 = .ok o ∧
            (⟨t', Sample.symbols.resolve, true⟩ : Evaluator).evaluate e'.2 = .ok o' ∧
            o'.value = o.value)
          n.shape.expressions n'.shape.expressions := by
  obtain ⟨t', c', hopt, hvalues⟩ := optimize_keeps_values Sample.tree_wellFormed
    Sample.symbols_within Sample.options
  exact ⟨t', c', hopt, hvalues (Sample.optimize_safe hopt)⟩

namespace Sample

/-- The program `1 / (0 * (0 - 1));`. -/
def quotient : Tree where
  nodes := #[
    ⟨.literal (.numeric "1"), some ⟨6⟩, none⟩,
    ⟨.literal (.numeric "0"), some ⟨5⟩, none⟩,
    ⟨.literal (.numeric "0"), some ⟨4⟩, none⟩,
    ⟨.literal (.numeric "1"), some ⟨4⟩, none⟩,
    ⟨.binary ⟨2⟩ .minus ⟨3⟩, some ⟨5⟩, none⟩,
    ⟨.binary ⟨1⟩ .times ⟨4⟩, some ⟨6⟩, none⟩,
    ⟨.binary ⟨0⟩ .divide ⟨5⟩, some ⟨7⟩, none⟩,
    ⟨.expressionStatement ⟨6⟩, some ⟨8⟩, none⟩,
    ⟨.sourceFile [⟨7⟩], none, none⟩]
  root := some ⟨8⟩

/-- The expression of the program is kept, and reachable before and after. But
the negative zero that it divides by becomes zero, and with it the value turns
from negative to positive infinity. -/
theorem quotient_changes :
    quotient.WellFormed ∧ Resolver.Within (fun _ => none) quotient ∧
      quotient.Reaches ⟨8⟩ ⟨7⟩ ∧
      ∃ t' c' o o', optimize quotient (fun _ => none) options = .ok (t', c') ∧
        t'.root = some ⟨8⟩ ∧ t'.Reaches ⟨8⟩ ⟨7⟩ ∧
        quotient.shape ⟨7⟩ = .ok (.expressionStatement ⟨6⟩) ∧
        t'.shape ⟨7⟩ = .ok (.expressionStatement ⟨6⟩) ∧
        (⟨quotient, fun _ => none, options.propagate⟩ : Evaluator).evaluate ⟨6⟩ = .ok o ∧
        (⟨t', fun _ => none, options.propagate⟩ : Evaluator).evaluate ⟨6⟩ = .ok o' ∧
        o.value = some (.number (Binary64.ofMagnitude true Binary64.infinity)) ∧
        o'.value = some (.number (Binary64.ofMagnitude false Binary64.infinity)) ∧
        o'.value ≠ o.value := by
  have hholds : ∀ {u : Tree}, u.shape ⟨8⟩ = .ok (.sourceFile [⟨7⟩]) → u.Reaches ⟨8⟩ ⟨7⟩ := by
    intro u hu
    obtain ⟨n, hn, hs⟩ := shape_eq_ok.1 hu
    exact .single ⟨n, hn, by simp [hs]⟩
  have hbefore : ((⟨quotient, fun _ => none, options.propagate⟩ : Evaluator).evaluate ⟨6⟩).map
      Outcome.value = .ok (some (.number (Binary64.ofMagnitude true Binary64.infinity))) := by
    decide +kernel
  have hafter : (optimize quotient (fun _ => none) options).map (fun result => decide (
      result.1.root = some ⟨8⟩ ∧ result.1.shape ⟨8⟩ = .ok (.sourceFile [⟨7⟩]) ∧
      result.1.shape ⟨7⟩ = .ok (.expressionStatement ⟨6⟩) ∧
      ((⟨result.1, fun _ => none, options.propagate⟩ : Evaluator).evaluate ⟨6⟩).map Outcome.value
        = .ok (some (.number (Binary64.ofMagnitude false Binary64.infinity))))) = .ok true := by
    decide +kernel
  obtain ⟨⟨t', c'⟩, hopt, hafter⟩ := map_eq_ok.1 hafter
  obtain ⟨hroot, hfile, hslot, hvalue'⟩ := of_decide_eq_true hafter
  obtain ⟨o, ho, hvalue⟩ := map_eq_ok.1 hbefore
  obtain ⟨o', ho', hvalue'⟩ := map_eq_ok.1 hvalue'
  have hwithin : Resolver.Within (fun _ => none) quotient := by
    intro x symbol d h
    cases h
  have hbuilt : quotient.Built := ⟨by decide +kernel, by decide +kernel, by decide +kernel,
    by decide +kernel, by decide +kernel, by decide +kernel⟩
  refine ⟨hbuilt.wellFormed, hwithin, hholds rfl, t', c', o, o', hopt, hroot, hholds hfile, rfl,
    hslot, ho, ho', hvalue, hvalue', ?_⟩
  rw [hvalue, hvalue']
  decide +kernel

end Sample

end ScriptReduce
