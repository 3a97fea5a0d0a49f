/-
ScriptReduce.Proofs.Reduce.Signs: how signs come together.

A sign is kept apart from a sign in its operand by the parentheses around binary expressions.
When such an expression is folded to a negative number, the parentheses go with it, and the
literal begins with a minus: `-(0 - 1)` becomes `--1` (`optimize_glues_signs`). Nothing else that
is folded begins with a sign, and all other nodes are spelled as before, so this is essentially the
only way in which signs are glued together (`optimize_keeps_signs_apart`).
-/
import ScriptReduce.Proofs.Reduce.Openings
import ScriptReduce.Proofs.Reduce.Values

namespace ScriptReduce

open ScriptReduce.Tree Relation Text

variable {st : Setting} {D : NodeId → Prop} {rank : NodeId → Nat} {t t' : Tree}
  {changes : List Change} {r z : NodeId}

/-! ## 1. Signs side by side -/

/-- Whether a minus comes to stand in front of a negative number: what stood first in its operand
was folded to the number. -/
def Negates (t t' : Tree) (changes : List Change) (m : NodeId) : Prop :=
  ∃ n ℓ x, .folded n ℓ (.number x) ∈ changes ∧ x < 0 ∧ t.Heads .minus m n ∧
    t'.Behind .minus m ℓ

/-- Whether the operand of a sign begins with a source file whose first statement, an `if`, has
given way. -/
def Exposes (t : Tree) (changes : List Change) (m : NodeId) : Prop :=
  ∃ op c f b rest, op.sign? = some c ∧ t.Behind op m f ∧
    t.shape f = .ok (.sourceFile (b :: rest)) ∧ Decided t changes b

section

variable {p p' : Option NodeId} {T T' : Term NodeId} {m : NodeId}

theorem Negates.glued (h : Steps st D t changes t') (hT' : t'.Presents p' T')
    (hm : t'.Reaches T'.label m) (hneg : Negates t t' changes m) : t'.Glued m := by
  obtain ⟨n, ℓ, x, hmem, hx, -, hbehind⟩ := hneg
  obtain ⟨-, l, hl, hs⟩ := h.shape_literal hmem
  have hc : IsSign '-' := .inl rfl
  have hhead := (Value.head?_print_iff hl hc).2 ⟨rfl, x, rfl, hx⟩
  exact (hT'.shows.glued_iff hT'.nodup hm).2 ⟨.minus, '-', ℓ, _, rfl, hbehind, hs, hhead⟩

/-- There is no other way in which signs that were apart come together. -/
theorem Steps.glued_cases (h : Steps st D t changes t') (ht : t.WellFormed)
    (hT : t.Presents p T) (hT' : t'.Presents p' T') (hroot : T'.label = T.label)
    (hapart : t.SignsApart T.label) (hm : t'.Reaches T.label m) (hglued : t'.Glued m) :
    Negates t t' changes m ∨ Exposes t changes m := by
  have hg := ht.graded
  obtain ⟨op, c, z, s', hop, hbehind, hs', hhead⟩ :=
    (hT'.shows.glued_iff hT'.nodup (hroot ▸ hm)).1 hglued
  have hc := (UnaryOperator.sign?_eq_some.1 hop).1
  rcases h.behind hg hbehind with ⟨hlt, hbefore⟩ | ⟨n, v, hheads, hmem⟩ | ⟨b, hb, hdecided⟩
  · -- then the sign was glued at the start
    have hmt : t.Reaches T.label m := by
      obtain ⟨a, hshape, -⟩ := hbefore
      exact h.reaches_of_reaches (lt_size_of_shape hshape) hm
    obtain ⟨s, hs, hspelling⟩ := h.grows.exists_spelling hlt hs'
    refine absurd ((hT.shows.glued_iff hT.nodup hmt).2 ?_) (hapart m hmt)
    exact ⟨op, c, z, s, hop, hbefore, hs, hspelling ▸ hhead⟩
  · obtain ⟨-, l, hl, hs⟩ := h.shape_literal hmem
    rw [hs', Except.ok.injEq] at hs
    rw [hs] at hhead
    obtain ⟨rfl, x, rfl, hx⟩ := (Value.head?_print_iff hl hc).1 hhead
    obtain rfl : op = .minus := by
      cases op <;> simp_all [UnaryOperator.sign?]
    exact .inl ⟨n, z, x, hmem, hx, hheads, hbehind⟩
  · obtain ⟨f, rest, hf, hfile⟩ := ht.exists_file hb hdecided.1
    exact .inr ⟨op, c, f, b, rest, hop, hf, hfile, hdecided⟩

/-- In either case something has given way that stood first in the operand of a sign. -/
theorem Steps.exists_givesWay (h : Steps st D t changes t')
    (hg : t.Graded Everywhere rank t.size)
    (hm : Negates t t' changes m ∨ Exposes t changes m) :
    ∃ op c n, op.sign? = some c ∧ t.Heads op m n ∧ t.GivesWay st.options n := by
  rcases hm with ⟨n, ℓ, x, hmem, -, hheads, -⟩ | ⟨op, c, f, b, rest, hop, hf, hfile, -, hmem⟩
  · exact ⟨.minus, '-', n, rfl, hheads, h.givesWay hg _ hmem⟩
  · obtain ⟨a, hm, hbinary, hopens⟩ := hf
    obtain ⟨change, hchange, rfl⟩ := hmem
    have hstarts : t.Starts f change.node := ⟨_, hfile, rfl⟩
    exact ⟨op, c, change.node, hop, ⟨a, hm, .inr ⟨hbinary, f, hopens, hstarts⟩⟩,
      h.givesWay hg change hchange⟩

/-- Where signs are apart before and after, two in a row were there before, or they are part of a
string that something was folded to. -/
theorem Steps.repeats_cases (h : Steps st D t changes t') (hg : t.Graded Everywhere rank t.size)
    (hT : t.Presents p T) (hT' : t'.Presents p' T') (hroot : T'.label = T.label)
    (hapart : t.SignsApart T.label) (hapart' : t'.SignsApart T.label) {c : Char} (hc : IsSign c)
    (hrepeats : Repeats c T'.text) :
    Repeats c T.text ∨
      ∃ n ℓ s, .folded n ℓ (.string s) ∈ changes ∧ t'.Reaches T.label ℓ ∧ Repeats c s.toList := by
  obtain ⟨z, s', hz, hs', hown⟩ :=
    (hT'.shows.repeats_iff hT'.nodup (hroot ▸ hapart') hc 0).1 hrepeats
  rw [hroot] at hz
  by_cases hlt : z.index < t.size
  · obtain ⟨s, hs, hspelling⟩ := h.grows.exists_spelling hlt hs'
    exact .inl ((hT.shows.repeats_iff hT.nodup hapart hc 0).2
      ⟨z, s, h.reaches_of_reaches hlt hz, hs, hspelling ▸ hown⟩)
  · have hnew : t.size ≤ z.index := Nat.not_lt.1 hlt
    obtain ⟨k, hk, rfl⟩ := shape_eq_ok.1 hs'
    rcases (h.graded hg).leaf z k hnew hk with ⟨l, hl⟩ | hempty
    · rcases ReflTransGen.cases_tail hz with rfl | ⟨y, -, hholds⟩
      · exact absurd (hT.shows.lt_size _ T.label_mem_labels) hlt
      · rw [hl] at hs' hown
        obtain ⟨n, v, hmem⟩ := h.exists_folded hg hholds hnew hs'
        obtain ⟨-, l', hl', hs⟩ := h.shape_literal hmem
        rw [hs', Except.ok.injEq] at hs
        cases hs
        obtain ⟨s, rfl, hs⟩ := (Value.repeats_print_iff hl' hc).1 hown
        exact .inr ⟨n, z, s, hmem, hz, hs⟩
    · rw [hempty] at hown
      exact absurd hown (not_repeats_nil c)

end

/-! ## 2. Optimizations -/

theorem Tree.Presents.print_eq {p : Option NodeId} {T : Term NodeId} (h : t.Presents p T) :
    t.print = .ok (String.ofList T.text) := by
  unfold Tree.print
  rw [h.root]
  exact printNode_eq h.term_eq

/-- Signs that are apart before an optimization may come together. A sign is glued to its operand
afterwards if it is a minus and what stood first in its operand was folded to a negative number;
the only other way is that an `if` statement gave way at the front of a source file that begins
the operand. If neither happens, signs are apart afterwards; so they are if nothing that stands
first in the operand of a sign can give way. Then two signs in a row in the text were there
before, or they are part of a string that something was folded to. There is a result, unless a
symbol names a declaration that is no node of the tree. -/
theorem optimize_keeps_signs_apart (h : t.WellFormed) (hr : t.root = some r)
    (hapart : t.SignsApart r) (symbolAt : Resolver) (options : Options) :
    (symbolAt.Within t → ∃ t' c', optimize t symbolAt options = .ok (t', c')) ∧
    ∀ t' c', optimize t symbolAt options = .ok (t', c') →
      (∀ m, t'.Reaches r m →
        (Negates t t' c'.changes m → t'.Glued m) ∧
        (t'.Glued m → Negates t t' c'.changes m ∨ Exposes t c'.changes m)) ∧
      ((∀ m, t'.Reaches r m → ¬Negates t t' c'.changes m ∧ ¬Exposes t c'.changes m) →
        t'.SignsApart r) ∧
      ((∀ op c m n, op.sign? = some c → t.Reaches r m → t.Heads op m n →
        ¬t.GivesWay options n) → t'.SignsApart r) ∧
      (t'.SignsApart r → ∃ before after, t.print = .ok before ∧ t'.print = .ok after ∧
        ∀ c, IsSign c → Repeats c after.toList → Repeats c before.toList ∨
          ∃ n ℓ s, .folded n ℓ (.string s) ∈ c'.changes ∧ t'.Reaches r ℓ ∧ Repeats c s.toList) := by
  refine ⟨fun hw => h.exists_optimize hw options, fun t' c' hrun => ?_⟩
  have hsteps := optimize_steps h.graded t.encloses_everywhere
    (fun _ => inside_of_root h.root) hrun
  obtain ⟨changed, hrunIn⟩ := optimize_eq_ok.1 hrun
  obtain ⟨p, T, hT⟩ := h.exists_presents
  have hkept : Kept ⟨symbolAt, options⟩ t t' c' := (Kept.start h rfl).optimizeIn hrunIn
  obtain ⟨p', T', hT'⟩ := hkept.term
  obtain rfl : T.label = r := Option.some.inj (hT.root.symm.trans hr)
  have hroot : T'.label = T.label := by
    have heq := hT'.root
    rw [hsteps.grows.root, hT.root] at heq
    exact (Option.some.inj heq).symm
  have hcases : ∀ m, t'.Reaches T.label m → t'.Glued m →
      Negates t t' c'.changes m ∨ Exposes t c'.changes m := fun m hm =>
    hsteps.glued_cases h hT hT' hroot hapart hm
  refine ⟨fun m hm => ⟨Negates.glued hsteps hT' (hroot ▸ hm), hcases m hm⟩,
    fun hnone m hm hglued => ?_, fun hfixed m hm hglued => ?_,
    fun hapart' => ⟨_, _, hT.print_eq, hT'.print_eq, fun c hc hrepeats => ?_⟩⟩
  · exact (hcases m hm hglued).elim (hnone m hm).1 (hnone m hm).2
  · obtain ⟨op, c, n, hop, hheads, hgives⟩ :=
      hsteps.exists_givesWay h.graded (hcases m hm hglued)
    have hlt : m.index < t.size := by
      obtain ⟨a, hshape, -⟩ := hheads
      exact lt_size_of_shape hshape
    exact hfixed op c m n hop (hsteps.reaches_of_reaches hlt hm) hheads hgives
  · rw [String.toList_ofList] at hrepeats ⊢
    exact hsteps.repeats_cases h.graded hT hT' hroot hapart hapart' hc hrepeats

/-! ## 3. Two programs -/

namespace Sample

/-- The program `-(0 - 1);`. -/
def difference : Tree where
  nodes := #[
    ⟨.literal (.numeric "0"), some ⟨2⟩, none⟩,
    ⟨.literal (.numeric "1"), some ⟨2⟩, none⟩,
    ⟨.binary ⟨0⟩ .minus ⟨1⟩, some ⟨3⟩, none⟩,
    ⟨.unary .minus ⟨2⟩, some ⟨4⟩, none⟩,
    ⟨.expressionStatement ⟨3⟩, some ⟨5⟩, none⟩,
    ⟨.sourceFile [⟨4⟩], none, none⟩]
  root := some ⟨5⟩

/-- The program `-(1 + 2);`. -/
def sum : Tree where
  nodes := #[
    ⟨.literal (.numeric "1"), some ⟨2⟩, none⟩,
    ⟨.literal (.numeric "2"), some ⟨2⟩, none⟩,
    ⟨.binary ⟨0⟩ .plus ⟨1⟩, some ⟨3⟩, none⟩,
    ⟨.unary .minus ⟨2⟩, some ⟨4⟩, none⟩,
    ⟨.expressionStatement ⟨3⟩, some ⟨5⟩, none⟩,
    ⟨.sourceFile [⟨4⟩], none, none⟩]
  root := some ⟨5⟩

theorem difference_wellFormed : difference.WellFormed :=
  Built.wellFormed ⟨by decide +kernel, by decide +kernel, by decide +kernel, by decide +kernel,
    by decide +kernel, by decide +kernel⟩

theorem sum_wellFormed : sum.WellFormed :=
  Built.wellFormed ⟨by decide +kernel, by decide +kernel, by decide +kernel, by decide +kernel,
    by decide +kernel, by decide +kernel⟩

theorem difference_signsApart : difference.SignsApart ⟨5⟩ :=
  signsApart_of_forall (by decide +kernel) _

theorem sum_signsApart : sum.SignsApart ⟨5⟩ := signsApart_of_forall (by decide +kernel) _

/-- The difference is folded to a negative number. -/
theorem exists_difference :
    ∃ t' c', optimize difference (fun _ => none) options = .ok (t', c') ∧
      c'.changes = [.folded ⟨2⟩ ⟨6⟩ (.number (-1))] ∧
      t'.shape ⟨3⟩ = .ok (.unary .minus ⟨6⟩) ∧ t'.shape ⟨6⟩ = .ok (.literal (.numeric "-1")) ∧
      t'.root = some ⟨5⟩ ∧ t'.Reaches ⟨5⟩ ⟨3⟩ ∧ t'.Glued ⟨3⟩ ∧ t'.print = .ok "--1;\n" := by
  have hrun : (optimize difference (fun _ => none) options).map (fun result => decide (
      result.2.changes = [.folded ⟨2⟩ ⟨6⟩ (.number (-1))] ∧
      result.1.shape ⟨3⟩ = .ok (.unary .minus ⟨6⟩) ∧
      result.1.shape ⟨6⟩ = .ok (.literal (.numeric "-1")) ∧
      result.1.root = some ⟨5⟩ ∧ List.IsChain result.1.Holds [⟨5⟩, ⟨4⟩, ⟨3⟩] ∧
      result.1.Glued ⟨3⟩ ∧ result.1.print = .ok "--1;\n")) = .ok true := by
    decide +kernel
  obtain ⟨⟨t', c'⟩, hopt, hrun⟩ := map_eq_ok.1 hrun
  obtain ⟨hchanges, hsign, hliteral, hroot, hpath, hrest⟩ := of_decide_eq_true hrun
  exact ⟨t', c', hopt, hchanges, hsign, hliteral, hroot, reaches_of_path hpath (by simp), hrest⟩

/-- The sum is folded to a positive number. -/
theorem exists_sum :
    ∃ t' c', optimize sum (fun _ => none) options = .ok (t', c') ∧
      c'.changes = [.folded ⟨2⟩ ⟨6⟩ (.number 3)] ∧ t'.print = .ok "-3;\n" := by
  have hrun : (optimize sum (fun _ => none) options).map (fun result => decide (
      result.2.changes = [.folded ⟨2⟩ ⟨6⟩ (.number 3)] ∧
      result.1.print = .ok "-3;\n")) = .ok true := by
    decide +kernel
  obtain ⟨⟨t', c'⟩, hopt, hrun⟩ := map_eq_ok.1 hrun
  exact ⟨t', c', hopt, of_decide_eq_true hrun⟩

end Sample

/-- One minus is glued to the number that its operand was folded to, another is not. -/
theorem optimize_keeps_signs_apart_samples :
    (∃ t' c', optimize Sample.difference (fun _ => none) Sample.options = .ok (t', c') ∧
      Negates Sample.difference t' c'.changes ⟨3⟩ ∧ t'.Glued ⟨3⟩) ∧
    ∃ t' c', optimize Sample.sum (fun _ => none) Sample.options = .ok (t', c') ∧
      t'.SignsApart ⟨5⟩ ∧ ∃ before after, Sample.sum.print = .ok before ∧ t'.print = .ok after ∧
        before = "-(1 + 2);\n" ∧ after = "-3;\n" ∧ ∀ c, IsSign c → Repeats c after.toList →
          Repeats c before.toList ∨ ∃ n ℓ s, .folded n ℓ (.string s) ∈ c'.changes ∧
            t'.Reaches ⟨5⟩ ℓ ∧ Repeats c s.toList := by
  constructor
  · obtain ⟨t', c', hopt, hchanges, hsign, hliteral, -, hreaches, -⟩ := Sample.exists_difference
    have hneg : Negates Sample.difference t' c'.changes ⟨3⟩ := by
      refine ⟨⟨2⟩, ⟨6⟩, -1, by rw [hchanges]; exact List.mem_cons_self, by decide +kernel,
        ⟨⟨2⟩, rfl, .inl rfl⟩, ⟨6⟩, hsign, ?_, .refl⟩
      rintro ⟨s, hs, hbinary⟩
      rw [hliteral] at hs
      cases hs
      cases hbinary
    have hcases := (optimize_keeps_signs_apart Sample.difference_wellFormed rfl
      Sample.difference_signsApart (fun _ => none) Sample.options).2 t' c' hopt
    exact ⟨t', c', hopt, hneg, (hcases.1 _ hreaches).1 hneg⟩
  · obtain ⟨t', c', hopt, hchanges, hprint⟩ := Sample.exists_sum
    have hcases := (optimize_keeps_signs_apart Sample.sum_wellFormed rfl
      Sample.sum_signsApart (fun _ => none) Sample.options).2 t' c' hopt
    rw [hchanges] at hcases
    have hapart : t'.SignsApart ⟨5⟩ := by
      refine hcases.2.1 fun m _ => ⟨?_, ?_⟩
      · rintro ⟨n, ℓ, x, hmem, hx, -⟩
        cases List.mem_singleton.1 hmem
        exact absurd hx (by decide +kernel)
      · rintro ⟨_, _, _, _, _, -, -, -, ⟨_, _, _, hbranch⟩, change, hmem, rfl⟩
        rw [List.mem_singleton.1 hmem] at hbranch
        cases hbranch
    obtain ⟨before, after, hbefore, hafter, hrepeats⟩ := hcases.2.2.2 hapart
    refine ⟨t', c', hopt, hapart, before, after, hbefore, hafter, ?_, ?_, ?_⟩
    · have hsum : Sample.sum.print = .ok "-(1 + 2);\n" := by decide +kernel
      exact Except.ok.inj (hbefore.symm.trans hsum)
    · exact Except.ok.inj (hafter.symm.trans hprint)
    · rw [hchanges]
      exact hrepeats

/-- Signs that are apart come together: `-(0 - 1);` becomes `--1;`. -/
theorem optimize_glues_signs :
    Sample.difference.WellFormed ∧ Sample.difference.root = some ⟨5⟩ ∧
      Sample.difference.SignsApart ⟨5⟩ ∧ Sample.difference.print = .ok "-(0 - 1);\n" ∧
      ∃ t' c', optimize Sample.difference (fun _ => none) Sample.options = .ok (t', c') ∧
        t'.root = some ⟨5⟩ ∧ t'.Reaches ⟨5⟩ ⟨3⟩ ∧ t'.Glued ⟨3⟩ ∧ ¬t'.SignsApart ⟨5⟩ ∧
        t'.print = .ok "--1;\n" ∧ ¬Repeats '-' "-(0 - 1);\n".toList ∧
        Repeats '-' "--1;\n".toList := by
  obtain ⟨t', c', hopt, -, -, -, hroot, hreaches, hglued, hprint⟩ := Sample.exists_difference
  have hbefore : Sample.difference.print = .ok "-(0 - 1);\n" := by decide +kernel
  exact ⟨Sample.difference_wellFormed, rfl, Sample.difference_signsApart, hbefore, t', c', hopt,
    hroot, hreaches, hglued, fun hapart => hapart _ hreaches hglued, hprint, by decide, by decide⟩

end ScriptReduce
