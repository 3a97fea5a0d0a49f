/-
ScriptReduce.Proofs.Text.Units: the order of strings by their units.

Strings are compared unit by unit, so where they first differ two characters decide, and
of these the first units that differ (`compareLex_unitsOf`). That is the order of code
points except where a pair of units meets a single unit behind the pairs: such a pair
comes first, although its code point is greater (`Crosses`). No text of units begins
those of two characters, so strings with the same units are equal (`units_injective`),
and the order is a total order of strings.
-/
import ScriptReduce.Text

namespace ScriptReduce.Text

/-! ## 1. Units -/

/-- No character has the number of half a pair. -/
theorem toNat_cases (c : Char) :
    c.toNat < 0xd800 ∨ 0xdfff < c.toNat ∧ c.toNat < 0x110000 := c.valid

theorem compareUnits_eq_compareLex (as bs : List Nat) :
    compareUnits as bs = List.compareLex compare as bs := by
  induction as generalizing bs with
  | nil => cases bs <;> rfl
  | cons a as ih =>
    cases bs with
    | nil => rfl
    | cons b bs => rw [compareUnits, List.compareLex_cons_cons, ih]

theorem order_eq_compareLex (s t : String) :
    order s t = List.compareLex compare (units s.toList) (units t.toList) :=
  compareUnits_eq_compareLex _ _

@[simp] theorem units_append (cs ds : List Char) : units (cs ++ ds) = units cs ++ units ds :=
  List.flatMap_append

@[simp] theorem units_cons (c : Char) (cs : List Char) : units (c :: cs) = unitsOf c ++ units cs :=
  rfl

theorem unitsOf_ne_nil (c : Char) : unitsOf c ≠ [] := by
  unfold unitsOf
  simp only
  split <;> exact List.cons_ne_nil _ _

/-! ## 2. The first difference -/

theorem compareLex_of_lt {a b : Nat} (h : a < b) (as bs : List Nat) :
    List.compareLex compare (a :: as) (b :: bs) = .lt := by
  rw [List.compareLex_cons_cons, Nat.compare_eq_lt.2 h]
  rfl

theorem compareLex_of_gt {a b : Nat} (h : b < a) (as bs : List Nat) :
    List.compareLex compare (a :: as) (b :: bs) = .gt := by
  rw [List.compareLex_cons_cons, Nat.compare_eq_gt.2 h]
  rfl

/-- What two lists begin with alike does not count. -/
theorem compareLex_append_left (cs as bs : List Nat) :
    List.compareLex compare (cs ++ as) (cs ++ bs) = List.compareLex compare as bs := by
  induction cs with
  | nil => rfl
  | cons c cs ih =>
    rw [List.cons_append, List.cons_append, List.compareLex_cons_cons, ih, Nat.compare_eq_eq.2 rfl]
    rfl

/-- One of two characters takes a pair of units, and the other a unit behind all those
that pairs are made of. -/
def Crosses (x y : Char) : Prop :=
  0xe000 ≤ x.toNat ∧ x.toNat ≤ 0xffff ∧ 0xffff < y.toNat ∨
    0xe000 ≤ y.toNat ∧ y.toNat ≤ 0xffff ∧ 0xffff < x.toNat

instance (x y : Char) : Decidable (Crosses x y) := inferInstanceAs (Decidable (_ ∨ _))

theorem crosses_comm {x y : Char} : Crosses x y ↔ Crosses y x := or_comm

/-- Which of two different characters comes first, whatever follows them. -/
def compareChars (x y : Char) : Ordering :=
  if Crosses x y then (compare x.toNat y.toNat).swap else compare x.toNat y.toNat

theorem compareChars_swap (x y : Char) : (compareChars x y).swap = compareChars y x := by
  simp only [compareChars, crosses_comm (x := x)]
  split
  · rw [Ordering.swap_swap, Nat.compare_swap]
  · rw [Nat.compare_swap]

theorem compareChars_of_crosses {x y : Char} (h : Crosses x y) (hlt : x.toNat < y.toNat) :
    compareChars x y = .gt := by
  rw [compareChars, if_pos h, Nat.compare_eq_lt.2 hlt]
  rfl

theorem compareChars_of_not_crosses {x y : Char} (h : ¬Crosses x y) (hlt : x.toNat < y.toNat) :
    compareChars x y = .lt := by
  rw [compareChars, if_neg h, Nat.compare_eq_lt.2 hlt]

theorem compareLex_unitsOf_of_lt {x y : Char} (h : x.toNat < y.toNat) (as bs : List Nat) :
    List.compareLex compare (unitsOf x ++ as) (unitsOf y ++ bs) = compareChars x y := by
  have hx := toNat_cases x
  have hy' := toNat_cases y
  by_cases hcross : Crosses x y
  · have hcross' := hcross
    unfold Crosses at hcross'
    have hx' : x.toNat < 0x10000 := by omega
    have hy : ¬y.toNat < 0x10000 := by omega
    rw [compareChars_of_crosses hcross h, unitsOf, unitsOf, if_pos hx', if_neg hy]
    exact compareLex_of_gt (by omega) _ _
  · have hcross' := hcross
    unfold Crosses at hcross'
    rw [compareChars_of_not_crosses hcross h]
    unfold unitsOf
    by_cases hy : y.toNat < 0x10000
    · simp only [Nat.lt_trans h hy, hy, if_true]
      exact compareLex_of_lt h _ _
    · by_cases hx' : x.toNat < 0x10000
      · simp only [hx', hy, if_true, if_false]
        exact compareLex_of_lt (by omega) _ _
      · -- two pairs: the first units differ, or else the second ones do
        simp only [hx', hy, if_false, List.cons_append]
        by_cases hfirst : (x.toNat - 0x10000) / 0x400 = (y.toNat - 0x10000) / 0x400
        · rw [hfirst, List.compareLex_cons_cons, Nat.compare_eq_eq.2 rfl, Ordering.eq_then]
          exact compareLex_of_lt (by omega) _ _
        · exact compareLex_of_lt (by omega) _ _

/-- Two different characters decide by their units alone. -/
theorem compareLex_unitsOf {x y : Char} (h : x ≠ y) (as bs : List Nat) :
    List.compareLex compare (unitsOf x ++ as) (unitsOf y ++ bs) = compareChars x y := by
  rcases Nat.lt_or_gt_of_ne fun heq => h (Char.toNat_inj.1 heq) with hlt | hgt
  · exact compareLex_unitsOf_of_lt hlt as bs
  · have hswap : List.compareLex compare (unitsOf x ++ as) (unitsOf y ++ bs) =
        (List.compareLex compare (unitsOf y ++ bs) (unitsOf x ++ as)).swap :=
      Std.OrientedCmp.eq_swap
    rw [hswap, compareLex_unitsOf_of_lt hgt, compareChars_swap]

theorem compareChars_ne_eq {x y : Char} (h : x ≠ y) : compareChars x y ≠ .eq := by
  have hne : x.toNat ≠ y.toNat := fun heq => h (Char.toNat_inj.1 heq)
  unfold compareChars
  rcases Nat.lt_or_gt_of_ne hne with hlt | hgt
  · rw [Nat.compare_eq_lt.2 hlt]
    split <;> decide
  · rw [Nat.compare_eq_gt.2 hgt]
    split <;> decide

/-- Strings are compared by the characters at which they first differ. -/
theorem order_of_ne (cs us vs : List Char) {x y : Char} (h : x ≠ y) :
    order (String.ofList (cs ++ x :: us)) (String.ofList (cs ++ y :: vs)) = compareChars x y := by
  rw [order_eq_compareLex, String.toList_ofList, String.toList_ofList, units_append, units_append,
    compareLex_append_left, units_cons, units_cons, compareLex_unitsOf h]

/-- Where a string ends first, it comes first. -/
theorem order_append (cs vs : List Char) (y : Char) :
    order (String.ofList cs) (String.ofList (cs ++ y :: vs)) = .lt := by
  have h := compareLex_append_left (units cs) [] (unitsOf y ++ units vs)
  rw [List.append_nil] at h
  rw [order_eq_compareLex, String.toList_ofList, String.toList_ofList, units_append, units_cons, h]
  cases hy : unitsOf y with
  | nil => exact absurd hy (unitsOf_ne_nil y)
  | cons u us => rfl

/-! ## 3. A total order -/

theorem units_injective {cs ds : List Char} (h : units cs = units ds) : cs = ds := by
  induction cs generalizing ds with
  | nil =>
    cases ds with
    | nil => rfl
    | cons d ds => exact absurd (List.append_eq_nil_iff.1 h.symm).1 (unitsOf_ne_nil d)
  | cons c cs ih =>
    cases ds with
    | nil => exact absurd (List.append_eq_nil_iff.1 h).1 (unitsOf_ne_nil c)
    | cons d ds =>
      have hcd : c = d := by
        refine Decidable.byContradiction fun hne => compareChars_ne_eq hne ?_
        rw [← compareLex_unitsOf hne (units cs) (units ds), ← units_cons, ← units_cons, h]
        exact Std.ReflCmp.compare_self
      subst hcd
      rw [units_cons, units_cons] at h
      rw [ih (List.append_cancel_left h)]

instance : Std.TransCmp order where
  eq_swap {s t} := by
    rw [order_eq_compareLex, order_eq_compareLex]
    exact Std.OrientedCmp.eq_swap
  isLE_trans {s t u} := by
    simp only [order_eq_compareLex]
    exact Std.TransCmp.isLE_trans

instance : Std.LawfulEqCmp order where
  compare_self {s} := by
    rw [order_eq_compareLex]
    exact Std.ReflCmp.compare_self
  eq_of_compare {s t} h := by
    rw [order_eq_compareLex] at h
    exact String.toList_injective (units_injective (Std.LawfulEqCmp.eq_of_compare h))

end ScriptReduce.Text
