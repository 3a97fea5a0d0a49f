/-
ScriptReduce.Proofs.Value.Compare: equality and order of values agree.

Two strings are compared as strings, and all other pairs of values as numbers
(`Value.Numeric`). For numbers the order decides everything: they are equal if the order
says so, and there is no order if and only if one of the two is NaN
(`Number.compare_eq`). For strings it is a total order, settled by the characters at
which they first differ (`Text.order_of_ne`). So loose equality and order cannot
contradict each other, and strict equality is loose equality of values of one type
(`Value.comparisons_agree`).
-/
import ScriptReduce.Proofs.Text.Units
import ScriptReduce.Value.Compare

namespace ScriptReduce

open Float.Model (UnpackedFloat)
open Float.Model.UnpackedFloat (Sign)

/-! ## 1. Numbers -/

namespace Binary64

theorem compare_sign_swap (s s' : Sign) : compare s' s = (compare s s').swap := by
  cases s <;> cases s' <;> rfl

theorem compare_scaled_swap (e e' : Int) (m m' : Nat) :
    (compare e' e).then (compare m' m) = ((compare e e').then (compare m m')).swap := by
  rw [Ordering.swap_then, ← Std.OrientedOrd.eq_swap, ← Std.OrientedOrd.eq_swap]

/-- The order of two numbers is turned round with them. -/
theorem compare_unpacked_swap (x y : UnpackedFloat) :
    y.compare x = (x.compare y).map Ordering.swap := by
  cases x with
  | notANumber => cases y <;> rfl
  | infinity s =>
    cases y with
    | infinity s' => exact congrArg some (compare_sign_swap s s')
    | _ => cases s <;> rfl
  | zero s =>
    cases y with
    | notANumber => rfl
    | zero _ => rfl
    | infinity s' => cases s' <;> rfl
    | finite s' => cases s' <;> rfl
  | finite s m e h =>
    cases y with
    | notANumber => cases s <;> rfl
    | zero _ => cases s <;> rfl
    | infinity s' => cases s <;> cases s' <;> rfl
    | finite s' m' e' h' =>
      cases s <;> cases s'
      · exact congrArg (fun o => some o.swap) (compare_scaled_swap e e' m m')
      · rfl
      · rfl
      · exact congrArg some (compare_scaled_swap e e' m m')

theorem exists_compare_unpacked {x y : UnpackedFloat} (hx : x.isNaN = false)
    (hy : y.isNaN = false) : ∃ o, x.compare y = some o := by
  cases x with
  | notANumber => cases hx
  | infinity s =>
    cases y with
    | notANumber => cases hy
    | _ => cases s <;> exact ⟨_, rfl⟩
  | zero s =>
    cases y with
    | notANumber => cases hy
    | zero _ => exact ⟨_, rfl⟩
    | infinity s' => cases s' <;> exact ⟨_, rfl⟩
    | finite s' => cases s' <;> exact ⟨_, rfl⟩
  | finite s =>
    cases y with
    | notANumber => cases hy
    | zero _ => cases s <;> exact ⟨_, rfl⟩
    | infinity s' => cases s <;> cases s' <;> exact ⟨_, rfl⟩
    | finite s' => cases s <;> cases s' <;> exact ⟨_, rfl⟩

/-- Only NaN has no place in the order. -/
theorem compare_unpacked_eq_none_iff {x y : UnpackedFloat} :
    x.compare y = none ↔ x.isNaN ∨ y.isNaN := by
  constructor
  · intro h
    refine Decidable.byContradiction fun hnan => ?_
    simp only [not_or, Bool.not_eq_true] at hnan
    obtain ⟨o, ho⟩ := exists_compare_unpacked hnan.1 hnan.2
    rw [h] at ho
    cases ho
  · rintro (h | h)
    · cases x with
      | notANumber => rfl
      | _ => cases h
    · -- turned round, it is the first of the two
      rw [compare_unpacked_swap y x]
      cases y with
      | notANumber => rfl
      | _ => cases h

end Binary64

namespace Number

/-- The three questions about two numbers have one answer. -/
theorem compare_eq (a b : Float) :
    Number.compare a b = a.toModel.unpack.compare b.toModel.unpack := by
  have hlt : ∀ a b : Float, a < b ↔ a.toModel.unpack.compare b.toModel.unpack = some .lt :=
    fun a b => decide_eq_true_iff.trans (beq_iff_eq (a := a.toModel.unpack.compare _))
  have heq : (a == b) = true ↔ a.toModel.unpack.compare b.toModel.unpack = some .eq :=
    beq_iff_eq (a := a.toModel.unpack.compare b.toModel.unpack)
  have hswap := Binary64.compare_unpacked_swap a.toModel.unpack b.toModel.unpack
  unfold Number.compare
  simp only [hlt, heq, hswap]
  cases a.toModel.unpack.compare b.toModel.unpack with
  | none => rfl
  | some o => cases o <;> rfl

theorem compare_swap (a b : Float) :
    Number.compare b a = (Number.compare a b).map Ordering.swap := by
  rw [compare_eq, compare_eq, Binary64.compare_unpacked_swap]

theorem beq_iff_compare {a b : Float} : (a == b) = true ↔ Number.compare a b = some .eq := by
  rw [compare_eq]
  exact beq_iff_eq (a := a.toModel.unpack.compare _)

theorem compare_eq_none_iff {a b : Float} : Number.compare a b = none ↔ a.isNaN ∨ b.isNaN := by
  rw [compare_eq]
  exact Binary64.compare_unpacked_eq_none_iff

end Number

/-! ## 2. Values -/

namespace Value

/-- At least one of two values is no string. -/
def Numeric (a b : Value) : Prop := ¬∃ s t, a = .string s ∧ b = .string t

/-- Two values are compared as strings or as numbers. -/
theorem strings_or_numeric (a b : Value) :
    (∃ s t, a = .string s ∧ b = .string t) ∨ Numeric a b := Classical.em _

theorem Numeric.symm {a b : Value} (h : Numeric a b) : Numeric b a :=
  fun ⟨s, t, hs, ht⟩ => h ⟨t, s, ht, hs⟩

theorem compare_of_numeric {a b : Value} (h : Numeric a b) :
    a.compare b = Number.compare a.toNumber b.toNumber := by
  cases a <;> cases b <;> first | rfl | exact absurd ⟨_, _, rfl, rfl⟩ h

theorem looseEqual_of_numeric {a b : Value} (h : Numeric a b) :
    a.looseEqual b = (a.toNumber == b.toNumber) := by
  cases a with
  | boolean p =>
    cases b with
    | boolean q => cases p <;> cases q <;> decide +kernel
    | _ => rfl
  | number _ => cases b <;> rfl
  | string _ =>
    cases b with
    | string _ => exact absurd ⟨_, _, rfl, rfl⟩ h
    | _ => rfl

/-- Loose equality is the order being `.eq`. -/
theorem looseEqual_iff_compare {a b : Value} :
    a.looseEqual b = true ↔ a.compare b = some .eq := by
  rcases strings_or_numeric a b with ⟨s, t, rfl, rfl⟩ | h
  · show (s == t) = true ↔ some (Text.order s t) = some .eq
    rw [beq_iff_eq, Option.some.injEq, Std.LawfulEqCmp.compare_eq_iff_eq]
  · rw [looseEqual_of_numeric h, compare_of_numeric h, Number.beq_iff_compare]

theorem compare_swap (a b : Value) : b.compare a = (a.compare b).map Ordering.swap := by
  rcases strings_or_numeric a b with ⟨s, t, rfl, rfl⟩ | h
  · exact congrArg some Std.OrientedCmp.eq_swap
  · rw [compare_of_numeric h, compare_of_numeric h.symm, Number.compare_swap]

theorem looseEqual_comm (a b : Value) : a.looseEqual b = b.looseEqual a := by
  rw [Bool.eq_iff_iff, looseEqual_iff_compare, looseEqual_iff_compare, compare_swap a b]
  cases a.compare b with
  | none => simp
  | some o => cases o <;> simp

/-- Strict equality is loose equality of values of one type. -/
theorem strictEqual_eq (a b : Value) :
    a.strictEqual b = (decide (a.typeName = b.typeName) && a.looseEqual b) := by
  cases a <;> cases b <;> rfl

theorem compare_eq_none_iff {a b : Value} :
    a.compare b = none ↔ Numeric a b ∧ (a.toNumber.isNaN ∨ b.toNumber.isNaN) := by
  rcases strings_or_numeric a b with ⟨s, t, rfl, rfl⟩ | h
  · exact iff_of_false (by simp [compare]) fun hnan => hnan.1 ⟨s, t, rfl, rfl⟩
  · rw [compare_of_numeric h, Number.compare_eq_none_iff, and_iff_right h]

/-- Equality and order agree on all values. Values are loosely equal if and only if the
order says so; both look the same from the other side; strict equality is loose equality
of values of one type; and there is no order exactly where two values are compared as
numbers and one of these is NaN. Strings are in a total order: the characters at which
two of them first differ decide by their code points, the other way round if they cross,
and a string that ends first comes first. -/
theorem comparisons_agree (a b : Value) :
    (a.looseEqual b = true ↔ a.compare b = some .eq) ∧
      a.looseEqual b = b.looseEqual a ∧ b.compare a = (a.compare b).map Ordering.swap ∧
      a.strictEqual b = (decide (a.typeName = b.typeName) && a.looseEqual b) ∧
      (a.compare b = none ↔ Numeric a b ∧ (a.toNumber.isNaN ∨ b.toNumber.isNaN)) ∧
      (∀ s t, (string s).compare (string t) = some (Text.order s t)) ∧
      Std.TransCmp Text.order ∧ Std.LawfulEqCmp Text.order ∧
      (∀ cs us vs x y, x ≠ y →
        Text.order (String.ofList (cs ++ x :: us)) (String.ofList (cs ++ y :: vs))
          = if Text.Crosses x y then (Ord.compare x.toNat y.toNat).swap
            else Ord.compare x.toNat y.toNat) ∧
      ∀ cs vs y, Text.order (String.ofList cs) (String.ofList (cs ++ y :: vs)) = .lt :=
  ⟨looseEqual_iff_compare, looseEqual_comm a b, compare_swap a b, strictEqual_eq a b,
    compare_eq_none_iff, fun _ _ => rfl, inferInstance, inferInstance,
    fun cs us vs _ _ h => Text.order_of_ne cs us vs h, Text.order_append⟩

/-- The face takes two units, so it comes before the character that stands before it. -/
theorem comparisons_agree_crossing :
    '\uffff' ≠ '😀' ∧ '\uffff'.toNat < '😀'.toNat ∧ Text.Crosses '\uffff' '😀' ∧
      (string "a\uffff").compare (string "a😀") = some .gt ∧
      (string "a😀").compare (string "a\uffff") = some .lt := by
  have hne : '\uffff' ≠ '😀' := by decide
  have hcross : Text.Crosses '\uffff' '😀' := by decide
  obtain ⟨-, -, hswap, -, -, hstring, -, -, hfirst, -⟩ :=
    comparisons_agree (string "a\uffff") (string "a😀")
  have horder := hfirst ['a'] [] [] '\uffff' '😀' hne
  rw [if_pos hcross] at horder
  have hgt : (string "a\uffff").compare (string "a😀") = some .gt := by
    rw [hstring]
    exact congrArg some horder
  exact ⟨hne, by decide, hcross, hgt, by rw [hswap, hgt]; rfl⟩

end Value

end ScriptReduce
