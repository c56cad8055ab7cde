import Formula.Proofs.CoherentComparisons
import Mathlib.Tactic.Ring

namespace Formula

def ArithOp.exact (op : ArithOp) (a b : ℚ) : ℚ :=
  match op with
  | .add => a + b
  | .sub => a - b
  | .mul => a * b
  | .div => a / b

namespace Binary64

variable {n : Int64} {s t : Bool} {m k : Magnitude}

/-- The integers of 64 bits are rounded within their range. -/
theorem units_le_of_int64 (h : signed s m = rounded n.toInt) : m.units ≤ 2 ^ 63 * one := by
  have hlow := n.le_toInt
  have hhigh := n.toInt_lt
  rw [← natAbs_signed s m, h]
  exact natAbs_rounded_le (by omega)

/-- An integer that is not zero is rounded to a number of magnitude one or more. -/
theorem one_le_of_int64 (h : signed s m = rounded n.toInt) (hn : n.toInt ≠ 0) : one ≤ m.units := by
  have hone : 2 ^ 0 * one ≤ (rounded n.toInt).natAbs := le_natAbs_rounded (by omega)
  simpa only [← h, natAbs_signed, pow_zero, one_mul] using hone

theorem zero_iff_units : (finite s m).isZero = true ↔ m.units = 0 := by
  have hsize := natAbs_signed s m
  simp only [isZero, position?, decide_eq_true_eq, Option.some_inj]
  omega

/-- The float of an integer is zero just if the integer is. -/
theorem zero_iff_of_int64 (h : signed s m = rounded n.toInt) :
    (finite s m).isZero = true ↔ n.toInt = 0 := by
  rw [zero_iff_units]
  constructor
  · intro hunits
    by_contra hn
    have hone := one_le_of_int64 h hn
    have hpos := one_pos
    omega
  · intro hn
    rw [hn, rounded, Int.sign_zero, Int.zero_mul] at h
    rw [← natAbs_signed s m, h]
    rfl

/-- There is room for the product of two floats of integers. -/
theorem two_mul_lt_limit {p : Nat} (h : p ≤ 2 ^ 126 * one) : 2 * p + 1 < limit := by
  have hlimit : 2 * (2 ^ 126 * one) + 1 < limit := by decide +kernel
  omega

section Bounded

variable (hm : m.units ≤ 2 ^ 63 * one) (hk : k.units ≤ 2 ^ 63 * one)

include hm hk

theorem finite_add : (add (finite s m) (finite t k)).isFinite = true := by
  have hsum : (signed s m + signed t k).natAbs ≤ 2 ^ 126 * one := by
    rw [signed, signed]
    split_ifs <;> omega
  rw [add]
  split_ifs
  · rfl
  · apply finite_round
    rw [Nat.div_one]
    exact two_mul_lt_limit hsum

theorem finite_mul : (mul (finite s m) (finite t k)).isFinite = true := by
  have hproduct : m.units * k.units / one ≤ 2 ^ 126 * one := by
    apply Nat.div_le_of_le_mul
    calc m.units * k.units ≤ 2 ^ 63 * one * (2 ^ 63 * one) := Nat.mul_le_mul hm hk
      _ = one * (2 ^ 126 * one) := by ring
  exact finite_round _ (two_mul_lt_limit hproduct)

end Bounded

theorem finite_div (hm : m.units ≤ 2 ^ 63 * one) (hk : one ≤ k.units) :
    (div (finite s m) (finite t k)).isFinite = true := by
  have hpos := one_pos
  have hquotient : m.units * one / k.units ≤ m.units := by
    apply Nat.div_le_of_le_mul
    rw [Nat.mul_comm]
    exact Nat.mul_le_mul_right m.units hk
  rw [div, if_neg (by omega)]
  exact finite_round _ (two_mul_lt_limit (by omega))

/-- Arithmetic on the floats of integers does not overflow. -/
theorem finite_arith {op : ArithOp} {a b : Int64} (ha : signed s m = rounded a.toInt)
    (hb : signed t k = rounded b.toInt) (hdiv : op = .div → b.toInt ≠ 0) :
    (arith op (finite s m) (finite t k)).isFinite = true := by
  have hm := units_le_of_int64 ha
  have hk := units_le_of_int64 hb
  cases op with
  | add => exact finite_add hm hk
  | sub => exact finite_add hm hk
  | mul => exact finite_mul hm hk
  | div => exact finite_div hm (one_le_of_int64 hb (hdiv rfl))

end Binary64

namespace Literal

/-- What is found for two integers is their exact result, where that is an integer. -/
theorem integral_eq_some_iff {op : ArithOp} {a b z : Int} (h : op = .div → b ≠ 0) :
    integral? op a b = some z ↔ op.exact a b = z := by
  cases op with
  | add =>
    rw [integral?, ArithOp.exact, Option.some_inj]
    exact_mod_cast Iff.rfl
  | sub =>
    rw [integral?, ArithOp.exact, Option.some_inj]
    exact_mod_cast Iff.rfl
  | mul =>
    rw [integral?, ArithOp.exact, Option.some_inj]
    exact_mod_cast Iff.rfl
  | div =>
    have hb : b ≠ 0 := h rfl
    have hexact : ArithOp.exact .div a b = z ↔ a = z * b := by
      rw [ArithOp.exact, div_eq_iff (Int.cast_ne_zero.mpr hb)]
      exact_mod_cast Iff.rfl
    rw [hexact, integral?]
    constructor
    · intro hz
      split_ifs at hz with hrem
      obtain rfl := Option.some.inj hz
      exact (Int.tdiv_mul_cancel (Int.dvd_of_tmod_eq_zero hrem.2)).symm
    · rintro rfl
      rw [if_pos ⟨hb, Int.mul_tmod_left z b⟩, Int.mul_tdiv_cancel z hb]

variable {v w : Literal} {op : ArithOp} {x y : Binary64}

/-- What arithmetic makes of two numbers, which are `x` and `y` as floats. A division by zero fails.
Otherwise two integers give the integer that is their exact result, and if there is none of 64 bits the
float of the operation; with a float among them it is that float, unless it is not finite. -/
structure ExactOrFloating (op : ArithOp) (v w : Literal) (x y : Binary64) : Prop where
  by_zero : arith op v w = .error .divisionByZero ↔ op = .div ∧ y.isZero = true
  integers : ¬ (op = .div ∧ y.isZero = true) → ∀ a b, v.asIntOperand = some a → w.asIntOperand = some b →
    (∀ z : Int64, arith op v w = .ok (.int z) ↔ op.exact a.toInt b.toInt = z.toInt) ∧
      ((∀ z : Int64, op.exact a.toInt b.toInt ≠ z.toInt) →
        arith op v w = .ok (.float (Binary64.arith op x y)))
  floats : ¬ (op = .div ∧ y.isZero = true) → v.asIntOperand = none ∨ w.asIntOperand = none →
    arith op v w = if (Binary64.arith op x y).isFinite then .ok (.float (Binary64.arith op x y))
      else .error .outOfRange

theorem by_zero_of_int {b : Int64} (hy : w.asFloat = some y) (hb : w.asIntOperand = some b) :
    y.isZero = true ↔ b.toInt = 0 := by
  obtain ⟨t, k, hfloat, hplace⟩ := float_of_int (asInt_of_operand hb)
  obtain rfl := Option.some.inj (hy.symm.trans hfloat)
  exact Binary64.zero_iff_of_int64 hplace

/-- Operands that are not both integers are taken as floats. -/
theorem arith_of_float (hpropagated : propagatedOf? v w = none)
    (h : v.asIntOperand = none ∨ w.asIntOperand = none) : arith op v w = floatArith op v w := by
  rw [arith, hpropagated]
  rcases h with hv | hw
  · rw [hv]
  · rw [hw]
    cases v.asIntOperand <;> rfl

section Numbers

variable (hx : v.asFloat = some x) (hy : w.asFloat = some y)

include hx hy

theorem floatArith_eq : floatArith op v w = if op = .div ∧ y.isZero = true then .error .divisionByZero
    else if (Binary64.arith op x y).isFinite then .ok (.float (Binary64.arith op x y))
      else .error .outOfRange := by
  rw [floatArith, hx, hy]
  rfl

section Integers

variable {a b : Int64} (ha : v.asIntOperand = some a) (hb : w.asIntOperand = some b)

include ha hb

theorem arith_by_zero (h : op = .div ∧ y.isZero = true) : arith op v w = .error .divisionByZero := by
  have hzero : op = .div ∧ b.toInt = 0 := ⟨h.1, (by_zero_of_int hy hb).mp h.2⟩
  rw [arith, propagatedOf_floats hx hy, ha, hb]
  exact if_pos hzero

/-- Two integers have their exact result, if it is an integer of 64 bits, else the float of the operation. -/
theorem arith_of_ints (h : ¬ (op = .div ∧ y.isZero = true)) : arith op v w =
    match (integral? op a.toInt b.toInt).bind int64? with
    | some z => .ok (.int z)
    | none => .ok (.float (Binary64.arith op x y)) := by
  have hdiv : ¬ (op = .div ∧ b.toInt = 0) := by rwa [← by_zero_of_int hy hb]
  have hfinite : (Binary64.arith op x y).isFinite = true := by
    obtain ⟨s, m, hfloat, hplace⟩ := float_of_int (asInt_of_operand ha)
    obtain ⟨t, k, hfloat', hplace'⟩ := float_of_int (asInt_of_operand hb)
    obtain rfl := Option.some.inj (hx.symm.trans hfloat)
    obtain rfl := Option.some.inj (hy.symm.trans hfloat')
    exact Binary64.finite_arith hplace hplace' fun hop hb => hdiv ⟨hop, hb⟩
  have hfloat : floatArith op v w = .ok (.float (Binary64.arith op x y)) := by
    rw [floatArith_eq hx hy, if_neg h, if_pos hfinite]
  rw [arith, propagatedOf_floats hx hy, ha, hb, ← hfloat]
  exact if_neg hdiv

end Integers

/-- Arithmetic fails as a division by zero where it is one. -/
theorem by_zero_iff : arith op v w = .error .divisionByZero ↔ op = .div ∧ y.isZero = true := by
  by_cases hints : v.asIntOperand = none ∨ w.asIntOperand = none
  · rw [arith_of_float (propagatedOf_floats hx hy) hints, floatArith_eq hx hy]
    split_ifs with h <;> simp [h]
  · obtain ⟨hv, hw⟩ := not_or.mp hints
    obtain ⟨a, ha⟩ := Option.ne_none_iff_exists'.mp hv
    obtain ⟨b, hb⟩ := Option.ne_none_iff_exists'.mp hw
    by_cases h : op = .div ∧ y.isZero = true
    · exact iff_of_true (arith_by_zero hx hy ha hb h) h
    · rw [arith_of_ints hx hy ha hb h]
      refine iff_of_false ?_ h
      split <;> nofun

theorem exactOrFloating : ExactOrFloating op v w x y where
  by_zero := by_zero_iff hx hy
  integers := by
    intro h a b ha hb
    have hdiv : op = .div → b.toInt ≠ 0 :=
      fun hop hb' => h ⟨hop, (by_zero_of_int hy hb).mpr hb'⟩
    have hresult := arith_of_ints hx hy ha hb h
    have hfits (z : Int64) : (integral? op a.toInt b.toInt).bind int64? = some z ↔
        op.exact a.toInt b.toInt = z.toInt := by
      simp only [Option.bind_eq_some_iff, int64_eq_some_iff, integral_eq_some_iff hdiv, exists_eq_right']
    constructor
    · intro z
      rw [hresult, ← hfits]
      cases (integral? op a.toInt b.toInt).bind int64? with
      | none => exact ⟨nofun, nofun⟩
      | some k => simp only [Except.ok.injEq, int.injEq, Option.some_inj]
    · intro hnone
      rw [hresult]
      cases hz : (integral? op a.toInt b.toInt).bind int64? with
      | none => rfl
      | some z => exact absurd ((hfits z).mp hz) (hnone z)
  floats := by
    intro h hnone
    rw [arith_of_float (propagatedOf_floats hx hy) hnone, floatArith_eq hx hy, if_neg h]

end Numbers

theorem no_operand_of_not_numeric (h : ¬ v.Numeric) : v.asFloat = none ∧ v.asIntOperand = none := by
  have hfloat : v.asFloat = none := by
    by_contra hsome
    exact h (numeric_iff.mpr (Option.ne_none_iff_exists'.mp hsome))
  refine ⟨hfloat, ?_⟩
  by_contra hsome
  obtain ⟨n, hn⟩ := Option.ne_none_iff_exists'.mp hsome
  obtain ⟨s, m, hx, -⟩ := float_of_int (asInt_of_operand hn)
  exact absurd (hfloat.symm.trans hx) nofun

/-- Arithmetic on what is no number fails; on two numbers it is exact or floating. -/
theorem arithmetic_exact_or_floating (hv : v.errorState = none) (hw : w.errorState = none)
    (op : ArithOp) :
    (¬ (v.Numeric ∧ w.Numeric) → arith op v w = .error .incompatibleTypes) ∧
      (v.Numeric → w.Numeric → ∃ x y, v.asFloat = some x ∧ w.asFloat = some y ∧
        ExactOrFloating op v w x y) := by
  constructor
  · intro h
    have hpropagated := propagatedOf_no_errors hv hw
    rcases not_and_or.mp h with hnot | hnot
    · obtain ⟨hfloat, hint⟩ := no_operand_of_not_numeric hnot
      rw [arith_of_float hpropagated (.inl hint), floatArith, hfloat]
    · obtain ⟨hfloat, hint⟩ := no_operand_of_not_numeric hnot
      rw [arith_of_float hpropagated (.inr hint), floatArith, hfloat]
      cases v.asFloat <;> rfl
  · intro hv hw
    obtain ⟨x, hx⟩ := numeric_iff.mp hv
    obtain ⟨y, hy⟩ := numeric_iff.mp hw
    exact ⟨x, y, hx, hy, exactOrFloating hx hy⟩

/-- The least integer, given as a text, has no opposite of 64 bits: divided by minus one it is a float. -/
theorem arithmetic_exact_or_floating_least :
    (str "-9223372036854775808").errorState = none ∧ (int (-1)).errorState = none ∧
      arith .div (str "-9223372036854775808") (int (-1)) =
        .ok (float (Binary64.ofInt 9223372036854775808)) := by
  refine ⟨rfl, rfl, ?_⟩
  have hdividend : (str "-9223372036854775808").asFloat =
      some (Binary64.ofInt (-9223372036854775808)) := by decide +kernel
  obtain ⟨x, y, hx, hy, hresult⟩ := (arithmetic_exact_or_floating (v := str "-9223372036854775808")
    (w := int (-1)) rfl rfl .div).2 (numeric_iff.mpr ⟨_, hdividend⟩) trivial
  have hx : x = Binary64.ofInt (-9223372036854775808) := Option.some.inj (hx.symm.trans hdividend)
  have hy : y = Binary64.ofInt (Int64.toInt (-1)) := Option.some.inj hy.symm
  have hquotient : Binary64.arith .div x y = Binary64.ofInt 9223372036854775808 := by
    rw [hx, hy]
    decide +kernel
  have hnonzero : ¬ (ArithOp.div = .div ∧ y.isZero = true) := by
    rw [hy]
    decide +kernel
  have hint : (str "-9223372036854775808").asIntOperand = some (-9223372036854775808) := by
    decide +kernel
  rw [← hquotient]
  apply (hresult.integers hnonzero _ _ hint rfl).2
  intro z hz
  have hexact : ArithOp.exact .div ((-9223372036854775808 : Int64).toInt : ℚ)
      ((-1 : Int64).toInt : ℚ) = ((9223372036854775808 : Int) : ℚ) := by
    rw [show (-9223372036854775808 : Int64).toInt = -9223372036854775808 by decide,
      show (-1 : Int64).toInt = -1 by decide, ArithOp.exact]
    norm_num
  have hless := z.toInt_lt
  rw [hexact, Int.cast_inj] at hz
  omega

end Literal

end Formula
