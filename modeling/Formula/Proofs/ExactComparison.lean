import Formula.Proofs.IntegerTexts
import Formula.Proofs.Outcomes
import Formula.Proofs.RoundedIntegers
import Mathlib.Algebra.Order.Field.Rat

/-!
Comparisons of numbers and the numbers that they compare. A comparison of integers and finite floats says
what is true of their exact values, unless one of the 512 greatest integers is compared with the float just
behind them: that float is no integer of 64 bits, and as a float each of those integers is equal to it.
-/

namespace Formula

def CompareOp.holds (op : CompareOp) (a b : ℚ) : Bool :=
  match op with
  | .eq => a = b
  | .ne => a ≠ b
  | .lt => a < b
  | .le => a ≤ b
  | .gt => b < a
  | .ge => b ≤ a

def CompareOp.tells (op : CompareOp) (o : Ordering) : Bool :=
  match op with
  | .eq => o = .eq
  | .ne => o ≠ .eq
  | .lt => o = .lt
  | .le => o ≠ .gt
  | .gt => o = .gt
  | .ge => o ≠ .lt

theorem int64_eq_some_iff {z : Int} {n : Int64} : int64? z = some n ↔ n.toInt = z := by
  constructor
  · intro h
    rw [int64?] at h
    split_ifs at h with hz
    obtain rfl := Option.some.inj h
    exact Int64.toInt_ofInt_of_le hz.1 (by omega)
  · rintro rfl
    exact int64_of_toInt n

namespace Binary64

variable {n : Int64} {s : Bool} {m : Magnitude}

theorem toInt64_eq_some_iff : (finite s m).toInt64? = some n ↔ signed s m = n.toInt * one := by
  rw [toInt64?, Option.bind_eq_some_iff]
  simp only [toInt_eq_some_iff, int64_eq_some_iff]
  constructor
  · rintro ⟨_, h, rfl⟩
    exact h
  · exact fun h => ⟨_, h, rfl⟩

/-- An integer is rounded to a float that is no integer of 64 bits only at the end of their range. -/
theorem rounded_eq_signed (hnone : (finite s m).toInt64? = none) (h : rounded n.toInt = signed s m) :
    9223372036854775296 ≤ n.toInt ∧ (finite s m).toInt? = some 9223372036854775808 := by
  have hpos : (0 : Int) < one := Int.natCast_pos.mpr Binary64.one_pos
  have hlow : -9223372036854775808 ≤ n.toInt := n.le_toInt
  have hhigh : n.toInt < 9223372036854775808 := n.toInt_lt
  obtain ⟨k, hk⟩ := h ▸ one_dvd_rounded n.toInt
  rw [Int.mul_comm] at hk
  have hwhole : (finite s m).toInt? = some k := toInt_eq_some_iff.mpr hk
  have hout : int64? k = none := by rwa [toInt64?, hwhole] at hnone
  have hle : k ≤ 9223372036854775808 := by
    have hround : rounded n.toInt ≤ 9223372036854775808 * one :=
      rounded_le (by decide +kernel) (Int.mul_le_mul_of_nonneg_right hhigh.le hpos.le)
    rw [h, hk] at hround
    exact Int.le_of_mul_le_mul_right hround hpos
  have hge : -9223372036854775808 ≤ k := by
    have hround : -9223372036854775808 * (one : Int) ≤ rounded n.toInt :=
      le_rounded (by decide +kernel) (Int.mul_le_mul_of_nonneg_right hlow hpos.le)
    rw [h, hk] at hround
    exact Int.le_of_mul_le_mul_right hround hpos
  obtain rfl : k = 9223372036854775808 := by
    rw [int64?] at hout
    split_ifs at hout with hfits
    omega
  exact ⟨(rounded_eq_end_iff hhigh).mp (h.trans hk), hwhole⟩

end Binary64

namespace Literal

open Binary64 (one rounded)

def exactValue? : Literal → Option ℚ
  | .int n => some n.toInt
  | .float (.finite s m) => some (Binary64.signed s m / one)
  | _ => none

def place? : Literal → Option Int
  | .int n => some (n.toInt * one)
  | .float (.finite s m) => some (Binary64.signed s m)
  | _ => none

/-- One of the 512 greatest integers and the float just behind them, in either order. -/
def Clash : Literal → Literal → Prop
  | .int n, .float x | .float x, .int n =>
    9223372036854775296 ≤ n.toInt ∧ x.toInt? = some 9223372036854775808
  | _, _ => False

variable {v w : Literal}

section Conversions

/-- Where two values are not both there, one of them is missing. -/
theorem none_of_not_both {α β : Type} {a : Option α} {b : Option β}
    (h : ¬ ((∃ m, a = some m) ∧ ∃ n, b = some n)) : a = none ∨ b = none := by
  simpa only [not_and_or, ← Option.isSome_iff_exists, Option.not_isSome_iff_eq_none] using h

theorem orderInt_congr {a b c d : Int} (hless : a < b ↔ c < d) (hgreater : b < a ↔ d < c) :
    orderInt a b = orderInt c d := by
  simp only [orderInt, hless, hgreater]

/-- The order of two integers tells which of them is less, if they are not equal. -/
theorem orderInt_iff (a b : Int) : (orderInt a b = .lt ↔ a < b) ∧ (orderInt a b = .eq ↔ a = b) ∧
    (orderInt a b = .gt ↔ b < a) := by
  rw [orderInt]
  split_ifs with hless hgreater
  · simp [hless, hless.ne, hless.le]
  · simp [hgreater, hgreater.ne', hgreater.le]
  · simp [le_antisymm (not_lt.mp hgreater) (not_lt.mp hless)]

/-- Numbers are neither errors nor truth values. -/
theorem number_of_float {x : Binary64} (h : v.asFloat = some x) :
    v.propagated? = none ∧ v.asBool = none := by
  cases v with
  | bool | err => cases h
  | int | float | str => exact ⟨rfl, rfl⟩

theorem compare_of_order {o : Ordering} (hequal : equal v w = .ok (decide (o = .eq)))
    (horder : order v w = .ok o) (op : CompareOp) : compare op v w = .ok (op.tells o) := by
  cases op <;> simp [compare, hequal, horder, CompareOp.tells, Except.map]

variable {x y : Binary64} (hv : v.asFloat = some x) (hw : w.asFloat = some y)

include hv hw

theorem propagatedOf_floats : propagatedOf? v w = none := by
  rw [propagatedOf?, (number_of_float hv).1, (number_of_float hw).1]
  rfl

/-- Two values that are integers are compared as those. -/
theorem compare_ints {m n : Int64} (hm : v.asInt = some m) (hn : w.asInt = some n)
    (op : CompareOp) : compare op v w = .ok (op.tells (orderInt m.toInt n.toInt)) := by
  have hpropagated := propagatedOf_floats hv hw
  refine compare_of_order ?_ ?_ op
  · simp only [equal_eq, hpropagated, (number_of_float hv).2, (number_of_float hw).2, hm, hn,
      (orderInt_iff _ _).2.1, Int64.toInt_inj]
  · simp only [order, hpropagated, hm, hn]

/-- Two numbers of which one is no integer are compared as floats. -/
theorem compare_floats {a b : Int} (hint : v.asInt = none ∨ w.asInt = none)
    (hx : x.position? = some a) (hy : y.position? = some b) (op : CompareOp) :
    compare op v w = .ok (op.tells (orderInt a b)) := by
  have hpropagated := propagatedOf_floats hv hw
  have horder : x.order? y = some (orderInt a b) := by
    simp only [Binary64.order?, hx, hy]
    rfl
  have hpair : v.asInt = none ∨ ∃ m, v.asInt = some m ∧ w.asInt = none := by
    cases hm : v.asInt with
    | none => exact .inl rfl
    | some m => exact .inr ⟨m, rfl, hint.resolve_left (by simp [hm])⟩
  refine compare_of_order ?_ ?_ op
  · rw [equal_eq, hpropagated]
    rcases hpair with hm | ⟨m, hm, hn⟩
    · simp only [(number_of_float hv).2, (number_of_float hw).2, hm, hv, hw, Binary64.same, horder,
        Option.some_inj]
    · simp only [(number_of_float hv).2, (number_of_float hw).2, hm, hn, hv, hw, Binary64.same,
        horder, Option.some_inj]
  · rcases hpair with hm | ⟨m, hm, hn⟩
    · simp only [order, hpropagated, hm, hv, hw, horder]
    · simp only [order, hpropagated, hm, hn, hv, hw, horder]

end Conversions

section Places

variable {p q : Int}

/-- What a number is as a float: a float itself, and an integer its nearest float. -/
theorem float_of_place (h : v.place? = some p) : ∃ x a, v.asFloat = some x ∧ x.position? = some a ∧
    ((∃ n, v = .int n ∧ a = rounded n.toInt) ∨ ∃ s m, v = .float (.finite s m) ∧ a = p) := by
  cases v with
  | str | bool | err => cases h
  | int n => exact ⟨_, _, rfl, Binary64.position_of_int64 n, .inl ⟨n, rfl, rfl⟩⟩
  | float x =>
    cases x with
    | nan | infinite => cases h
    | finite s m => exact ⟨_, _, rfl, h, .inr ⟨s, m, rfl, rfl⟩⟩

theorem place_of_int {n : Int64} (h : v.place? = some p) (hn : v.asInt = some n) :
    p = n.toInt * one := by
  cases v with
  | str | bool | err => cases h
  | int m =>
    obtain rfl := Option.some.inj hn
    exact (Option.some.inj h).symm
  | float x =>
    cases x with
    | nan | infinite => cases h
    | finite s m =>
      obtain rfl := Option.some.inj h
      exact Binary64.toInt64_eq_some_iff.mp hn

theorem orderInt_scale (a b : Int) : orderInt (a * one) (b * one) = orderInt a b := by
  have hpos : (0 : Int) < one := Int.natCast_pos.mpr Binary64.one_pos
  exact orderInt_congr (Int.mul_lt_mul_right hpos) (Int.mul_lt_mul_right hpos)

/-- An integer stands on the same side of a float as the float nearest to it. -/
theorem order_rounded {n : Int64} {s : Bool} {m : Binary64.Magnitude}
    (hnone : (Binary64.finite s m).toInt64? = none)
    (hclash : ¬ Clash (.int n) (.float (.finite s m))) :
    (rounded n.toInt < Binary64.signed s m ↔ n.toInt * one < Binary64.signed s m) ∧
      (Binary64.signed s m < rounded n.toInt ↔ Binary64.signed s m < n.toInt * one) := by
  have hne : rounded n.toInt ≠ Binary64.signed s m :=
    fun h => hclash (Binary64.rounded_eq_signed hnone h)
  have hshort := Binary64.short_signed s m
  constructor
  · constructor
    · intro hless
      exact (not_le.mp fun hle => absurd (Binary64.le_rounded hshort hle) (not_le.mpr hless))
    · exact fun hless => lt_of_le_of_ne (Binary64.rounded_le hshort hless.le) hne
  · constructor
    · intro hless
      exact (not_le.mp fun hle => absurd (Binary64.rounded_le hshort hle) (not_le.mpr hless))
    · exact fun hless => lt_of_le_of_ne (Binary64.le_rounded hshort hless.le) hne.symm

/-- Numbers that do not clash are compared as they stand on the line. -/
theorem compare_places (hv : v.place? = some p) (hw : w.place? = some q) (h : ¬ Clash v w)
    (op : CompareOp) : compare op v w = .ok (op.tells (orderInt p q)) := by
  obtain ⟨x, a, hx, ha, hvalue⟩ := float_of_place hv
  obtain ⟨y, b, hy, hb, hvalue'⟩ := float_of_place hw
  by_cases hints : (∃ m, v.asInt = some m) ∧ ∃ n, w.asInt = some n
  · obtain ⟨⟨m, hm⟩, n, hn⟩ := hints
    rw [compare_ints hx hy hm hn op, place_of_int hv hm, place_of_int hw hn, orderInt_scale]
  · have hint : v.asInt = none ∨ w.asInt = none := none_of_not_both hints
    suffices horder : orderInt a b = orderInt p q by
      rw [compare_floats hx hy hint ha hb op, horder]
    obtain ⟨n, rfl, rfl⟩ | ⟨s, m, rfl, rfl⟩ := hvalue
    · obtain ⟨n', rfl, -⟩ | ⟨s, m, rfl, rfl⟩ := hvalue'
      · exact hint.elim nofun nofun
      · obtain rfl := Option.some.inj hv
        obtain rfl := Option.some.inj hw
        obtain ⟨hless, hgreater⟩ := order_rounded (hint.resolve_left nofun) h
        exact orderInt_congr hless hgreater
    · obtain ⟨n, rfl, rfl⟩ | ⟨s', m', rfl, rfl⟩ := hvalue'
      · obtain rfl := Option.some.inj hv
        obtain rfl := Option.some.inj hw
        obtain ⟨hless, hgreater⟩ := order_rounded (hint.resolve_right nofun) h
        exact orderInt_congr hgreater hless
      · rfl

theorem clash_cases (h : Clash v w) : ∃ n x, 9223372036854775296 ≤ n.toInt ∧
    x.toInt? = some 9223372036854775808 ∧
      (v = .int n ∧ w = .float x ∨ v = .float x ∧ w = .int n) := by
  cases v with
  | int n =>
    cases w with
    | float x => exact ⟨n, x, h.1, h.2, .inl ⟨rfl, rfl⟩⟩
    | int | str | bool | err => exact h.elim
  | float x =>
    cases w with
    | int n => exact ⟨n, x, h.1, h.2, .inr ⟨rfl, rfl⟩⟩
    | float | str | bool | err => exact h.elim
  | str | bool | err => cases w <;> exact h.elim

/-- Where two numbers clash, the float stands where the integer is rounded to. -/
theorem clash_place {n : Int64} {x : Binary64} (hn : 9223372036854775296 ≤ n.toInt)
    (hx : x.toInt? = some 9223372036854775808) :
    x.position? = some (rounded n.toInt) ∧ x.toInt64? = none := by
  have hend : rounded n.toInt = 9223372036854775808 * one :=
    (Binary64.rounded_eq_end_iff n.toInt_lt).mpr hn
  cases x with
  | nan | infinite => cases hx
  | finite s m =>
    refine ⟨?_, by rw [Binary64.toInt64?, hx]; rfl⟩
    rw [hend, ← Binary64.toInt_eq_some_iff.mp hx]
    rfl

/-- Numbers that clash are compared as if they were equal. -/
theorem compare_clash (h : Clash v w) (op : CompareOp) : compare op v w = .ok (op.tells .eq) := by
  have hself (a : Int) : orderInt a a = .eq := (orderInt_iff a a).2.1.mpr rfl
  obtain ⟨n, x, hn, hx, ⟨rfl, rfl⟩ | ⟨rfl, rfl⟩⟩ := clash_cases h
  · obtain ⟨hplace, hnone⟩ := clash_place hn hx
    rw [compare_floats (v := .int n) (w := .float x) rfl rfl (.inr hnone)
      (Binary64.position_of_int64 n) hplace op, hself]
  · obtain ⟨hplace, hnone⟩ := clash_place hn hx
    rw [compare_floats (v := .float x) (w := .int n) rfl rfl (.inl hnone) hplace
      (Binary64.position_of_int64 n) op, hself]

end Places

theorem one_cast_pos : (0 : ℚ) < one := Nat.cast_pos.mpr Binary64.one_pos

theorem exact_eq_some_iff {a : ℚ} :
    v.exactValue? = some a ↔ ∃ p, v.place? = some p ∧ (p : ℚ) / one = a := by
  have hint (n : Int64) : (n.toInt : ℚ) = ((n.toInt * one : Int) : ℚ) / one := by
    rw [Int.cast_mul, Int.cast_natCast, mul_div_cancel_right₀ _ one_cast_pos.ne']
  cases v with
  | str | bool | err => simp only [exactValue?, place?, reduceCtorEq, false_and, exists_false]
  | int n => simp only [exactValue?, place?, Option.some_inj, exists_eq_left', hint n]
  | float x =>
    cases x with
    | nan | infinite => simp only [exactValue?, place?, reduceCtorEq, false_and, exists_false]
    | finite s m => simp only [exactValue?, place?, Option.some_inj, exists_eq_left']

/-- The exact value of a whole float is the integer that it is. -/
theorem exact_of_whole {x : Binary64} {k : Int} (h : x.toInt? = some k) :
    (Literal.float x).exactValue? = some (k : ℚ) := by
  cases x with
  | nan | infinite => cases h
  | finite s m =>
    rw [exactValue?, Binary64.toInt_eq_some_iff.mp h, Int.cast_mul, Int.cast_natCast,
      mul_div_cancel_right₀ _ one_cast_pos.ne']

theorem holds_eq_tells (op : CompareOp) (p q : Int) {unit : Nat} (h : 0 < unit) :
    op.holds ((p : ℚ) / unit) ((q : ℚ) / unit) = op.tells (orderInt p q) := by
  obtain ⟨hlt, heq, hgt⟩ := orderInt_iff p q
  have hunit : (0 : ℚ) < unit := Nat.cast_pos.mpr h
  have hless (p q : Int) : (p : ℚ) / unit < q / unit ↔ p < q := by
    rw [div_lt_div_iff_of_pos_right hunit, Int.cast_lt]
  have hsame : (p : ℚ) / unit = q / unit ↔ p = q := by
    rw [div_left_inj' hunit.ne', Int.cast_inj]
  cases op <;>
    simp only [CompareOp.holds, CompareOp.tells, ← not_lt, ne_eq, hlt, heq, hgt, hless, hsame]

/-- Numbers that do not clash are compared exactly. -/
theorem compare_exact {a b : ℚ} (hv : v.exactValue? = some a) (hw : w.exactValue? = some b)
    (h : ¬ Clash v w) (op : CompareOp) : compare op v w = .ok (op.holds a b) := by
  obtain ⟨p, hp, rfl⟩ := exact_eq_some_iff.mp hv
  obtain ⟨q, hq, rfl⟩ := exact_eq_some_iff.mp hw
  rw [compare_places hp hq h, holds_eq_tells op p q Binary64.one_pos]

/-- Numbers that clash are not equal. -/
theorem exact_ne_of_clash {a b : ℚ} (hv : v.exactValue? = some a) (hw : w.exactValue? = some b)
    (h : Clash v w) : a ≠ b := by
  have hless (n : Int64) : (n.toInt : ℚ) ≠ (9223372036854775808 : Int) :=
    Int.cast_injective.ne n.toInt_lt.ne
  obtain ⟨n, x, -, hx, ⟨rfl, rfl⟩ | ⟨rfl, rfl⟩⟩ := clash_cases h
  · rw [exact_of_whole hx] at hw
    obtain rfl := Option.some.inj hv
    obtain rfl := Option.some.inj hw
    exact hless n
  · rw [exact_of_whole hx] at hv
    obtain rfl := Option.some.inj hv
    obtain rfl := Option.some.inj hw
    exact (hless n).symm

/-- Equality and order pass on over a number that clashes with neither of two others. -/
theorem compare_trans {u : Literal} {a b c : ℚ} (hv : v.exactValue? = some a) (hw : w.exactValue? = some b)
    (hu : u.exactValue? = some c) (hvw : ¬ Clash v w) (hwu : ¬ Clash w u) {op : CompareOp}
    (hop : op = .eq ∨ op = .le) (h : compare op v w = .ok true) (h' : compare op w u = .ok true) :
    compare op v u = .ok true := by
  by_cases hclash : Clash v u
  · rw [compare_clash hclash]
    rcases hop with rfl | rfl <;> rfl
  · rw [compare_exact hv hw hvw, Except.ok.injEq] at h
    rw [compare_exact hw hu hwu, Except.ok.injEq] at h'
    rw [compare_exact hv hu hclash, Except.ok.injEq]
    rcases hop with rfl | rfl
    · simp only [CompareOp.holds, decide_eq_true_eq] at h h' ⊢
      exact h.trans h'
    · simp only [CompareOp.holds, decide_eq_true_eq] at h h' ⊢
      exact h.trans h'

end Literal

open Literal

/-- A comparison of integers and finite floats, whatever expressions they are the values of, tells what is
true of their exact values, for every operator, exactly if the two do not clash; if they do, it takes them
for equal. Equality and order are passed on over every number that clashes with neither side. -/
theorem comparisons_exact_iff {scope : Scope} {left right : Expr} {v w : Literal} {a b : ℚ}
    (hleft : (left.value scope).outcome = .ok v) (hright : (right.value scope).outcome = .ok w)
    (hv : v.exactValue? = some a) (hw : w.exactValue? = some b) (span : Span) :
    ((∀ op, ((Expr.compare span op left right).value scope).outcome = .ok (.bool (op.holds a b))) ↔
      ¬ Clash v w) ∧
    (Clash v w → ∀ op,
      ((Expr.compare span op left right).value scope).outcome = .ok (.bool (op.holds a a))) ∧
    ∀ u c, u.exactValue? = some c → ¬ Clash v w → ¬ Clash w u → ∀ op, op = .eq ∨ op = .le →
      Literal.compare op v w = .ok true → Literal.compare op w u = .ok true →
        Literal.compare op v u = .ok true := by
  have hvalue (op : CompareOp) {c : Bool} (h : Literal.compare op v w = .ok c) :
      ((Expr.compare span op left right).value scope).outcome = .ok (.bool c) := by
    rw [Expr.value_compare, Evaluation.bind_of_ok hleft, Evaluation.bind_of_ok hright, h]
    rfl
  have hself (op : CompareOp) : op.tells .eq = op.holds a a := by
    cases op <;> simp [CompareOp.tells, CompareOp.holds]
  refine ⟨⟨fun hall hclash => ?_, fun h op => hvalue op (compare_exact hv hw h op)⟩,
    fun h op => hvalue op (hself op ▸ compare_clash h op),
    fun u c hu hvw hwu op hop h h' => compare_trans hv hw hu hvw hwu hop h h'⟩
  have hequal := (hall .eq).symm.trans (hvalue .eq (compare_clash hclash .eq))
  simp only [Except.ok.injEq, Literal.bool.injEq, CompareOp.tells, CompareOp.holds] at hequal
  exact exact_ne_of_clash hv hw hclash (of_decide_eq_true (hequal.trans (by rfl)))

/-- An integer and the float one less, which is the float that the integer is rounded to. -/
theorem comparisons_exact_iff_nearest :
    ∃ x, Literal.exactValue? (.float x) = some 9007199254740992 ∧
      (Binary64.ofInt 9007199254740993).same x = true ∧
      ∀ op, ((Expr.compare ⟨0, 3⟩ op (.constant ⟨0, 1⟩ (.int 9007199254740993))
          (.constant ⟨2, 3⟩ (.float x))).value ⟨NameMap.empty, NameMap.empty⟩).outcome =
        .ok (.bool (op.holds 9007199254740993 9007199254740992)) := by
  refine ⟨Binary64.ofInt 9007199254740992, exact_of_whole (by decide +kernel), by decide +kernel, ?_⟩
  have hclash : ¬ Clash (.int 9007199254740993) (.float (Binary64.ofInt 9007199254740992)) :=
    fun h => absurd h.1 (by decide)
  have hvalue (span : Span) (v : Literal) :
      ((Expr.constant span v).value ⟨NameMap.empty, NameMap.empty⟩).outcome = .ok v := rfl
  exact (comparisons_exact_iff (hvalue ⟨0, 1⟩ _) (hvalue ⟨2, 3⟩ _) rfl
    (exact_of_whole (by decide +kernel)) ⟨0, 3⟩).1.mpr hclash

/-- The greatest integer is taken for equal to the float just behind it, and so is the integer before it;
the two integers are not. -/
theorem greatest_integers_clash :
    Engine.standard.evaluate "9223372036854775807 == 9223372036854775808" NameMap.empty =
        .ok (.bool true) ∧
      ∃ x, Literal.exactValue? (.float x) = some 9223372036854775808 ∧
        Literal.compare .eq (.int 9223372036854775807) (.float x) = .ok true ∧
        Literal.compare .eq (.float x) (.int 9223372036854775806) = .ok true ∧
        Literal.compare .eq (.int 9223372036854775807) (.int 9223372036854775806) = .ok false :=
  ⟨by decide +kernel, Binary64.ofInt 9223372036854775808, exact_of_whole (by decide +kernel),
    by decide +kernel, by decide +kernel, by decide +kernel⟩

end Formula
