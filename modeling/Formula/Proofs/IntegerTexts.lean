import Formula.Proofs.FiniteNumbers
import Formula.Proofs.LiteralText
import Mathlib.Data.List.Forall2

namespace Formula

/-- What starts with a digit has no sign. -/
theorem splitSign_digit {c : Char} (h : c.isDigit = true) (cs : List Char) :
    splitSign (c :: cs) = (false, c :: cs) := by
  rw [splitSign]
  all_goals
    rintro cs he
    obtain ⟨rfl, -⟩ := List.cons.inj he
    cases h

/-- A number without sign starts with a digit. -/
theorem splitSign_decimal (n : Nat) : splitSign (decimal n) = (false, decimal n) := by
  obtain ⟨d, ds, hcons, hd, -⟩ := exists_decimal_eq_cons n
  rw [hcons]
  exact splitSign_digit hd ds

/-- The text of an integer is its sign, where that is a minus, and its digits. -/
theorem splitSign_repr (z : Int) :
    splitSign (Int.repr z).toList = (decide (z < 0), decimal z.natAbs) := by
  cases z with
  | ofNat n =>
    have htext : (Int.repr (.ofNat n)).toList = decimal n := Nat.toList_repr
    rw [htext, splitSign_decimal]
    rfl
  | negSucc n =>
    have htext : (Int.repr (.negSucc n)).toList = '-' :: decimal (n + 1) := by
      rw [Int.repr, String.toList_append, Nat.toList_repr]
      rfl
    rw [htext, splitSign]
    simp

theorem readDigits_decimal (n : Nat) : readDigits (decimal n) = some n := by
  have hall : (decimal n).all Char.isDigit = true := List.all_eq_true.mpr decimal_digits
  have hnil : (decimal n).isEmpty = false :=
    List.isEmpty_eq_false_iff.mpr (Nat.toDigits_ne_nil (b := 10) (n := n))
  rw [readDigits, hall, hnil, radixValue_decimal]
  rfl

/-- The text of an integer is read as the integer. -/
theorem readInt_repr (z : Int) : readInt (Int.repr z).toList = some z := by
  have hsign : (if decide (z < 0) = true then -(z.natAbs : Int) else z.natAbs) = z := by
    simp only [decide_eq_true_eq]
    split <;> omega
  simp only [readInt, splitSign_repr, readDigits_decimal]
  exact congrArg some hsign

/-- Digits alone are a decimal without a fraction. -/
theorem read_decimal_of_digits {cs ds : List Char} {negative : Bool} (hsign : splitSign cs = (negative, ds))
    (hne : ds ≠ []) (hall : ∀ c ∈ ds, c.isDigit = true) :
    Decimal.read cs = some ⟨negative, radixValue 10 ds, 0⟩ := by
  have hwhole : ds.takeWhile Char.isDigit = ds := List.takeWhile_eq_self_iff.mpr hall
  have hrest : ds.dropWhile Char.isDigit = [] := List.dropWhile_eq_nil_iff.mpr hall
  obtain ⟨d, rest, rfl⟩ := List.exists_cons_of_ne_nil hne
  simp only [Decimal.read, hsign, hwhole, hrest, List.append_nil]
  rfl

/-- The text of an integer is read as a decimal without a fraction. -/
theorem read_decimal_repr (z : Int) :
    Decimal.read (Int.repr z).toList = some ⟨decide (z < 0), z.natAbs, 0⟩ := by
  rw [read_decimal_of_digits (splitSign_repr z) Nat.toDigits_ne_nil decimal_digits, radixValue_decimal]

namespace Binary64

/-- A decimal without a fraction is rounded as the integer is. -/
theorem ofDecimal_int (z : Int) : ofDecimal ⟨decide (z < 0), z.natAbs, 0⟩ = ofInt z := by
  by_cases hzero : z = 0
  · rw [hzero]
    decide +kernel
  · have hpos : z.natAbs ≠ 0 := Int.natAbs_ne_zero.mpr hzero
    rw [ofInt, ofDecimal]
    simp [hpos]

/-- The text of an integer of 64 bits is the finite number that the integer is as a float. -/
theorem finite_repr (n : Int64) : finite? (Int.repr n.toInt).toList = some (ofInt n.toInt) := by
  rw [finite?, read_decimal_repr, Option.map_some, ofDecimal_int,
    Option.filter_some_pos (finite_of_int64 n)]

end Binary64

theorem int64_of_toInt (n : Int64) : int64? n.toInt = some n := by
  have hlow : -9223372036854775808 ≤ n.toInt := n.le_toInt
  have hhigh : n.toInt ≤ 9223372036854775807 := n.toInt_le
  rw [int64?, if_pos ⟨hlow, hhigh⟩, Int64.ofInt_toInt]

namespace Literal

/-- Two values that are the same to every operation: as numbers, as truth values, as errors and as text. -/
structure Interchangeable (v w : Literal) : Prop where
  asInt : v.asInt = w.asInt
  asIntOperand : v.asIntOperand = w.asIntOperand
  asFloat : v.asFloat = w.asFloat
  asBool : v.asBool = w.asBool
  errorState : v.errorState = w.errorState
  text : v.text = w.text

theorem Interchangeable.refl (v : Literal) : v.Interchangeable v := ⟨rfl, rfl, rfl, rfl, rfl, rfl⟩

/-- An integer and its decimal text are the same to every operation. -/
theorem interchangeable_repr (n : Int64) : (int n).Interchangeable (str (Int.repr n.toInt)) := by
  have hint : (str (Int.repr n.toInt)).asInt = some n := by
    rw [Literal.asInt, readInt_repr, Option.bind_some, int64_of_toInt]
    rfl
  exact {
    asInt := hint.symm
    asIntOperand := hint.symm
    asFloat := (Binary64.finite_repr n).symm
    asBool := rfl
    errorState := rfl
    text := rfl }

variable {v v' w w' : Literal}

/-- Equality sees no more of two values than their conversions show. -/
theorem equal_eq (v w : Literal) : equal v w =
    match propagatedOf? v w with
    | some kind => .error kind
    | none => .ok <|
      match v.asBool, w.asBool with
      | some a, some b => a = b
      | none, none =>
        match v.asInt, w.asInt with
        | some a, some b => a = b
        | _, _ => match v.asFloat, w.asFloat with
          | some x, some y => x.same y
          | _, _ => v.text = w.text
      | _, _ => false := by
  cases v <;> cases w <;> rfl

theorem Interchangeable.propagated (h : v.Interchangeable w) : v.propagated? = w.propagated? := by
  rw [propagated?, propagated?, h.errorState]

theorem Interchangeable.below (h : v.Interchangeable w) (length : Nat) :
    v.below? length = w.below? length := by
  rw [below?, below?, h.asInt]

theorem Interchangeable.unary (h : v.Interchangeable w) (op : UnaryOp) :
    Literal.unary op v = Literal.unary op w := by
  cases op with
  | neg => simp only [Literal.unary, negate, h.propagated, h.asIntOperand, h.asFloat]
  | not => simp only [Literal.unary, Literal.not, h.propagated, h.asBool]

theorem Interchangeable.truth (h : v.Interchangeable w) : v.truth = w.truth := by
  rw [Literal.truth, Literal.truth, h.propagated, h.asBool]

theorem Interchangeable.propagatedOf (h : v.Interchangeable w) (h' : v'.Interchangeable w') :
    propagatedOf? v v' = propagatedOf? w w' := by
  rw [propagatedOf?, propagatedOf?, h.propagated, h'.propagated]

theorem Interchangeable.arith (h : v.Interchangeable w) (h' : v'.Interchangeable w')
    (op : ArithOp) : Literal.arith op v v' = Literal.arith op w w' := by
  have hfloat : floatArith op v v' = floatArith op w w' := by
    rw [floatArith, floatArith, h.asFloat, h'.asFloat]
  rw [Literal.arith, Literal.arith, h.propagatedOf h', h.asIntOperand, h'.asIntOperand, hfloat]

theorem Interchangeable.compare (h : v.Interchangeable w) (h' : v'.Interchangeable w')
    (op : CompareOp) : Literal.compare op v v' = Literal.compare op w w' := by
  have hequal : equal v v' = equal w w' := by
    rw [equal_eq, equal_eq, h.propagatedOf h', h.asBool, h'.asBool, h.asInt, h'.asInt, h.asFloat,
      h'.asFloat, h.text, h'.text]
  have horder : order v v' = order w w' := by
    rw [order, order, h.propagatedOf h', h.asInt, h'.asInt, h.asFloat, h'.asFloat]
  cases op <;> simp only [Literal.compare, hequal, horder]

end Literal

namespace Function

open Literal

def Blind (f : Function) : Prop :=
  ∀ args args', List.Forall₂ Interchangeable args args' → f.call args = f.call args'

theorem floatArgument_congr {v w : Literal} (h : v.Interchangeable w) :
    floatArgument v = floatArgument w := by
  rw [floatArgument, floatArgument, h.asFloat]

theorem map_congr {m : Type → Type} [Monad m] [LawfulMonad m] {α : Type} {f : Literal → m α}
    (hf : ∀ v w, Interchangeable v w → f v = f w) {vs ws : List Literal}
    (h : List.Forall₂ Interchangeable vs ws) : vs.mapM f = ws.mapM f := by
  induction h with
  | nil => rfl
  | cons hv _ ih => rw [List.mapM_cons, List.mapM_cons, hf _ _ hv, ih]

theorem roundTo_blind : Blind ⟨roundTo, false⟩ := by
  intro args args' h
  cases h with
  | nil => rfl
  | cons hv h =>
    cases h with
    | nil => rfl
    | cons hw h =>
      cases h with
      | nil => simp only [roundTo, floatArgument_congr hv, hw.asInt]
      | cons _ h => simp only [roundTo, List.length_cons, h.length_eq]

theorem absolute_blind : Blind ⟨absolute, false⟩ := by
  intro args args' h
  cases h with
  | nil => rfl
  | cons hv h =>
    cases h with
    | nil => simp only [absolute, floatArgument_congr hv, hv.asIntOperand]
    | cons _ h => simp only [absolute, List.length_cons, h.length_eq]

theorem extreme_blind (replacesInt : Int → Int → Bool)
    (replacesFloat : Binary64 → Binary64 → Bool) :
    Blind ⟨extreme replacesInt replacesFloat, false⟩ := by
  intro args args' h
  cases h with
  | nil => rfl
  | cons hv h =>
    have hints := map_congr (fun _ _ hv => hv.asIntOperand) h
    have hfloats := map_congr (fun _ _ hv => floatArgument_congr hv) h
    simp only [extreme, hv.asIntOperand, hints, floatArgument_congr hv, hfloats]

/-- The standard functions do not tell an integer from its text. -/
theorem standard_blind {name : String} {f : Function}
    (h : Registry.standard.get? name = some f) : f.Blind := by
  have hmem : (name, f) ∈ standardList := NameMap.mem_of_mem_ofList (NameMap.mem_entries_of_get h)
  have hall : ∀ entry ∈ standardList, Blind entry.2 := by
    simp only [standardList, List.forall_mem_cons]
    exact ⟨roundTo_blind, absolute_blind, extreme_blind _ _, extreme_blind _ _,
      List.forall_mem_nil _⟩
  exact hall _ hmem

end Function

end Formula
