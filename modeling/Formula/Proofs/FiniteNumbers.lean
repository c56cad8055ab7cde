import Formula.Function.Math
import Formula.Operation
import Formula.Proofs.DepthLimit

namespace Formula

namespace Binary64

/-- Rounding at most doubles a number of units, or makes one of less than one. -/
theorem roundUnits_le (num den : Nat) : roundUnits num den ≤ 2 * (num / den) + 1 := by
  rw [roundUnits]
  have hulp : Nat.pow 2 ((num / den).log2 - 52) ≤ num / den + 1 := by
    by_cases hzero : num / den = 0
    · rw [hzero]
      decide
    · have hlog : 2 ^ (num / den).log2 ≤ num / den := Nat.log2_self_le hzero
      have hless : 2 ^ ((num / den).log2 - 52) ≤ 2 ^ (num / den).log2 :=
        Nat.pow_le_pow_right (by decide) (Nat.sub_le _ 52)
      exact Nat.le_succ_of_le (hless.trans hlog)
  generalize Nat.pow 2 ((num / den).log2 - 52) = ulp at hulp
  have hnearest : divNearest num (den * ulp) ≤ num / den / ulp + 1 := by
    apply divNearest_le
    rw [Nat.div_div_eq_div_mul]
    exact Nat.lt_succ_self _
  calc divNearest num (den * ulp) * ulp
      ≤ (num / den / ulp + 1) * ulp := Nat.mul_le_mul_right ulp hnearest
    _ = num / den / ulp * ulp + ulp := Nat.succ_mul _ _
    _ ≤ num / den + (num / den + 1) := Nat.add_le_add (Nat.div_mul_le_self _ _) hulp
    _ = 2 * (num / den) + 1 := by omega

theorem finite_round {num den : Nat} (negative : Bool) (h : 2 * (num / den) + 1 < limit) :
    (round negative num den).isFinite = true := by
  rw [round, dif_pos (Nat.lt_of_le_of_lt (roundUnits_le num den) h)]
  rfl

/-- An integer of 64 bits is near a finite number. -/
theorem finite_of_int64 (n : Int64) : (ofInt n.toInt).isFinite = true := by
  have hsize : n.toInt.natAbs ≤ 2 ^ 63 := by
    have := n.le_toInt
    have := n.toInt_lt
    omega
  have hunits : n.toInt.natAbs * one ≤ 2 ^ 63 * one := Nat.mul_le_mul_right one hsize
  have hlimit : 2 * (2 ^ 63 * one) + 1 < limit := by decide +kernel
  apply finite_round
  rw [Nat.div_one]
  omega

@[simp] theorem finite_neg (x : Binary64) : x.neg.isFinite = x.isFinite := by
  cases x <;> rfl

@[simp] theorem finite_abs (x : Binary64) : x.abs.isFinite = x.isFinite := by
  cases x <;> rfl

theorem finite_of_text {cs : List Char} {x : Binary64} (h : finite? cs = some x) :
    x.isFinite = true :=
  (Option.filter_eq_some_iff.mp h).2

end Binary64

namespace Literal

def Finite : Literal → Prop
  | float x => x.isFinite = true
  | _ => True

/-- A value that operations make: no error, and if it is a float a finite one. -/
structure Sound (v : Literal) : Prop where
  no_error : v.errorState = none
  finite : v.Finite

theorem sound_int (n : Int64) : (int n).Sound := ⟨rfl, trivial⟩

theorem sound_str (s : String) : (str s).Sound := ⟨rfl, trivial⟩

theorem sound_bool (b : Bool) : (bool b).Sound := ⟨rfl, trivial⟩

theorem sound_float {x : Binary64} (h : x.isFinite = true) : (float x).Sound := ⟨rfl, h⟩

theorem Finite.asFloat {v : Literal} {x : Binary64} (h : v.Finite) (hx : v.asFloat = some x) :
    x.isFinite = true := by
  cases v with
  | int n =>
    obtain rfl := Option.some.inj hx
    exact Binary64.finite_of_int64 n
  | float y =>
    obtain rfl := Option.some.inj hx
    exact h
  | str s => exact Binary64.finite_of_text hx
  | bool | err => cases hx

variable {v w u : Literal}

theorem sound_ofFloat {x : Binary64} (h : ofFloat x = .ok v) : v.Sound := by
  rw [ofFloat] at h
  split at h
  · next hx =>
    obtain rfl := Except.ok.inj h
    exact sound_float hx
  · cases h

theorem sound_floatArith {op : ArithOp} (h : floatArith op v w = .ok u) : u.Sound := by
  rw [floatArith] at h
  split at h
  · split at h
    · cases h
    · exact sound_ofFloat h
  · cases h

theorem sound_arith {op : ArithOp} (h : arith op v w = .ok u) : u.Sound := by
  rw [arith] at h
  split at h
  · cases h
  · split at h
    · split at h
      · cases h
      · split at h
        · obtain rfl := Except.ok.inj h
          exact sound_int _
        · exact sound_floatArith h
    · exact sound_floatArith h

theorem sound_negate (h : negate v = .ok w) : w.Sound := by
  rw [negate] at h
  split at h
  · cases h
  · split at h
    · next a _ =>
      split at h
      · obtain rfl := Except.ok.inj h
        exact sound_int _
      · obtain rfl := Except.ok.inj h
        exact sound_float (by rw [Binary64.finite_neg]; exact Binary64.finite_of_int64 a)
    · split at h
      · exact sound_ofFloat h
      · cases h

theorem sound_not (h : not v = .ok w) : w.Sound := by
  rw [not] at h
  split at h
  · cases h
  · split at h
    · obtain rfl := Except.ok.inj h
      exact sound_bool _
    · cases h

theorem sound_unary {op : UnaryOp} (h : unary op v = .ok w) : w.Sound := by
  cases op with
  | neg => exact sound_negate h
  | not => exact sound_not h

end Literal

namespace Function

open Literal

def KeepsFinite (f : Function) : Prop :=
  ∀ args v, (∀ a ∈ args, Sound a) → f.call args = .ok v → v.Finite

variable {args : List Literal} {v : Literal}

/-- An argument of the standard functions that is no infinity and no NaN is a finite number. -/
theorem finite_argument {x : Binary64} (h : v.Finite) (hx : floatArgument v = .ok x) :
    x.isFinite = true := by
  rw [floatArgument] at hx
  split at hx
  · next y hy =>
    obtain rfl := Except.ok.inj hx
    exact h.asFloat hy
  · cases hx

theorem finite_arguments {vs : List Literal} {xs : List Binary64} (h : ∀ v ∈ vs, v.Finite)
    (hxs : vs.mapM floatArgument = .ok xs) : ∀ x ∈ xs, x.isFinite = true := by
  induction vs generalizing xs with
  | nil =>
    obtain rfl := Except.ok.inj hxs
    exact fun x hx => nomatch hx
  | cons v vs ih =>
    obtain ⟨hv, hvs⟩ := List.forall_mem_cons.mp h
    rw [List.mapM_cons] at hxs
    obtain ⟨x, hx, hxs⟩ := bind_eq_ok.mp hxs
    obtain ⟨xs', hxs', hpure⟩ := bind_eq_ok.mp hxs
    obtain rfl := Except.ok.inj hpure
    exact List.forall_mem_cons.mpr ⟨finite_argument hv hx, ih hvs hxs'⟩

/-- What is taken out of a row of numbers one by one is one of them. -/
theorem finite_foldl {replaces : Binary64 → Binary64 → Bool} {xs : List Binary64} {x : Binary64}
    (h : x.isFinite = true) (hxs : ∀ y ∈ xs, y.isFinite = true) :
    (xs.foldl (fun best y => if replaces y best then y else best) x).isFinite = true := by
  induction xs generalizing x with
  | nil => exact h
  | cons y ys ih =>
    obtain ⟨hy, hys⟩ := List.forall_mem_cons.mp hxs
    rw [List.foldl_cons]
    apply ih _ hys
    split
    · exact hy
    · exact h

theorem roundTo_keepsFinite : KeepsFinite ⟨roundTo, false⟩ := by
  intro args v _ h
  simp only [roundTo] at h
  split at h
  · split at h
    · cases h
    · split at h
      · cases h
      · split at h
        · split at h
          · next hfinite =>
            obtain rfl := Except.ok.inj h
            exact hfinite
          · cases h
        · cases h
  · cases h

theorem absolute_keepsFinite : KeepsFinite ⟨absolute, false⟩ := by
  intro args v hargs h
  simp only [absolute] at h
  split at h
  · next w =>
    split at h
    · obtain rfl := Except.ok.inj h
      trivial
    · cases hx : floatArgument w with
      | error message =>
        rw [hx] at h
        cases h
      | ok x =>
        rw [hx] at h
        obtain rfl := Except.ok.inj h
        have hw : w.Finite := (hargs w List.mem_cons_self).finite
        exact (Binary64.finite_abs x).trans (finite_argument hw hx)
  · cases h

theorem extreme_keepsFinite (replacesInt : Int → Int → Bool)
    (replacesFloat : Binary64 → Binary64 → Bool) :
    KeepsFinite ⟨extreme replacesInt replacesFloat, false⟩ := by
  intro args v hargs h
  cases args with
  | nil => cases h
  | cons w ws =>
    obtain ⟨hw, hws⟩ := List.forall_mem_cons.mp hargs
    simp only [extreme] at h
    split at h
    · obtain rfl := Except.ok.inj h
      trivial
    · split at h
      · cases h
      · cases h
      · next x xs hx hxs =>
        obtain rfl := Except.ok.inj h
        exact finite_foldl (finite_argument hw.finite hx)
          (finite_arguments (fun u hu => (hws u hu).finite) hxs)

/-- The standard functions keep to finite numbers. -/
theorem standard_keepsFinite {name : String} {f : Function}
    (h : Registry.standard.get? name = some f) : f.KeepsFinite := by
  have hmem : (name, f) ∈ standardList := NameMap.mem_of_mem_ofList (NameMap.mem_entries_of_get h)
  have hall : ∀ entry ∈ standardList, KeepsFinite entry.2 := by
    simp only [standardList, List.forall_mem_cons]
    exact ⟨roundTo_keepsFinite, absolute_keepsFinite, extreme_keepsFinite _ _,
      extreme_keepsFinite _ _, fun _ h => nomatch h⟩
  exact hall _ hmem

end Function

end Formula
