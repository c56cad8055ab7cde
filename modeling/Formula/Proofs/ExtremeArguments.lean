import Formula.Proofs.ArithmeticResults

/-!
The least and the greatest of some arguments. Integers alone have one of them as their extremum; as soon as
one argument is no integer all of them are taken as floats. The order of the arguments does not matter, but
for the sign of a zero. Integers that are rounded on the way are compared with the result by what they are,
so the result may be less than the greatest of them.
-/

namespace Formula

namespace Function

open Literal

inductive Extremum
  | least
  | greatest

namespace Extremum

def pick : Extremum → List Literal → Except String Literal
  | least => Function.least
  | greatest => Function.greatest

def op : Extremum → CompareOp
  | least => .le
  | greatest => .ge

def Bounds : Extremum → Int → Int → Prop
  | least, a, b => a ≤ b
  | greatest, a, b => b ≤ a

variable {e : Extremum} {a b c : Int}

theorem Bounds.refl (e : Extremum) (a : Int) : e.Bounds a a := by
  cases e <;> exact Int.le_refl a

theorem Bounds.trans (h : e.Bounds a b) (h' : e.Bounds b c) : e.Bounds a c := by
  cases e with
  | least => exact Int.le_trans h h'
  | greatest => exact Int.le_trans h' h

theorem Bounds.antisymm (h : e.Bounds a b) (h' : e.Bounds b a) : a = b := by
  cases e with
  | least => exact Int.le_antisymm h h'
  | greatest => exact Int.le_antisymm h' h

theorem Bounds.of_not (h : ¬ e.Bounds a b) : e.Bounds b a := by
  cases e with
  | least => exact (Int.not_le.mp h).le
  | greatest => exact (Int.not_le.mp h).le

/-- The comparison is true of two places just if the first bounds the second. -/
theorem tells_iff : e.op.tells (orderInt a b) = true ↔ e.Bounds a b := by
  obtain ⟨hlt, -, hgt⟩ := orderInt_iff a b
  cases e with
  | least => simp only [op, CompareOp.tells, Bounds, ne_eq, hgt, decide_eq_true_eq, not_lt]
  | greatest => simp only [op, CompareOp.tells, Bounds, ne_eq, hlt, decide_eq_true_eq, not_lt]

def replacesInt : Extremum → Int → Int → Bool
  | least, a, b => a < b
  | greatest, a, b => b < a

def replacesFloat : Extremum → Binary64 → Binary64 → Bool
  | least, x, y => x.below y
  | greatest, x, y => y.below x

/-- Both functions are one search. -/
theorem pick_eq (e : Extremum) : e.pick = extreme e.replacesInt e.replacesFloat := by
  cases e <;> rfl

theorem replacesInt_iff : e.replacesInt a b = true ↔ ¬ e.Bounds b a := by
  cases e <;> simp only [replacesInt, Bounds, decide_eq_true_eq, Int.not_le]

theorem replacesFloat_iff {x y : Binary64} (hx : x.position? = some a) (hy : y.position? = some b) :
    e.replacesFloat x y = true ↔ ¬ e.Bounds b a := by
  have hbelow {x y : Binary64} {a b : Int} (hx : x.position? = some a) (hy : y.position? = some b) :
      x.below y = true ↔ a < b := by
    rw [Binary64.below, Binary64.order_eq_of_positions hx hy, decide_eq_true_eq, Option.some_inj]
    exact (orderInt_iff a b).1
  cases e with
  | least => rw [replacesFloat, hbelow hx hy, Bounds, Int.not_le]
  | greatest => rw [replacesFloat, hbelow hy hx, Bounds, Int.not_le]

/-- What no later element of a row replaces is an element that bounds them all. -/
theorem foldl_bounds {α : Type} {replaces : α → α → Bool} (place : α → Int) {first : α} {row : List α}
    (h : ∀ u ∈ first :: row, ∀ v ∈ first :: row, (replaces u v = true ↔ ¬ e.Bounds (place v) (place u))) :
    ∃ best ∈ first :: row,
      row.foldl (fun best u => if replaces u best then u else best) first = best ∧
        ∀ u ∈ first :: row, e.Bounds (place best) (place u) := by
  induction row generalizing first with
  | nil =>
    refine ⟨first, List.mem_singleton_self first, rfl, fun u hu => ?_⟩
    rw [List.mem_singleton.mp hu]
    exact Bounds.refl e _
  | cons second row ih =>
    -- The better one of the first two goes on, and it bounds both.
    obtain ⟨next, hnext, hkept, hfirst, hsecond⟩ : ∃ next, (next = first ∨ next = second) ∧
        (if replaces second first then second else first) = next ∧
          e.Bounds (place next) (place first) ∧ e.Bounds (place next) (place second) := by
      have hreplaces := h second (by simp) first (by simp)
      by_cases hbetter : replaces second first = true
      · exact ⟨second, .inr rfl, if_pos hbetter, .of_not (hreplaces.mp hbetter), .refl e _⟩
      · exact ⟨first, .inl rfl, if_neg hbetter, .refl e _, not_not.mp (mt hreplaces.mpr hbetter)⟩
    have hmem {u : α} (hu : u ∈ next :: row) : u ∈ first :: second :: row := by
      rcases List.mem_cons.mp hu with rfl | hu
      · rcases hnext with rfl | rfl <;> simp
      · exact List.mem_cons_of_mem _ (List.mem_cons_of_mem _ hu)
    obtain ⟨best, hbest, hfold, hall⟩ := ih fun u hu v hv => h u (hmem hu) v (hmem hv)
    refine ⟨best, hmem hbest, by rw [List.foldl_cons, hkept, hfold], fun u hu => ?_⟩
    have hbound := hall next List.mem_cons_self
    rcases List.mem_cons.mp hu with rfl | hu
    · exact hbound.trans hfirst
    · rcases List.mem_cons.mp hu with rfl | hu
      · exact hbound.trans hsecond
      · exact hall u (List.mem_cons_of_mem _ hu)

end Extremum

section Arguments

variable {replacesInt : Int → Int → Bool} {replacesFloat : Binary64 → Binary64 → Bool} {v : Literal}
  {vs : List Literal}

theorem integers_eq (h : ∀ v ∈ vs, ∃ n, v.asIntOperand = some n) :
    vs.mapM asIntOperand = some (vs.filterMap asIntOperand) := by
  induction vs with
  | nil => rfl
  | cons v vs ih =>
    obtain ⟨⟨n, hn⟩, hvs⟩ := List.forall_mem_cons.mp h
    rw [List.mapM_cons, hn, ih hvs, List.filterMap_cons_some hn]
    rfl

theorem integers_missing (h : ∃ v ∈ vs, v.asIntOperand = none) : vs.mapM asIntOperand = none := by
  induction vs with
  | nil => exact absurd h (by simp)
  | cons v vs ih =>
    rw [List.mapM_cons]
    cases hv : v.asIntOperand with
    | none => rfl
    | some n =>
      rw [ih (((List.exists_mem_cons_iff ..).mp h).resolve_left (by simp [hv]))]
      rfl

theorem floats_eq (h : ∀ v ∈ vs, v.Numeric) : vs.mapM floatArgument = .ok (vs.filterMap asFloat) := by
  induction vs with
  | nil => rfl
  | cons v vs ih =>
    obtain ⟨hv, hvs⟩ := List.forall_mem_cons.mp h
    obtain ⟨x, hx⟩ := numeric_iff.mp hv
    rw [List.mapM_cons, floatArgument, hx, ih hvs, List.filterMap_cons_some hx]
    rfl

theorem floats_missing (h : ∃ v ∈ vs, ¬ v.Numeric) :
    vs.mapM floatArgument = .error "can't convert to float" := by
  induction vs with
  | nil => exact absurd h (by simp)
  | cons v vs ih =>
    rw [List.mapM_cons, floatArgument]
    cases hv : v.asFloat with
    | none => rfl
    | some x =>
      have hnumeric : v.Numeric := numeric_iff.mpr ⟨x, hv⟩
      rw [ih (((List.exists_mem_cons_iff ..).mp h).resolve_left (not_not.mpr hnumeric))]
      rfl

/-- Arguments that are all integers are searched as such. -/
theorem extreme_of_ints {n : Int64} (hv : v.asIntOperand = some n)
    (hvs : ∀ u ∈ vs, ∃ k, u.asIntOperand = some k) :
    extreme replacesInt replacesFloat (v :: vs) = .ok (.int ((vs.filterMap asIntOperand).foldl
      (fun best k => if replacesInt k.toInt best.toInt then k else best) n)) := by
  rw [extreme, hv, integers_eq hvs]

/-- As soon as one is no integer, all of them are taken as floats. -/
theorem extreme_of_float (h : ∃ u ∈ v :: vs, u.asIntOperand = none) :
    extreme replacesInt replacesFloat (v :: vs) =
      (floatArgument v).bind fun x => (vs.mapM floatArgument).map fun xs =>
        .float (xs.foldl (fun best y => if replacesFloat y best then y else best) x) := by
  rw [extreme]
  cases hv : v.asIntOperand with
  | none => cases floatArgument v <;> cases vs.mapM floatArgument <;> rfl
  | some n =>
    rw [integers_missing (((List.exists_mem_cons_iff ..).mp h).resolve_left (by simp [hv]))]
    cases floatArgument v <;> cases vs.mapM floatArgument <;> rfl

end Arguments

namespace Extremum

variable {e : Extremum} {args : List Literal}

theorem pick_nil (e : Extremum) : e.pick [] = .error "too few arguments" := by
  rw [pick_eq]
  rfl

/-- An argument that is no number is reported, wherever it stands. -/
theorem pick_missing (h : ∃ v ∈ args, ¬ v.Numeric) : e.pick args = .error "can't convert to float" := by
  cases args with
  | nil => exact absurd h (by simp)
  | cons v vs =>
    have hfloat : ∃ u ∈ v :: vs, u.asIntOperand = none :=
      h.imp fun u hu => ⟨hu.1, (no_operand_of_not_numeric hu.2).2⟩
    rw [pick_eq, extreme_of_float hfloat]
    by_cases hv : v.Numeric
    · obtain ⟨x, hx⟩ := numeric_iff.mp hv
      have hlater := floats_missing (((List.exists_mem_cons_iff ..).mp h).resolve_left (not_not.mpr hv))
      rw [floatArgument, hx, hlater]
      rfl
    · rw [floatArgument, (no_operand_of_not_numeric hv).1]
      rfl

/-- Of integers alone the extremum is found exactly. -/
theorem pick_ints (hne : args ≠ []) (h : ∀ v ∈ args, ∃ n, v.asIntOperand = some n) :
    ∃ n, e.pick args = .ok (.int n) ∧ (∃ v ∈ args, v.asIntOperand = some n) ∧
      ∀ v ∈ args, ∀ k, v.asIntOperand = some k → e.Bounds n.toInt k.toInt := by
  obtain ⟨v, vs, rfl⟩ := List.exists_cons_of_ne_nil hne
  obtain ⟨⟨n, hn⟩, hvs⟩ := List.forall_mem_cons.mp h
  obtain ⟨best, hbest, hfold, hall⟩ := foldl_bounds (e := e) Int64.toInt
    (fun u (_ : u ∈ n :: vs.filterMap asIntOperand) k _ => replacesInt_iff)
  rw [← List.filterMap_cons_some hn] at hbest hall
  refine ⟨best, ?_, List.mem_filterMap.mp hbest, fun u hu k hk => hall k (List.mem_filterMap.mpr ⟨u, hu, hk⟩)⟩
  rw [pick_eq, extreme_of_ints hn hvs, hfold]

/-- Of numbers that are not all integers a float is picked, and it is the extremum of their floats unless
one is NaN. -/
theorem pick_floats (h : ∀ v ∈ args, v.Numeric) (hfloat : ∃ v ∈ args, v.asIntOperand = none) :
    ∃ x, e.pick args = .ok (.float x) ∧ ((∀ v ∈ args, v.asFloat ≠ some .nan) →
      ∃ p, x.position? = some p ∧ (∃ v ∈ args, v.asFloat = some x) ∧
        ∀ v ∈ args, ∀ y q, v.asFloat = some y → y.position? = some q → e.Bounds p q) := by
  cases args with
  | nil => exact absurd hfloat (by simp)
  | cons v vs =>
    obtain ⟨hv, hvs⟩ := List.forall_mem_cons.mp h
    obtain ⟨x, hx⟩ := numeric_iff.mp hv
    have hpick : e.pick (v :: vs) = .ok (.float ((vs.filterMap asFloat).foldl
        (fun best y => if e.replacesFloat y best then y else best) x)) := by
      rw [pick_eq, extreme_of_float hfloat, floatArgument, hx, floats_eq hvs]
      rfl
    refine ⟨_, hpick, fun hnan => ?_⟩
    have hplace {y : Binary64} (hy : y ∈ x :: vs.filterMap asFloat) :
        y.position? = some (y.position?.getD 0) := by
      rw [← List.filterMap_cons_some hx] at hy
      obtain ⟨u, hu, hy⟩ := List.mem_filterMap.mp hy
      obtain ⟨a, ha⟩ := Binary64.exists_position fun he => hnan u hu (he ▸ hy)
      rw [ha, Option.getD_some]
    obtain ⟨best, hbest, hfold, hall⟩ := foldl_bounds (e := e) (fun y => y.position?.getD 0)
      (fun y hy z hz => replacesFloat_iff (hplace hy) (hplace hz))
    rw [hfold]
    refine ⟨_, hplace hbest, ?_, fun u hu y q hy hq => ?_⟩
    · rw [← List.filterMap_cons_some hx] at hbest
      exact List.mem_filterMap.mp hbest
    · have hmem : y ∈ x :: vs.filterMap asFloat := by
        rw [← List.filterMap_cons_some hx]
        exact List.mem_filterMap.mpr ⟨u, hu, hy⟩
      simpa only [hq, Option.getD_some] using hall y hmem

theorem not_all_ints (h : ¬ ∀ v ∈ args, ∃ n, v.asIntOperand = some n) :
    ∃ v ∈ args, v.asIntOperand = none := by
  simpa only [not_forall, ← Option.isSome_iff_exists, Option.not_isSome_iff_eq_none, exists_prop] using h

/-- Numbers have an extremum. -/
theorem exists_pick (hne : args ≠ []) (h : ∀ v ∈ args, v.Numeric) : ∃ v, e.pick args = .ok v := by
  by_cases hints : ∀ v ∈ args, ∃ n, v.asIntOperand = some n
  · obtain ⟨n, hn, -⟩ := pick_ints hne hints
    exact ⟨_, hn⟩
  · obtain ⟨x, hx, -⟩ := pick_floats h (not_all_ints hints)
    exact ⟨_, hx⟩

theorem pick_eq_error_iff {message : String} : e.pick args = .error message ↔
    args = [] ∧ message = "too few arguments" ∨
      (∃ v ∈ args, ¬ v.Numeric) ∧ message = "can't convert to float" := by
  by_cases hne : args = []
  · rw [hne, pick_nil, Except.error.injEq]
    simp [eq_comm]
  · by_cases hmissing : ∃ v ∈ args, ¬ v.Numeric
    · rw [pick_missing hmissing, Except.error.injEq]
      simp [hne, hmissing, eq_comm]
    · obtain ⟨v, hv⟩ := exists_pick (e := e) hne (by simpa using hmissing)
      rw [hv]
      simp [hne, hmissing]

/-- What fails does so in any order. -/
theorem pick_error_perm {args' : List Literal} (hperm : args.Perm args') {message : String} :
    e.pick args = .error message ↔ e.pick args' = .error message := by
  simp only [pick_eq_error_iff, hperm.mem_iff, ← List.length_eq_zero_iff, hperm.length_eq]

/-- The extremum of the same numbers in another order is the same number. -/
theorem pick_perm {args' : List Literal} {v w : Literal} (hperm : args.Perm args')
    (hnan : ∀ v ∈ args, v.asFloat ≠ some .nan) (hv : e.pick args = .ok v) (hw : e.pick args' = .ok w) :
    v.same w = true := by
  have hmem {u : Literal} : u ∈ args ↔ u ∈ args' := hperm.mem_iff
  have hne : args ≠ [] := fun h => by
    rw [h, pick_nil] at hv
    cases hv
  have hne' : args' ≠ [] := fun h => hne (List.perm_nil.mp (h ▸ hperm))
  have hnumeric : ∀ u ∈ args, u.Numeric := by
    by_contra hnot
    rw [pick_missing (by simpa using hnot)] at hv
    cases hv
  -- Each of the two results is among the arguments of the other and bounds them, so they stand at one place.
  by_cases hints : ∀ u ∈ args, ∃ n, u.asIntOperand = some n
  · obtain ⟨m, hm, ⟨u, hu, hum⟩, hall⟩ := pick_ints (e := e) hne hints
    obtain ⟨n, hn, ⟨u', hu', hun⟩, hall'⟩ := pick_ints (e := e) hne' fun u hu => hints u (hmem.mpr hu)
    obtain rfl := Except.ok.inj (hm.symm.trans hv)
    obtain rfl := Except.ok.inj (hn.symm.trans hw)
    have hequal := (hall u' (hmem.mpr hu') n hun).antisymm (hall' u (hmem.mp hu) m hum)
    simp [Literal.same, Int64.toInt_inj.mp hequal]
  · obtain ⟨u, hu, hnone⟩ := not_all_ints hints
    obtain ⟨x, hx, hbest⟩ := pick_floats (e := e) hnumeric ⟨u, hu, hnone⟩
    obtain ⟨y, hy, hbest'⟩ := pick_floats (e := e) (fun u hu => hnumeric u (hmem.mpr hu)) ⟨u, hmem.mp hu, hnone⟩
    obtain rfl := Except.ok.inj (hx.symm.trans hv)
    obtain rfl := Except.ok.inj (hy.symm.trans hw)
    obtain ⟨p, hp, ⟨u, hu, hux⟩, hall⟩ := hbest hnan
    obtain ⟨q, hq, ⟨u', hu', huy⟩, hall'⟩ := hbest' fun u hu => hnan u (hmem.mpr hu)
    have hequal := (hall u' (hmem.mpr hu') y q huy hq).antisymm (hall' u (hmem.mp hu) x p hux hp)
    rw [Literal.same, Binary64.same, Binary64.order_eq_of_positions hp hq, hequal]
    simp [(orderInt_iff q q).2.1]

/-- What is picked from arguments depends on which they are, not on where they stand. There is a failure if
there are none or one is no number; integers alone have the exact extremum, and other numbers a float, which
is the extremum of their floats if none is NaN. -/
structure Bag (e : Extremum) (args : List Literal) : Prop where
  fails : ∀ message, e.pick args = .error message ↔
    args = [] ∧ message = "too few arguments" ∨
      (∃ v ∈ args, ¬ v.Numeric) ∧ message = "can't convert to float"
  integers : args ≠ [] → (∀ v ∈ args, ∃ n, v.asIntOperand = some n) →
    ∃ n, e.pick args = .ok (.int n) ∧ (∃ v ∈ args, v.asIntOperand = some n) ∧
      ∀ v ∈ args, ∀ k, v.asIntOperand = some k → e.Bounds n.toInt k.toInt
  floats : (∀ v ∈ args, v.Numeric) → (∃ v ∈ args, v.asIntOperand = none) →
    ∃ x, e.pick args = .ok (.float x) ∧ ((∀ v ∈ args, v.asFloat ≠ some .nan) →
      ∃ p, x.position? = some p ∧ (∃ v ∈ args, v.asFloat = some x) ∧
        ∀ v ∈ args, ∀ y q, v.asFloat = some y → y.position? = some q → e.Bounds p q)
  failure_in_any_order : ∀ args', args.Perm args' → ∀ message,
    e.pick args = .error message ↔ e.pick args' = .error message
  value_in_any_order : ∀ args', args.Perm args' → (∀ v ∈ args, v.asFloat ≠ some .nan) →
    ∀ v, e.pick args = .ok v → ∃ w, e.pick args' = .ok w ∧ v.same w = true

theorem arguments_bag (e : Extremum) (args : List Literal) : Bag e args where
  fails := fun _ => pick_eq_error_iff
  integers := pick_ints
  floats := pick_floats
  failure_in_any_order := fun _ hperm _ => pick_error_perm hperm
  value_in_any_order := by
    intro args' hperm hnan v hv
    cases hw : e.pick args' with
    | ok w => exact ⟨w, rfl, pick_perm hperm hnan hv hw⟩
    | error message =>
      rw [← pick_error_perm hperm, hv] at hw
      cases hw

def Overruns (e : Extremum) (x : Binary64) (v : Literal) : Prop :=
  ∃ k n, x.toInt64? = some k ∧ v.asInt = some n ∧ ¬ e.Bounds k.toInt n.toInt ∧
    (Binary64.ofInt n.toInt).same x = true

def Meets (x : Binary64) (v : Literal) : Prop :=
  (∃ y, v.asFloat = some y ∧ x.same y = true) ∧
    ∀ k n, x.toInt64? = some k → v.asInt = some n → k = n

/-- A place that bounds an integer and needs no rounding bounds the rounded integer. -/
theorem Bounds.of_rounded {n p : Int} (hp : Binary64.Short p.natAbs)
    (h : e.Bounds (n * Binary64.one) p) : e.Bounds (Binary64.rounded n) p := by
  cases e with
  | least => exact Binary64.rounded_le hp h
  | greatest => exact Binary64.le_rounded hp h

theorem Bounds.scale (h : e.Bounds a b) : e.Bounds (a * Binary64.one) (b * Binary64.one) := by
  have hone : (0 : Int) ≤ Binary64.one := Int.natCast_nonneg _
  cases e with
  | least => exact Int.mul_le_mul_of_nonneg_right h hone
  | greatest => exact Int.mul_le_mul_of_nonneg_right h hone

theorem same_iff {x y : Binary64} (hx : x.position? = some a) (hy : y.position? = some b) :
    x.same y = true ↔ a = b := by
  rw [Binary64.same, Binary64.order_eq_of_positions hx hy, decide_eq_true_eq, Option.some_inj]
  exact (orderInt_iff a b).2.1

section Compared

variable {x y : Binary64} {v : Literal} {p q : Int} (hx : x.position? = some p) (hv : v.asFloat = some y)
  (hy : y.position? = some q)

include hx hv hy

/-- A whole float stands at its integer, and an integer is the float that it is rounded to. -/
theorem places_of_ints {k n : Int64} (hk : x.toInt64? = some k) (hn : v.asInt = some n) :
    p = k.toInt * Binary64.one ∧ q = Binary64.rounded n.toInt ∧ Binary64.Short p.natAbs := by
  obtain ⟨s, m, hfloat, hplace⟩ := float_of_int hn
  obtain rfl := Option.some.inj (hv.symm.trans hfloat)
  obtain rfl := Option.some.inj hy
  cases x with
  | nan | infinite => cases hk
  | finite t k =>
    obtain rfl := Option.some.inj hx
    exact ⟨Binary64.toInt64_eq_some_iff.mp hk, hplace, Binary64.short_signed t k⟩

/-- A float that bounds a number as floats is compared with it so, unless the number overruns it. -/
theorem compare_op_iff (h : e.Bounds p q) : compare e.op (float x) v = .ok true ↔ ¬ e.Overruns x v := by
  by_cases hints : (∃ k, x.toInt64? = some k) ∧ ∃ n, v.asInt = some n
  · obtain ⟨⟨k, hk⟩, n, hn⟩ := hints
    rw [compare_ints (v := float x) rfl hv hk hn, Except.ok.injEq, tells_iff]
    constructor
    · rintro hbounds ⟨k', n', hk', hn', hnot, -⟩
      obtain rfl := Option.some.inj (hk.symm.trans hk')
      obtain rfl := Option.some.inj (hn.symm.trans hn')
      exact hnot hbounds
    · intro hover
      by_contra hnot
      obtain ⟨rfl, rfl, hshort⟩ := places_of_ints hx hv hy hk hn
      have hback := (Bounds.of_not hnot).scale.of_rounded hshort
      have hsame := (same_iff (Binary64.position_of_int64 n) hx).mpr (hback.antisymm h)
      exact hover ⟨k, n, hk, hn, hnot, hsame⟩
  · have hint : x.toInt64? = none ∨ v.asInt = none := none_of_not_both hints
    rw [compare_floats (v := float x) rfl hv hint hx hy, tells_iff.mpr h]
    exact iff_of_true rfl fun ⟨k, n, hk, hn, _⟩ => hints ⟨⟨k, hk⟩, n, hn⟩

/-- A float equals the numbers that are that float, unless they are other integers. -/
theorem compare_eq_iff : compare .eq (float x) v = .ok true ↔ Meets x v := by
  have hmeets : Meets x v ↔ p = q ∧ ∀ k n, x.toInt64? = some k → v.asInt = some n → k = n := by
    simp only [Meets, hv, Option.some_inj, exists_eq_left', same_iff hx hy]
  rw [hmeets]
  by_cases hints : (∃ k, x.toInt64? = some k) ∧ ∃ n, v.asInt = some n
  · obtain ⟨⟨k, hk⟩, n, hn⟩ := hints
    rw [compare_ints (v := float x) rfl hv hk hn, Except.ok.injEq, CompareOp.tells, decide_eq_true_eq,
      (orderInt_iff _ _).2.1, Int64.toInt_inj]
    constructor
    · rintro rfl
      obtain ⟨rfl, rfl, hshort⟩ := places_of_ints hx hv hy hk hn
      refine ⟨(Binary64.rounded_of_short hshort).symm, fun k' n' hk' hn' => ?_⟩
      exact Option.some.inj (hk'.symm.trans (hk.trans (hn.symm.trans hn')))
    · exact fun h => h.2 k n hk hn
  · have hint : x.toInt64? = none ∨ v.asInt = none := none_of_not_both hints
    rw [compare_floats (v := float x) rfl hv hint hx hy, Except.ok.injEq, CompareOp.tells,
      decide_eq_true_eq, (orderInt_iff _ _).2.1]
    exact ⟨fun h => ⟨h, fun k n hk hn => absurd ⟨⟨k, hk⟩, n, hn⟩ hints⟩, And.left⟩

end Compared

/-- Finite numbers have an extremum. Of integers alone it bounds them all and equals one of them. Otherwise
it is the float of one of them; it bounds all but the integers beyond it that are rounded to it, and it
equals those that are that float and no other integer. -/
theorem extremum_compared (e : Extremum) {args : List Literal} (hne : args ≠ [])
    (hargs : ∀ v ∈ args, v.Numeric ∧ v.Finite) :
    ∃ m, e.pick args = .ok m ∧
      ((∀ v ∈ args, ∃ n, v.asIntOperand = some n) →
        (∀ v ∈ args, compare e.op m v = .ok true) ∧ ∃ v ∈ args, compare .eq m v = .ok true) ∧
      ((∃ v ∈ args, v.asIntOperand = none) → ∃ x, m = .float x ∧ (∃ v ∈ args, v.asFloat = some x) ∧
        (∀ v ∈ args, compare e.op m v = .ok true ↔ ¬ e.Overruns x v) ∧
        ((∃ v ∈ args, compare .eq m v = .ok true) ↔ ∃ v ∈ args, Meets x v)) := by
  by_cases hints : ∀ v ∈ args, ∃ n, v.asIntOperand = some n
  · obtain ⟨n, hpick, ⟨w, hw, hwn⟩, hall⟩ := pick_ints (e := e) hne hints
    have hcompare {v : Literal} {k : Int64} (hk : v.asIntOperand = some k) (op : CompareOp) :
        compare op (.int n) v = .ok (op.tells (orderInt n.toInt k.toInt)) := by
      obtain ⟨s, m, hfloat, -⟩ := float_of_int (asInt_of_operand hk)
      exact compare_ints (v := .int n) rfl hfloat rfl (asInt_of_operand hk) op
    refine ⟨_, hpick, fun _ => ⟨fun v hv => ?_, w, hw, ?_⟩, fun ⟨v, hv, hnone⟩ => ?_⟩
    · obtain ⟨k, hk⟩ := hints v hv
      rw [hcompare hk, tells_iff.mpr (hall v hv k hk)]
    · rw [hcompare hwn, (orderInt_iff _ _).2.1.mpr rfl]
      rfl
    · obtain ⟨k, hk⟩ := hints v hv
      exact absurd (hk.symm.trans hnone) nofun
  · obtain ⟨x, hpick, hbest⟩ := pick_floats (e := e) (fun v hv => (hargs v hv).1) (not_all_ints hints)
    have hnan : ∀ v ∈ args, v.asFloat ≠ some .nan :=
      fun v hv h => absurd ((hargs v hv).2.asFloat h) nofun
    obtain ⟨p, hp, hone, hall⟩ := hbest hnan
    have hplace {v : Literal} (hv : v ∈ args) :
        ∃ y q, v.asFloat = some y ∧ y.position? = some q ∧ e.Bounds p q := by
      obtain ⟨y, hy⟩ := numeric_iff.mp (hargs v hv).1
      obtain ⟨q, hq⟩ := Binary64.exists_position fun he => hnan v hv (he ▸ hy)
      exact ⟨y, q, hy, hq, hall v hv y q hy hq⟩
    refine ⟨_, hpick, fun h => absurd h hints, fun _ => ⟨x, rfl, hone, fun v hv => ?_, ?_⟩⟩
    · obtain ⟨y, q, hy, hq, hbounds⟩ := hplace hv
      exact compare_op_iff hp hy hq hbounds
    · refine exists_congr fun v => and_congr_right fun hv => ?_
      obtain ⟨y, q, hy, hq, -⟩ := hplace hv
      exact compare_eq_iff hp hy hq

/-- Beside a fraction the first integer that no float has is rounded, and it overruns the result. -/
theorem extremum_compared_rounded :
    [int 9007199254740993, str "0.5"] ≠ [] ∧
      (∀ v ∈ [int 9007199254740993, str "0.5"], v.Numeric ∧ v.Finite) ∧
      ∃ x, greatest.pick [int 9007199254740993, str "0.5"] = .ok (.float x) ∧
        x.toInt64? = some 9007199254740992 ∧
        greatest.Overruns x (int 9007199254740993) ∧ ¬ greatest.Overruns x (str "0.5") ∧
        ¬ ∃ v ∈ [int 9007199254740993, str "0.5"], Meets x v := by
  have hhalf : (str "0.5").asFloat = some (Binary64.ofDecimal ⟨false, 5, -1⟩) := by decide +kernel
  have hnone : (str "0.5").asIntOperand = none := by decide +kernel
  have hnumbers : ∀ v ∈ [int 9007199254740993, str "0.5"], v.Numeric ∧ v.Finite := by
    simp only [List.forall_mem_cons]
    exact ⟨⟨trivial, trivial⟩, ⟨numeric_iff.mpr ⟨_, hhalf⟩, trivial⟩, List.forall_mem_nil _⟩
  obtain ⟨m, hm, -, hrounded⟩ := extremum_compared greatest (List.cons_ne_nil _ _) hnumbers
  obtain ⟨x, rfl, -, hbounds, hmeets⟩ := hrounded ⟨_, List.mem_cons_of_mem _ List.mem_cons_self, hnone⟩
  have hx : greatest.pick [int 9007199254740993, str "0.5"] =
      .ok (.float (Binary64.ofInt 9007199254740992)) := by decide +kernel
  have hequal := Literal.float.inj (Except.ok.inj (hm.symm.trans hx))
  rw [hequal] at hbounds hmeets
  refine ⟨List.cons_ne_nil _ _, hnumbers, _, hx, by decide +kernel, ?_, ?_, ?_⟩
  · exact not_not.mp (mt (hbounds _ List.mem_cons_self).mpr (by decide +kernel))
  · exact (hbounds _ (List.mem_cons_of_mem _ List.mem_cons_self)).mp (by decide +kernel)
  · rw [← hmeets]
    decide +kernel

/-- So the greatest of two numbers may be less than one of them. -/
theorem greatest_below_argument :
    Engine.standard.evaluate "max(9007199254740993, 0.5) >= 9007199254740993" NameMap.empty =
        .ok (.bool false) ∧
      ¬ ∀ args, args ≠ [] → (∀ v ∈ args, v.Numeric ∧ v.Finite) → ∃ m, greatest.pick args = .ok m ∧
        (∀ v ∈ args, compare .ge m v = .ok true) ∧ ∃ v ∈ args, compare .eq m v = .ok true := by
  have hhalf : (Binary64.ofDecimal ⟨false, 5, -1⟩).isFinite = true := by decide +kernel
  refine ⟨by decide +kernel, fun hall => ?_⟩
  obtain ⟨m, hm, hbounds, -⟩ := hall [int 9007199254740993, float (Binary64.ofDecimal ⟨false, 5, -1⟩)]
    (List.cons_ne_nil _ _) (by
      simp only [List.forall_mem_cons]
      exact ⟨⟨trivial, trivial⟩, ⟨trivial, hhalf⟩, List.forall_mem_nil _⟩)
  have hpick : greatest.pick [int 9007199254740993, float (Binary64.ofDecimal ⟨false, 5, -1⟩)] =
      .ok (.float (Binary64.ofInt 9007199254740992)) := by decide +kernel
  obtain rfl := Except.ok.inj (hm.symm.trans hpick)
  exact absurd (hbounds _ List.mem_cons_self) (by decide +kernel)

end Extremum

end Function

end Formula
