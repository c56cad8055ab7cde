import Formula.Proofs.RoundedFractions

/-!
Values as integers, and the numbers that they denote. Integers, whole floats and the texts of integers are
taken as what they are. Any other text is taken as the float nearest to its number, whole or not, and so as
that number only if a float has it.
-/

namespace Formula

/-- Numbers of one sign are as far apart as without it, others are not nearer. -/
theorem dist_le_of_signs (s t : Bool) {a b : ℚ} (ha : 0 ≤ a) (hb : 0 ≤ b) :
    |a - b| ≤ |(if s then -a else a) - (if t then -b else b)| := by
  cases s <;> cases t <;> simp only [if_true, if_false, Bool.false_eq_true, abs_le]
  · exact abs_le.mp le_rfl
  · have hsum := le_abs_self (a - -b)
    constructor <;> linarith
  · have hsum := neg_le_abs (-a - b)
    constructor <;> linarith
  · rw [neg_sub_neg, abs_sub_comm]
    exact abs_le.mp le_rfl

namespace Binary64

/-- The exact value of a finite number. -/
theorem signed_div_one (s : Bool) (m : Magnitude) :
    (signed s m : ℚ) / one = if s then -((m.units : ℚ) / one) else (m.units : ℚ) / one := by
  cases s
  · simp only [signed, Bool.false_eq_true, if_false, Int.cast_natCast]
  · simp only [signed, if_true, Int.cast_neg, Int.cast_natCast, neg_div]

/-- A decimal is read as one of the numbers that are nearest to it. -/
theorem ofDecimal_nearest {d : Decimal} {s : Bool} {m : Magnitude} (h : ofDecimal d = finite s m)
    (t : Bool) (k : Magnitude) :
    |d.value - signed s m / one| ≤ |d.value - signed t k / one| := by
  obtain ⟨rfl, hunits⟩ := ofDecimal_eq_finite_iff.mp h
  have hone : (0 : ℚ) < one := Literal.one_cast_pos
  have hsize : 0 ≤ d.size := d.size_nonneg
  have hnearest := nearestUnits_nearest (mul_nonneg hsize hone.le) k.representable.2
  rw [hunits] at hnearest
  have hscale (c : ℚ) : |d.size - c / one| = |d.size * one - c| / one := by
    rw [eq_div_iff hone.ne', ← abs_of_pos hone, ← abs_mul, abs_of_pos hone, sub_mul,
      div_mul_cancel₀ c hone.ne']
  calc |d.value - signed d.negative m / one|
      = |d.size - m.units / one| := by
        rw [Decimal.value, signed_div_one]
        cases d.negative
        · rfl
        · simp only [if_true]
          rw [neg_sub_neg, abs_sub_comm]
    _ = |d.size * one - m.units| / one := hscale _
    _ ≤ |d.size * one - k.units| / one := (div_le_div_iff_of_pos_right hone).mpr hnearest
    _ = |d.size - k.units / one| := (hscale _).symm
    _ ≤ |d.value - signed t k / one| := by
        rw [Decimal.value, signed_div_one]
        exact dist_le_of_signs _ _ hsize (div_nonneg k.units.cast_nonneg hone.le)

end Binary64

namespace Literal

open Binary64 (one)

variable {v : Literal} {n : Int64}

def denoted? : Literal → Option ℚ
  | .str s => (Decimal.read s.toList).map Decimal.value
  | v => v.exactValue?

def NoIntegerText (v : Literal) : Prop := ∃ s, v = .str s ∧ (readInt s.toList).bind int64? = none

/-- The text of an integer spells it. -/
theorem denoted_of_readInt {s : String} (h : (readInt s.toList).bind int64? = some n) :
    (str s).denoted? = some (n.toInt : ℚ) := by
  obtain ⟨z, hz, hn⟩ := Option.bind_eq_some_iff.mp h
  obtain rfl := int64_eq_some_iff.mp hn
  obtain ⟨negative, hread, hsign⟩ := read_decimal_of_readInt hz
  rw [denoted?, hread, Option.map_some, Option.some_inj, Decimal.value, Decimal.size]
  simp only [zpow_zero, mul_one, Nat.cast_natAbs, Int.cast_abs]
  by_cases hzero : n.toInt = 0
  · simp [hzero]
  · rw [hsign hzero]
    rcases lt_or_ge n.toInt 0 with hneg | hnonneg
    · have hcast : ((n.toInt : Int) : ℚ) < 0 := Int.cast_lt_zero.mpr hneg
      rw [decide_eq_true hneg, if_pos rfl, abs_of_neg hcast, neg_neg]
    · have hcast : 0 ≤ ((n.toInt : Int) : ℚ) := Int.cast_nonneg hnonneg
      rw [decide_eq_false (not_lt.mpr hnonneg), abs_of_nonneg hcast]
      rfl

theorem exact_of_toInt64 {x : Binary64} (h : x.toInt64? = some n) :
    (float x).exactValue? = some (n.toInt : ℚ) := by
  obtain ⟨k, hk, hn⟩ := Option.bind_eq_some_iff.mp h
  obtain rfl := int64_eq_some_iff.mp hn
  exact exact_of_whole hk

/-- What is taken as an integer denotes it, unless it is a text that is no integer of 64 bits. -/
theorem denoted_of_int (h : v.asInt = some n) (hv : ¬ v.NoIntegerText) :
    v.denoted? = some (n.toInt : ℚ) := by
  cases v with
  | bool | err => cases h
  | int k =>
    obtain rfl := Option.some.inj h
    rfl
  | float x => exact exact_of_toInt64 h
  | str s =>
    cases hint : (readInt s.toList).bind int64? with
    | none => exact absurd ⟨s, rfl, hint⟩ hv
    | some k =>
      rw [asInt, hint] at h
      obtain rfl := Option.some.inj h
      exact denoted_of_readInt hint

/-- Any other text that is taken as an integer spells a number to which the integer is nearest among all
floats. -/
theorem nearest_of_noIntegerText (h : v.asInt = some n) (hv : v.NoIntegerText) :
    ∃ q, v.denoted? = some q ∧ (∃ x, (float x).exactValue? = some (n.toInt : ℚ)) ∧
      ∀ x a, (float x).exactValue? = some a → |q - n.toInt| ≤ |q - a| := by
  obtain ⟨s, rfl, hint⟩ := hv
  rw [asInt, hint, Option.none_or] at h
  obtain ⟨x, hx, hn⟩ := Option.bind_eq_some_iff.mp h
  obtain ⟨hread, -⟩ := Option.filter_eq_some_iff.mp hx
  obtain ⟨d, hd, rfl⟩ := Option.map_eq_some_iff.mp hread
  have hexact := exact_of_toInt64 hn
  refine ⟨d.value, by rw [denoted?, hd]; rfl, ⟨_, hexact⟩, ?_⟩
  intro y a hy
  cases hdx : Binary64.ofDecimal d with
  | nan | infinite =>
    rw [hdx] at hexact
    cases hexact
  | finite t m =>
    cases y with
    | nan | infinite => cases hy
    | finite t' k =>
      rw [hdx] at hexact
      rw [← Option.some.inj hexact, ← Option.some.inj hy]
      exact Binary64.ofDecimal_nearest hdx t' k

/-- What is taken as an integer denotes a number, and that number is the integer, exactly unless it is a text
that is neither an integer of 64 bits nor spells a float. Of such a text the integer is the nearest float. -/
theorem narrowing_exact_iff (h : v.asInt = some n ∨ v.asIntOperand = some n) :
    ∃ q, v.denoted? = some q ∧
      (q = n.toInt ↔ (v.NoIntegerText → ∃ x, (float x).exactValue? = some q)) ∧
      (v.NoIntegerText → ∀ x a, (float x).exactValue? = some a → |q - n.toInt| ≤ |q - a|) := by
  have hint : v.asInt = some n := h.elim id asInt_of_operand
  by_cases hv : v.NoIntegerText
  · obtain ⟨q, hq, hfloat, hnearest⟩ := nearest_of_noIntegerText hint hv
    refine ⟨q, hq, ⟨fun he _ => he ▸ hfloat, fun hexact => ?_⟩, fun _ => hnearest⟩
    obtain ⟨x, hx⟩ := hexact hv
    have hself := hnearest x q hx
    rwa [sub_self, abs_zero, abs_nonpos_iff, sub_eq_zero] at hself
  · exact ⟨n.toInt, denoted_of_int hint hv, iff_of_true rfl fun h => absurd h hv, fun h => absurd h hv⟩

/-- The first integer that no float has, written with a fraction, is taken as its neighbour. -/
theorem narrowing_exact_iff_neighbour :
    (str "9007199254740993.0").asInt = some 9007199254740992 ∧
      (str "9007199254740993.0").denoted? = some 9007199254740993 ∧
      ¬ ∃ x, (float x).exactValue? = some 9007199254740993 := by
  have hint : (str "9007199254740993.0").asInt = some 9007199254740992 := by decide +kernel
  have hread : Decimal.read "9007199254740993.0".toList = some ⟨false, 90071992547409930, -1⟩ := by
    decide +kernel
  have hdenoted : (str "9007199254740993.0").denoted? = some 9007199254740993 := by
    rw [denoted?, hread]
    norm_num [Decimal.value, Decimal.size]
  refine ⟨hint, hdenoted, fun hfloat => ?_⟩
  obtain ⟨q, hq, hexact, -⟩ := narrowing_exact_iff (.inl hint)
  obtain rfl := Option.some.inj (hdenoted.symm.trans hq)
  have hequal := hexact.mpr fun _ => hfloat
  have hwidth : (9007199254740992 : Int64).toInt = 9007199254740992 := by decide
  rw [hwidth] at hequal
  norm_num at hequal

/-- A text of a number just below one is taken as one. -/
theorem fraction_taken_as_one :
    (str "0.99999999999999999999").asInt = some 1 ∧
      (str "0.99999999999999999999").asIntOperand = some 1 ∧
      (str "0.99999999999999999999").denoted? = some (1 - 1 / 10 ^ 20) ∧
      ¬ ∀ v n, asInt v = some n → v.denoted? = some (n.toInt : ℚ) := by
  have hint : (str "0.99999999999999999999").asInt = some 1 := by decide +kernel
  have hread : Decimal.read "0.99999999999999999999".toList =
      some ⟨false, 99999999999999999999, -20⟩ := by decide +kernel
  have hdenoted : (str "0.99999999999999999999").denoted? = some (1 - 1 / 10 ^ 20) := by
    rw [denoted?, hread]
    norm_num [Decimal.value, Decimal.size]
  refine ⟨hint, hint, hdenoted, fun hall => ?_⟩
  have hone := Option.some.inj (hdenoted.symm.trans (hall _ _ hint))
  have hwidth : (1 : Int64).toInt = 1 := by decide
  rw [hwidth] at hone
  norm_num at hone

end Literal

end Formula
