import Formula.Proofs.ExactComparison

namespace Formula

theorem readDigits_eq_some_iff {cs : List Char} {n : Nat} : readDigits cs = some n ↔
    cs ≠ [] ∧ (∀ c ∈ cs, c.isDigit = true) ∧ radixValue 10 cs = n := by
  rw [readDigits]
  split_ifs with h
  · simp only [Bool.and_eq_true, Bool.not_eq_true', List.isEmpty_eq_false_iff, List.all_eq_true] at h
    simp only [Option.some_inj, ne_eq, h.1, not_false_eq_true, true_and]
    exact ⟨fun hn => ⟨h.2, hn⟩, fun hn => hn.2⟩
  · refine iff_of_false not_false ?_
    rintro ⟨hne, hall, -⟩
    apply h
    simp only [Bool.and_eq_true, Bool.not_eq_true', List.isEmpty_eq_false_iff, List.all_eq_true]
    exact ⟨hne, hall⟩

/-- The text of an integer is a decimal without a fraction, with the sign of the integer unless that is
zero. -/
theorem read_decimal_of_readInt {cs : List Char} {z : Int} (h : readInt cs = some z) :
    ∃ negative, Decimal.read cs = some ⟨negative, z.natAbs, 0⟩ ∧ (z ≠ 0 → negative = decide (z < 0)) := by
  rcases hsign : splitSign cs with ⟨negative, ds⟩
  simp only [readInt, hsign, Option.map_eq_some_iff, Option.bind_eq_bind, Option.bind_eq_some_iff,
    Option.pure_def, Option.some_inj] at h
  obtain ⟨_, ⟨n, hn, rfl⟩, rfl⟩ := h
  obtain ⟨hne, hall, rfl⟩ := readDigits_eq_some_iff.mp hn
  refine ⟨negative, ?_, ?_⟩
  · have hread := read_decimal_of_digits hsign hne hall
    cases negative
    · simpa using hread
    · simpa using hread
  · intro hz
    cases negative
    · simp
    · simp only [if_true, ne_eq, Int.neg_eq_zero] at hz ⊢
      simp
      omega

namespace Binary64

variable {n : Int64} {x : Binary64}

theorem rounded_of_short {z : Int} (h : Short (z * one).natAbs) : rounded z = z * one :=
  le_antisymm (rounded_le h le_rfl) (le_rounded h le_rfl)

/-- A finite number is where it stands on the line of units. -/
theorem exists_finite {p : Int} (hx : x.isFinite = true) (hp : x.position? = some p) :
    ∃ s m, x = finite s m ∧ signed s m = p := by
  cases x with
  | nan | infinite => cases hx
  | finite s m => exact ⟨s, m, rfl, Option.some.inj hp⟩

/-- A whole number stands where the integer is rounded to, since nothing is rounded. -/
theorem exists_finite_of_int64 (h : x.toInt64? = some n) :
    ∃ s m, x = finite s m ∧ signed s m = rounded n.toInt := by
  cases x with
  | nan | infinite => cases h
  | finite s m =>
    have hplace : signed s m = n.toInt * one := toInt64_eq_some_iff.mp h
    have hshort : Short (n.toInt * one).natAbs := hplace ▸ short_signed s m
    exact ⟨s, m, rfl, hplace.trans (rounded_of_short hshort).symm⟩

/-- The text of an integer holds the float that the integer is rounded to. -/
theorem finite_of_readInt {cs : List Char} {z : Int} (h : readInt cs = some z)
    (hz : int64? z = some n) : ∃ s m, finite? cs = some (finite s m) ∧ signed s m = rounded n.toInt := by
  obtain rfl := int64_eq_some_iff.mp hz
  obtain ⟨negative, hread, hsign⟩ := read_decimal_of_readInt h
  suffices hvalue : ∃ s m, ofDecimal ⟨negative, n.toInt.natAbs, 0⟩ = finite s m ∧
      signed s m = rounded n.toInt by
    obtain ⟨s, m, hvalue, hplace⟩ := hvalue
    refine ⟨s, m, ?_, hplace⟩
    rw [finite?, hread, Option.map_some, hvalue]
    rfl
  by_cases hzero : n.toInt = 0
  · -- The zero keeps its sign, which its place does not show.
    refine ⟨negative, .zero, ?_, ?_⟩
    · rw [hzero]
      rfl
    · rw [hzero, rounded, Int.sign_zero, Int.zero_mul]
      cases negative <;> rfl
  · rw [hsign hzero, ofDecimal_int]
    exact exists_finite (finite_of_int64 n) (position_of_int64 n)

end Binary64

namespace Literal

variable {v : Literal} {n : Int64}

def Numeric : Literal → Prop
  | .int _ | .float _ => True
  | .str s => ∃ x, Binary64.finite? s.toList = some x
  | .bool _ | .err _ => False

theorem numeric_iff : v.Numeric ↔ ∃ x, v.asFloat = some x := by
  cases v with
  | int | float => simp [Numeric, asFloat]
  | str s => exact Iff.rfl
  | bool | err => simp [Numeric, asFloat]

/-- A value that is an integer is the float that the integer is rounded to. -/
theorem float_of_int (h : v.asInt = some n) :
    ∃ s m, v.asFloat = some (.finite s m) ∧ Binary64.signed s m = Binary64.rounded n.toInt := by
  cases v with
  | bool | err => cases h
  | int k =>
    obtain rfl := Option.some.inj h
    obtain ⟨s, m, hx, hplace⟩ :=
      Binary64.exists_finite (Binary64.finite_of_int64 k) (Binary64.position_of_int64 k)
    exact ⟨s, m, congrArg some hx, hplace⟩
  | float x =>
    obtain ⟨s, m, rfl, hplace⟩ := Binary64.exists_finite_of_int64 h
    exact ⟨s, m, rfl, hplace⟩
  | str s =>
    rw [asInt, Option.or_eq_some_iff] at h
    rcases h with hint | ⟨-, hfloat⟩
    · obtain ⟨z, hz, hn⟩ := Option.bind_eq_some_iff.mp hint
      exact Binary64.finite_of_readInt hz hn
    · obtain ⟨x, hx, hn⟩ := Option.bind_eq_some_iff.mp hfloat
      obtain ⟨s, m, rfl, hplace⟩ := Binary64.exists_finite_of_int64 hn
      exact ⟨s, m, hx, hplace⟩

/-- What is an integer in arithmetic is that integer elsewhere. -/
theorem asInt_of_operand (h : v.asIntOperand = some n) : v.asInt = some n := by
  cases v with
  | float => cases h
  | int | str | bool | err => exact h

end Literal

end Formula
