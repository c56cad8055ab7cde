import Formula.Proofs.NearestNumbers

namespace Formula.Binary64

def StandsAt (x : Binary64) (p : Int) : Prop := ∃ s m, x = finite s m ∧ signed s m = p

section Places

variable {s t : Bool} {m : Magnitude} {x y : Binary64} {p q n : Int} {num den d : Nat}

theorem standsAt_of_position (hx : x.isFinite = true) (hp : x.position? = some p) : x.StandsAt p :=
  exists_finite hx hp

theorem StandsAt.isFinite (h : x.StandsAt p) : x.isFinite = true := by
  obtain ⟨s, m, rfl, -⟩ := h
  rfl

theorem StandsAt.short (h : x.StandsAt p) : Short p.natAbs := by
  obtain ⟨s, m, -, rfl⟩ := h
  exact short_signed s m

theorem StandsAt.lt_limit (h : x.StandsAt p) : p.natAbs < limit := by
  obtain ⟨s, m, -, rfl⟩ := h
  rw [natAbs_signed]
  exact m.representable.1

/-- The whole numbers are those at a multiple of one. -/
theorem StandsAt.toInt_iff (h : x.StandsAt p) : x.toInt? = some n ↔ p = n * one := by
  obtain ⟨s, m, rfl, rfl⟩ := h
  exact toInt_eq_some_iff

theorem standsAt_of_toInt (h : x.toInt? = some n) : x.StandsAt (n * one) := by
  cases x with
  | nan | infinite => cases h
  | finite s m => exact ⟨s, m, rfl, toInt_eq_some_iff.mp h⟩

/-- A magnitude takes the sign of a number that has the same one. -/
theorem with_sign_of_signed (h : signed s m = p) {r : Nat} (hr : p = 0 → r = 0) :
    (if s then -(r : Int) else r) = p.sign * r := by
  by_cases hzero : p = 0
  · rw [hr hzero, Int.natCast_zero, Int.mul_zero, Int.neg_zero, ite_self]
  · cases s with
    | false =>
      obtain rfl : (m.units : Int) = p := h
      rw [Int.sign_eq_one_of_pos (by omega), Int.one_mul]
      rfl
    | true =>
      obtain rfl : -(m.units : Int) = p := h
      rw [Int.sign_eq_neg_one_of_neg (by omega), Int.neg_one_mul]
      rfl

/-- A rounded fraction stands at the units that it is rounded to. -/
theorem round_stands (h : roundUnits num den < limit) :
    (round s num den).StandsAt (if s then -(roundUnits num den : Int) else roundUnits num den) := by
  rw [round, dif_pos h]
  exact ⟨_, _, rfl, rfl⟩

theorem roundUnits_eq_zero (den : Nat) : roundUnits 0 den = 0 := by
  simp [roundUnits, divNearest]

theorem natAbs_whole (n : Int) : (n * one).natAbs = n.natAbs * one := by
  rw [Int.natAbs_mul, Int.natAbs_natCast]

theorem units_of_whole (h : signed s m = n * one) : m.units = n.natAbs * one := by
  rw [← natAbs_signed s m, h, natAbs_whole]

/-- What is made of a whole number and keeps its sign stands on its side of zero. -/
theorem round_whole_stands {r : Nat} (hm : signed s m = n * one) (hr : roundUnits num den = r) (hzero : n = 0 → r = 0)
    (h : r < limit) : (round s num den).StandsAt (n.sign * r) := by
  obtain rfl := hr
  have hsign : (n * one).sign = n.sign := by
    rw [Int.sign_mul, Int.sign_natCast_of_ne_zero one_pos.ne', Int.mul_one]
  rw [← hsign, ← with_sign_of_signed hm]
  · exact round_stands h
  · intro hwhole
    exact hzero ((Int.mul_eq_zero.mp hwhole).resolve_right (Int.natCast_ne_zero.mpr one_pos.ne'))

/-- A sum that is not zero stands where the exact sum is rounded to. -/
theorem add_stands (hx : x.StandsAt p) (hy : y.StandsAt q) (hsum : p + q ≠ 0)
    (h : roundUnits (p + q).natAbs 1 < limit) :
    (add x y).StandsAt ((p + q).sign * roundUnits (p + q).natAbs 1) := by
  obtain ⟨s, m, rfl, rfl⟩ := hx
  obtain ⟨t, k, rfl, rfl⟩ := hy
  rw [add, if_neg hsum]
  have hstands := round_stands (s := decide (signed s m + signed t k < 0)) h
  convert hstands using 1
  rcases Int.lt_or_gt_of_ne hsum with hneg | hpos
  · rw [Int.sign_eq_neg_one_of_neg hneg, decide_eq_true hneg, if_pos rfl, Int.neg_one_mul]
  · rw [Int.sign_eq_one_of_pos hpos, decide_eq_false (Int.not_lt.mpr hpos.le), Int.one_mul]
    rfl

/-- What stands at a positive place has no sign. -/
theorem exists_unsigned (hx : x.StandsAt d) (hd : 0 < d) : ∃ m, x = finite false m ∧ m.units = d := by
  obtain ⟨s, m, rfl, hm⟩ := hx
  cases s with
  | false => exact ⟨m, rfl, Int.natCast_inj.mp hm⟩
  | true =>
    have hnonneg : signed true m = -(m.units : Int) := rfl
    omega

section Whole

variable (hx : x.StandsAt (n * one)) (hy : y.StandsAt (d * one : Nat)) (hd : 0 < d)

include hx hy hd

/-- A product of whole numbers stands where the exact product is rounded to, if that is in range. -/
theorem mul_whole : (roundUnits (n.natAbs * d * one) 1 < limit →
      (mul x y).StandsAt (n.sign * roundUnits (n.natAbs * d * one) 1)) ∧
    (limit ≤ roundUnits (n.natAbs * d * one) 1 → ∃ s, mul x y = infinite s) := by
  obtain ⟨k, rfl, hk⟩ := exists_unsigned hy (Nat.mul_pos hd one_pos)
  obtain ⟨s, m, rfl, hm⟩ := hx
  have hrounded : roundUnits (m.units * k.units) one = roundUnits (n.natAbs * d * one) 1 := by
    calc roundUnits (m.units * k.units) one
        = roundUnits (n.natAbs * d * one * one) (1 * one) := by
          rw [units_of_whole hm, hk, Nat.mul_mul_mul_comm, ← Nat.mul_assoc, Nat.one_mul]
      _ = roundUnits (n.natAbs * d * one) 1 := roundUnits_scale one_pos
  have hsign : s.xor false = s := Bool.xor_false s
  have hmul : mul (finite s m) (finite false k) = round s (m.units * k.units) one := by
    rw [mul, hsign]
  rw [hmul]
  constructor
  · apply round_whole_stands hm hrounded
    rintro rfl
    rw [Int.natAbs_zero, Nat.zero_mul, Nat.zero_mul, roundUnits_eq_zero]
  · intro h
    rw [round, dif_neg (by rw [hrounded]; exact Nat.not_lt.mpr h)]
    exact ⟨s, rfl⟩

/-- A quotient of whole numbers stands where the fraction is rounded to. -/
theorem div_whole (h : nearestUnits ((n.natAbs * one : Nat) / (d : Nat)) < limit) :
    (div x y).StandsAt (n.sign * nearestUnits ((n.natAbs * one : Nat) / (d : Nat))) := by
  obtain ⟨k, rfl, hk⟩ := exists_unsigned hy (Nat.mul_pos hd one_pos)
  obtain ⟨s, m, rfl, hm⟩ := hx
  have hrounded : roundUnits (m.units * one) k.units = nearestUnits ((n.natAbs * one : Nat) / (d : Nat)) := by
    rw [units_of_whole hm, hk, roundUnits_scale one_pos, roundUnits_eq hd]
  have hnonzero : k.units ≠ 0 := hk ▸ (Nat.mul_pos hd one_pos).ne'
  have hsign : s.xor false = s := Bool.xor_false s
  have hdiv : div (finite s m) (finite false k) = round s (m.units * one) k.units := by
    rw [div, if_neg hnonzero, hsign]
  rw [hdiv]
  apply round_whole_stands hm hrounded _ h
  rintro rfl
  rw [Int.natAbs_zero, Nat.zero_mul, Nat.cast_zero, zero_div]
  exact nearestUnits_short (b := 0) (by decide)

end Whole

/-- The multiples of one below a negative number. -/
theorem neg_div_one (n : Nat) : -(n : Int) / one = -((n / one + if n % one ≠ 0 then 1 else 0 : Nat) : Int) := by
  have hpos : (0 : Int) < one := Int.natCast_pos.mpr one_pos
  have hdiv : one * (n / one) + n % one = n := Nat.div_add_mod n one
  have hrem : n % one < one := Nat.mod_lt n one_pos
  generalize n / one = whole at hdiv ⊢
  generalize n % one = rest at hdiv hrem ⊢
  generalize one = unit at *
  split_ifs with h
  · refine ((Int.ediv_emod_unique (r := unit - rest) hpos).mpr ⟨?_, by omega, by omega⟩).1
    rw [← hdiv]
    push_cast
    ring
  · refine ((Int.ediv_emod_unique (r := 0) hpos).mpr ⟨?_, le_rfl, hpos⟩).1
    obtain rfl : rest = 0 := by omega
    rw [← hdiv]
    push_cast
    ring

/-- The whole part of a number is rounded from the multiple of one below it. -/
theorem floor_eq (s : Bool) (m : Magnitude) : ∃ whole, floor (finite s m) = round s (whole * one) 1 ∧
    signed s m / one = if s then -(whole : Int) else whole := by
  cases s with
  | false =>
    refine ⟨m.units / one + 0, ?_, Int.natCast_ediv m.units one⟩
    simp [floor]
  | true =>
    refine ⟨_, ?_, neg_div_one m.units⟩
    simp [floor]

/-- The whole part stands at the multiple of one below, if that needs no rounding. -/
theorem floor_stands (hx : x.StandsAt p) (hshort : Short (p / one * one).natAbs)
    (hlimit : (p / one * one).natAbs < limit) : (floor x).StandsAt (p / one * one) := by
  obtain ⟨s, m, rfl, rfl⟩ := hx
  obtain ⟨whole, hfloor, hwhole⟩ := floor_eq s m
  have hplace : signed s m / one * one = if s then -((whole * one : Nat) : Int) else (whole * one : Nat) := by
    rw [hwhole, ite_mul, Int.neg_mul, Int.natCast_mul]
  have hsize : (signed s m / one * one).natAbs = whole * one := by
    rw [hplace]
    split_ifs
    · rw [Int.natAbs_neg, Int.natAbs_natCast]
    · rw [Int.natAbs_natCast]
  rw [hsize] at hshort hlimit
  have hrounded := roundUnits_short hshort
  have hstands := round_stands (s := s) (hrounded.trans_lt hlimit)
  rwa [hrounded, ← hplace, ← hfloor] at hstands

end Places

end Formula.Binary64
