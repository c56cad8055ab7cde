import Formula.Proofs.NumericValues
import Mathlib.Algebra.Order.Field.Basic
import Mathlib.Algebra.Order.Field.Power
import Mathlib.Data.Rat.Lemmas
import Mathlib.Tactic.Linarith
import Mathlib.Tactic.Ring

namespace Formula

namespace Binary64

section Counts

variable {num den b : Nat}

/-- No multiple of the divisor is nearer than the one that is chosen. -/
theorem divNearest_nearest (h : 0 < den) (j : Nat) :
    ((num : Int) - (divNearest num den * den : Nat)).natAbs ≤ ((num : Int) - (j * den : Nat)).natAbs := by
  have hnum : num / den * den + num % den = num := Nat.div_add_mod' num den
  have hrem : num % den < den := Nat.mod_lt num h
  have hnext : (num / den + 1) * den = num / den * den + den := Nat.succ_mul _ _
  have hother : j * den ≤ num / den * den ∨ (num / den + 1) * den ≤ j * den := by
    rcases Nat.lt_or_ge (num / den) j with hless | hge
    · exact .inr (Nat.mul_le_mul_right den hless)
    · exact .inl (Nat.mul_le_mul_right den hge)
  rw [divNearest]
  split_ifs <;> omega

/-- No count that needs no rounding is nearer than the rounded one. -/
theorem roundUnits_nearest (h : 0 < den) (hb : Short b) :
    ((num : Int) - (roundUnits num den * den : Nat)).natAbs ≤ ((num : Int) - (b * den : Nat)).natAbs := by
  have hpos := ulp_pos (num / den)
  have hmultiple {c : Nat} (hc : Nat.pow 2 ((num / den).log2 - 52) ∣ c) :
      ((num : Int) - (roundUnits num den * den : Nat)).natAbs ≤ ((num : Int) - (c * den : Nat)).natAbs := by
    obtain ⟨k, rfl⟩ := hc
    rw [roundUnits]
    generalize Nat.pow 2 ((num / den).log2 - 52) = ulp at hpos ⊢
    have hnearest : ((num : Int) - (divNearest num (den * ulp) * (den * ulp) : Nat)).natAbs ≤
        ((num : Int) - (k * (den * ulp) : Nat)).natAbs := divNearest_nearest (Nat.mul_pos h hpos) k
    rwa [show ulp * k * den = k * (den * ulp) by ring,
      show divNearest num (den * ulp) * ulp * den = divNearest num (den * ulp) * (den * ulp) by ring]
  rcases Nat.lt_or_ge b.log2 (num / den).log2 with hless | hge
  · have hquot : num / den ≠ 0 := by
      intro hzero
      rw [hzero] at hless
      exact absurd hless (by simp)
    have hbelow : b < 2 ^ (num / den).log2 :=
      Nat.lt_of_lt_of_le Nat.lt_log2_self (Nat.pow_le_pow_right (by decide) hless)
    have hfirst : 2 ^ (num / den).log2 * den ≤ num :=
      (Nat.le_div_iff_mul_le h).mp (Nat.log2_self_le hquot)
    have hle : b * den ≤ 2 ^ (num / den).log2 * den := Nat.mul_le_mul_right den hbelow.le
    have hnearest := hmultiple (pow_dvd (Nat.sub_le (num / den).log2 52))
    change _ ≤ ((num : Int) - (2 ^ (num / den).log2 * den : Nat)).natAbs at hnearest
    generalize 2 ^ (num / den).log2 * den = first at hfirst hle hnearest
    omega
  · exact hmultiple (Nat.dvd_trans (pow_dvd (Nat.sub_le_sub_right hge 52)) hb)

theorem roundUnits_scale {k : Nat} (hk : 0 < k) : roundUnits (num * k) (den * k) = roundUnits num den := by
  rw [roundUnits, roundUnits, Nat.mul_div_mul_right num den hk]
  generalize Nat.pow 2 ((num / den).log2 - 52) = ulp
  rw [Nat.mul_right_comm, divNearest_scale num (den * ulp) hk]

/-- Numbers that need no rounding are not close to each other. -/
theorem short_gap {a b : Nat} (ha : Short a) (hb : Short b) (h : a < b) : a < 2 ^ 53 * (b - a) := by
  have hulp : Nat.pow 2 (a.log2 - 52) ∣ b - a := Nat.dvd_sub (Nat.dvd_trans (ulp_dvd h.le) hb) ha
  have hle : Nat.pow 2 (a.log2 - 52) ≤ b - a := Nat.le_of_dvd (by omega) hulp
  calc a < 2 ^ (a.log2 + 1) := Nat.lt_log2_self
    _ ≤ 2 ^ (53 + (a.log2 - 52)) := Nat.pow_le_pow_right (by decide) (by omega)
    _ = 2 ^ 53 * Nat.pow 2 (a.log2 - 52) := Nat.pow_add 2 53 _
    _ ≤ 2 ^ 53 * (b - a) := Nat.mul_le_mul_left _ hle

end Counts

def nearestUnits (q : ℚ) : Nat := roundUnits q.num.natAbs q.den

theorem short_nearest (q : ℚ) : Short (nearestUnits q) := dvd_roundUnits _ _

/-- Only the value of a fraction matters. -/
theorem roundUnits_eq {num den : Nat} (h : 0 < den) : roundUnits num den = nearestUnits (num / den) := by
  have hcast : (den : ℚ) ≠ 0 := Nat.cast_ne_zero.mpr h.ne'
  have hnonneg : 0 ≤ ((num : ℚ) / den).num := Rat.num_nonneg.mpr (div_nonneg num.cast_nonneg den.cast_nonneg)
  have hcross : num * ((num : ℚ) / den).den = ((num : ℚ) / den).num.natAbs * den := by
    have hquot := Rat.num_div_den ((num : ℚ) / den)
    rw [div_eq_div_iff (Nat.cast_ne_zero.mpr (Rat.den_nz _)) hcast] at hquot
    have hint : ((num : ℚ) / den).num * den = num * ((num : ℚ) / den).den := by exact_mod_cast hquot
    zify
    rw [abs_of_nonneg hnonneg, hint]
  calc roundUnits num den
      = roundUnits (num * ((num : ℚ) / den).den) (den * ((num : ℚ) / den).den) :=
        (roundUnits_scale (Rat.den_pos _)).symm
    _ = roundUnits (((num : ℚ) / den).num.natAbs * den) (((num : ℚ) / den).den * den) := by
        rw [hcross, Nat.mul_comm den]
    _ = nearestUnits (num / den) := roundUnits_scale h

section Fractions

variable {p q : ℚ} {b : Nat}

/-- Of all numbers that need no rounding, none is nearer to a fraction than the one it is rounded to. -/
theorem nearestUnits_nearest (hq : 0 ≤ q) (hb : Short b) : |q - nearestUnits q| ≤ |q - b| := by
  have hden : (0 : ℚ) < q.den := Nat.cast_pos.mpr q.den_pos
  have hdistance (c : Nat) :
      |q - c| = (((q.num.natAbs : Int) - (c * q.den : Nat)).natAbs : ℚ) / q.den := by
    have hnum : (q.num.natAbs : ℚ) = q * q.den := by
      rw [Nat.cast_natAbs, abs_of_nonneg (Rat.num_nonneg.mpr hq), Rat.mul_den_eq_num]
    rw [eq_div_iff hden.ne']
    calc |q - c| * q.den = |(q - c) * q.den| := by rw [abs_mul, abs_of_pos hden]
      _ = |(q.num.natAbs : ℚ) - c * q.den| := by rw [hnum, sub_mul]
      _ = _ := by
        rw [Nat.cast_natAbs ((q.num.natAbs : Int) - (c * q.den : Nat)), Int.cast_abs, Int.cast_sub,
          Int.cast_natCast, Int.cast_natCast, Nat.cast_mul]
  rw [hdistance, hdistance, div_le_div_iff_of_pos_right hden]
  exact_mod_cast roundUnits_nearest q.den_pos hb

/-- What needs no rounding is rounded to itself. -/
theorem nearestUnits_short (hb : Short b) : nearestUnits b = b := by
  have hnearest := nearestUnits_nearest (Nat.cast_nonneg b) hb
  rw [sub_self, abs_zero, abs_nonpos_iff, sub_eq_zero, Nat.cast_inj] at hnearest
  exact hnearest.symm

/-- Rounding keeps the order. -/
theorem nearestUnits_mono (hp : 0 ≤ p) (h : p ≤ q) : nearestUnits p ≤ nearestUnits q := by
  by_contra hless
  rw [not_le] at hless
  -- Two fractions that change places would be the middle of the same two numbers, and so be equal.
  have hcast : (nearestUnits q : ℚ) < nearestUnits p := Nat.cast_lt.mpr hless
  have hlow := nearestUnits_nearest hp (short_nearest q)
  have hhigh := nearestUnits_nearest (hp.trans h) (short_nearest p)
  have hmiddle : (nearestUnits p : ℚ) + nearestUnits q ≤ 2 * p := by
    rcases abs_cases (p - nearestUnits p) with ⟨h₁, _⟩ | ⟨h₁, _⟩ <;>
      rcases abs_cases (p - nearestUnits q) with ⟨h₂, _⟩ | ⟨h₂, _⟩ <;> linarith
  have hmiddle' : 2 * q ≤ (nearestUnits p : ℚ) + nearestUnits q := by
    rcases abs_cases (q - nearestUnits p) with ⟨h₁, _⟩ | ⟨h₁, _⟩ <;>
      rcases abs_cases (q - nearestUnits q) with ⟨h₂, _⟩ | ⟨h₂, _⟩ <;> linarith
  have heq : p = q := by linarith
  exact absurd hless (heq ▸ lt_irrefl _)

/-- Less than half a unit is rounded to nothing. -/
theorem nearestUnits_eq_zero (hq : 0 ≤ q) (h : 2 * q < 1) : nearestUnits q = 0 := by
  have hnearest := nearestUnits_nearest hq (b := 0) (by decide)
  rw [Nat.cast_zero, sub_zero, abs_of_nonneg hq] at hnearest
  by_contra hne
  have hone : (1 : ℚ) ≤ nearestUnits q := by exact_mod_cast Nat.one_le_iff_ne_zero.mpr hne
  have hfar := neg_le_abs (q - nearestUnits q)
  linarith

end Fractions

def ofUnits (negative : Bool) (q : ℚ) : Binary64 := round negative q.num.natAbs q.den

section Numbers

variable {s t : Bool} {m : Magnitude} {q : ℚ}

theorem round_eq {num den : Nat} (h : 0 < den) : round s num den = ofUnits s (num / den) := by
  have hunits : roundUnits num den =
      roundUnits ((num : ℚ) / den).num.natAbs ((num : ℚ) / den).den := roundUnits_eq h
  simp only [ofUnits, round, hunits]

theorem ofUnits_eq_finite_iff : ofUnits s q = finite t m ↔ s = t ∧ nearestUnits q = m.units := by
  rw [ofUnits, round]
  constructor
  · intro h
    split_ifs at h
    obtain ⟨rfl, rfl⟩ := finite.inj h
    exact ⟨rfl, rfl⟩
  · rintro ⟨rfl, hunits⟩
    have hlimit : nearestUnits q < limit := by
      rw [hunits]
      exact m.representable.1
    rw [nearestUnits] at hlimit hunits
    rw [dif_pos hlimit]
    congr 2

theorem ofUnits_eq_zero (h : nearestUnits q = 0) : ofUnits s q = zero s :=
  ofUnits_eq_finite_iff.mpr ⟨rfl, h⟩

theorem ofUnits_eq_infinite (h : limit ≤ q) : ofUnits s q = infinite s := by
  have hle : limit ≤ nearestUnits q := by
    rw [← nearestUnits_short (b := limit) (by decide +kernel)]
    exact nearestUnits_mono limit.cast_nonneg h
  rw [nearestUnits] at hle
  rw [ofUnits, round, dif_neg (Nat.not_lt.mpr hle)]

end Numbers

end Binary64

namespace Decimal

def size (d : Decimal) : ℚ := d.coefficient * 10 ^ d.exponent

def value (d : Decimal) : ℚ := if d.negative then -d.size else d.size

theorem size_nonneg (d : Decimal) : 0 ≤ d.size :=
  mul_nonneg d.coefficient.cast_nonneg (zpow_nonneg (by norm_num) _)

end Decimal

namespace Binary64

/-- A decimal is read as the number nearest to its value, and its exponent makes no other difference. -/
theorem ofDecimal_eq (d : Decimal) : ofDecimal d = ofUnits d.negative (d.size * one) := by
  obtain ⟨negative, coefficient, exponent⟩ := d
  rw [ofDecimal]
  split
  · next e he =>
    obtain rfl : exponent = (e : Int) := he
    have hsize : (Decimal.size ⟨negative, coefficient, e⟩) * one =
        ((coefficient * Nat.pow 10 e * one : Nat) : ℚ) / (1 : Nat) := by
      simp only [Decimal.size, Nat.pow_eq]
      push_cast
      rw [zpow_natCast, div_one]
    rw [hsize]
    dsimp only
    split_ifs with hzero hlarge
    · rw [hzero, Nat.zero_mul, Nat.zero_mul, Nat.cast_zero, zero_div]
      exact (ofUnits_eq_zero (nearestUnits_short (b := 0) (by decide))).symm
    · obtain ⟨j, hj, hfar⟩ : ∃ j, j = 331 ∧ limit ≤ 1 * Nat.pow 10 j * one :=
        ⟨331, rfl, by decide +kernel⟩
      have hpow : Nat.pow 10 j ≤ Nat.pow 10 e := Nat.pow_le_pow_right (by decide) (by omega)
      have hle : limit ≤ coefficient * Nat.pow 10 e * one :=
        hfar.trans (Nat.mul_le_mul_right one (Nat.mul_le_mul (Nat.pos_of_ne_zero hzero) hpow))
      rw [ofUnits_eq_infinite]
      rw [Nat.cast_one, div_one]
      exact_mod_cast hle
    · exact round_eq Nat.one_pos
  · next k he =>
    obtain rfl : exponent = Int.negSucc k := he
    have hsize : (Decimal.size ⟨negative, coefficient, Int.negSucc k⟩) * one =
        ((coefficient * one : Nat) : ℚ) / (Nat.pow 10 (k + 1) : Nat) := by
      simp only [Decimal.size, Nat.pow_eq, zpow_negSucc]
      push_cast
      ring
    have hpos : 0 < Nat.pow 10 (k + 1) := Nat.pow_pos (by decide)
    rw [hsize]
    dsimp only
    split_ifs with hsmall
    · have hless : 2 * (coefficient * one) < Nat.pow 10 (k + 1) := by
        obtain ⟨e, he, hone⟩ : ∃ e, e = 1074 ∧ one ≤ Nat.pow 2 e := ⟨1074, rfl, by decide +kernel⟩
        calc 2 * (coefficient * one) ≤ 2 * (2 ^ (coefficient.log2 + 1) * 2 ^ e) :=
              Nat.mul_le_mul_left 2 (Nat.mul_le_mul Nat.lt_log2_self.le hone)
          _ = 2 ^ (coefficient.log2 + 1 + e + 1) := by rw [← Nat.pow_add, Nat.pow_succ']
          _ < 2 ^ (3 * (k + 1)) := Nat.pow_lt_pow_right (by decide) (by omega)
          _ = 8 ^ (k + 1) := Nat.pow_mul 2 3 (k + 1)
          _ ≤ Nat.pow 10 (k + 1) := Nat.pow_le_pow_left (by decide) _
      rw [ofUnits_eq_zero]
      apply nearestUnits_eq_zero
      · exact div_nonneg (Nat.cast_nonneg _) (Nat.cast_nonneg _)
      · rw [← mul_div_assoc, div_lt_one (Nat.cast_pos.mpr hpos)]
        exact_mod_cast hless
    · exact round_eq hpos

/-- A decimal is read as a finite number exactly if that is the nearest one, of the same sign. -/
theorem ofDecimal_eq_finite_iff {d : Decimal} {s : Bool} {m : Magnitude} :
    ofDecimal d = finite s m ↔ d.negative = s ∧ nearestUnits (d.size * one) = m.units := by
  rw [ofDecimal_eq, ofUnits_eq_finite_iff]

end Binary64

end Formula
