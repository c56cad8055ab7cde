import Formula.Proofs.FiniteNumbers
import Mathlib.Algebra.Group.Nat.Defs

namespace Formula.Binary64

def Short (n : Nat) : Prop := Nat.pow 2 (n.log2 - 52) ∣ n

instance : DecidablePred Short := fun _ => inferInstanceAs (Decidable (_ ∣ _))

theorem one_pos : 0 < one := by decide +kernel

theorem ulp_pos (n : Nat) : 0 < Nat.pow 2 (n.log2 - 52) := Nat.pow_pos (by decide)

theorem log2_mono {m n : Nat} (h : m ≤ n) : m.log2 ≤ n.log2 := by
  by_cases hm : m = 0
  · rw [hm]
    exact Nat.zero_le _
  · exact (Nat.le_log2 (by omega)).mpr ((Nat.log2_self_le hm).trans h)

theorem log2_of_bounds {n k : Nat} (hlow : Nat.pow 2 k ≤ n) (hhigh : n < Nat.pow 2 (k + 1)) :
    n.log2 = k :=
  (Nat.log2_eq_iff (Nat.ne_of_gt (Nat.lt_of_lt_of_le (Nat.pow_pos (by decide)) hlow))).mpr
    ⟨hlow, hhigh⟩

theorem pow_dvd {m n : Nat} (h : m ≤ n) : Nat.pow 2 m ∣ Nat.pow 2 n := Nat.pow_dvd_pow 2 h

/-- The last places of smaller numbers divide those of greater ones. -/
theorem ulp_dvd {m n : Nat} (h : m ≤ n) : Nat.pow 2 (m.log2 - 52) ∣ Nat.pow 2 (n.log2 - 52) :=
  pow_dvd (Nat.sub_le_sub_right (log2_mono h) 52)

theorem le_divNearest (num den : Nat) : num / den ≤ divNearest num den := by
  unfold divNearest
  dsimp only
  repeat' split
  all_goals omega

/-- A multiple is nearest to itself. -/
theorem divNearest_mul_self (k : Nat) {den : Nat} (h : 0 < den) : divNearest (k * den) den = k := by
  have hrem : k * den % den = 0 := Nat.mul_mod_left k den
  simp only [divNearest, Nat.mul_div_cancel k h, hrem, Nat.mul_zero, if_pos h]

theorem roundUnits_one (n : Nat) : roundUnits n 1 =
    divNearest n (Nat.pow 2 (n.log2 - 52)) * Nat.pow 2 (n.log2 - 52) := by
  rw [roundUnits, Nat.div_one, Nat.one_mul]

/-- What needs no rounding stays as it is. -/
theorem roundUnits_short {n : Nat} (h : Short n) : roundUnits n 1 = n := by
  have hpos := ulp_pos n
  obtain ⟨k, hk⟩ := h
  rw [roundUnits_one]
  generalize Nat.pow 2 (n.log2 - 52) = ulp at hk hpos
  rw [Nat.mul_comm] at hk
  rw [hk, divNearest_mul_self k hpos]

theorem roundUnits_le_short {n b : Nat} (hb : Short b) (h : n ≤ b) : roundUnits n 1 ≤ b := by
  rcases Nat.eq_or_lt_of_le h with rfl | hlt
  · exact (roundUnits_short hb).le
  · obtain ⟨k, hk⟩ := Nat.dvd_trans (ulp_dvd h) hb
    rw [roundUnits_one]
    generalize Nat.pow 2 (n.log2 - 52) = ulp at hk ⊢
    have hquot : n / ulp < k := Nat.div_lt_of_lt_mul (hk ▸ hlt)
    calc divNearest n ulp * ulp ≤ k * ulp := Nat.mul_le_mul_right ulp (divNearest_le hquot)
      _ = b := by rw [hk, Nat.mul_comm]

theorem short_le_roundUnits {n b : Nat} (hb : Short b) (h : b ≤ n) : b ≤ roundUnits n 1 := by
  -- A bound below the number is a multiple of its last place, or below its first bit, which is one.
  have hmultiple {c : Nat} (hc : Nat.pow 2 (n.log2 - 52) ∣ c) (hcn : c ≤ n) :
      c ≤ roundUnits n 1 := by
    have hpos := ulp_pos n
    obtain ⟨k, rfl⟩ := hc
    rw [roundUnits_one]
    generalize Nat.pow 2 (n.log2 - 52) = ulp at hcn hpos ⊢
    have hquot : k ≤ n / ulp := (Nat.le_div_iff_mul_le hpos).mpr (by rwa [Nat.mul_comm])
    rw [Nat.mul_comm]
    exact Nat.mul_le_mul_right ulp (hquot.trans (le_divNearest n ulp))
  rcases Nat.eq_or_lt_of_le (log2_mono h) with hlog | hlog
  · exact hmultiple (hlog ▸ hb) h
  · have hn : n ≠ 0 := by
      rintro rfl
      exact absurd hlog (by simp)
    have hfirst : 2 ^ n.log2 ≤ roundUnits n 1 :=
      hmultiple (Nat.pow_dvd_pow 2 (Nat.sub_le _ 52)) (Nat.log2_self_le hn)
    have hbelow : b < 2 ^ n.log2 := Nat.lt_of_lt_of_le Nat.lt_log2_self (Nat.pow_le_pow_right (by decide) hlog)
    exact hbelow.le.trans hfirst

/-- A power of two that divides a number divides the rounded number. -/
theorem pow_dvd_roundUnits {n e : Nat} (h : Nat.pow 2 e ∣ n) : Nat.pow 2 e ∣ roundUnits n 1 := by
  rcases Nat.le_total e (n.log2 - 52) with hle | hle
  · rw [roundUnits_one]
    exact Nat.dvd_mul_left_of_dvd (pow_dvd hle) _
  · rwa [roundUnits_short (Nat.dvd_trans (pow_dvd hle) h)]

theorem exists_pow_eq_one : ∃ e, one = Nat.pow 2 e := ⟨1074, by decide +kernel⟩

/-- Whole numbers below two to the power 53 need no rounding. -/
theorem short_of_small {k : Nat} (h : k < 2 ^ 53) : Short (k * one) := by
  obtain ⟨e, he⟩ := exists_pow_eq_one
  rw [he]
  exact Nat.dvd_trans (pow_dvd (log2_mul_pow_le h)) (Nat.dvd_mul_left _ k)

theorem short_two_pow (e : Nat) : Short (2 ^ e * one) := by
  obtain ⟨k, hk⟩ := exists_pow_eq_one
  rw [hk, Nat.pow_eq, ← Nat.pow_add, Short, Nat.log2_two_pow]
  exact pow_dvd (Nat.sub_le _ 52)

/-- Whole numbers are rounded to whole numbers. -/
theorem one_dvd_roundUnits (k : Nat) : one ∣ roundUnits (k * one) 1 := by
  obtain ⟨e, he⟩ := exists_pow_eq_one
  rw [he]
  exact pow_dvd_roundUnits (Nat.dvd_mul_left _ k)

theorem divNearest_scale (num den : Nat) {k : Nat} (h : 0 < k) :
    divNearest (num * k) (den * k) = divNearest num den := by
  have hless (a b : Nat) : a * k < b * k ↔ a < b := Nat.mul_lt_mul_right h
  simp only [divNearest, Nat.mul_div_mul_right num den h, Nat.mul_mod_mul_right, ← Nat.mul_assoc,
    hless]

/-- The integers next to the end of their range are 1024 units of the last place apart. -/
theorem roundUnits_near_end {k : Nat} (hlow : 2 ^ 62 ≤ k) (hhigh : k < 2 ^ 63) :
    roundUnits (k * one) 1 = divNearest k 1024 * 1024 * one := by
  obtain ⟨e, hfirst, hend, hulp⟩ : ∃ e, Nat.pow 2 e = 2 ^ 62 * one ∧
      Nat.pow 2 (e + 1) = 2 ^ 63 * one ∧ Nat.pow 2 (e - 52) = 1024 * one :=
    ⟨1136, by decide +kernel⟩
  have hpos := one_pos
  have hlog : (k * one).log2 = e := by
    apply log2_of_bounds
    · rw [hfirst]
      exact Nat.mul_le_mul_right one hlow
    · rw [hend]
      exact (Nat.mul_lt_mul_right hpos).mpr hhigh
  rw [roundUnits_one, hlog, hulp, divNearest_scale k 1024 hpos, Nat.mul_assoc]

theorem roundUnits_eq_end_iff {k : Nat} (h : k < 2 ^ 63) :
    roundUnits (k * one) 1 = 2 ^ 63 * one ↔ 2 ^ 63 - 512 ≤ k := by
  have hpos := one_pos
  by_cases hlow : 2 ^ 62 ≤ k
  · rw [roundUnits_near_end hlow h, Nat.mul_left_inj hpos.ne']
    simp only [divNearest]
    split_ifs <;> omega
  · have hle : roundUnits (k * one) 1 ≤ 2 ^ 62 * one :=
      roundUnits_le_short (short_two_pow 62) (Nat.mul_le_mul_right one (by omega))
    have hless : 2 ^ 62 * one < 2 ^ 63 * one := (Nat.mul_lt_mul_right hpos).mpr (by decide)
    exact ⟨fun heq => absurd (heq ▸ hle) (by omega), fun hk => absurd hk (by omega)⟩

def rounded (z : Int) : Int := z.sign * (roundUnits (z.natAbs * one) 1 : Nat)

theorem rounded_neg (z : Int) : rounded (-z) = -rounded z := by
  rw [rounded, rounded, Int.sign_neg, Int.natAbs_neg, Int.neg_mul]

theorem roundUnits_zero : roundUnits (0 * one) 1 = 0 := by
  rw [Nat.zero_mul]
  exact roundUnits_short (by decide)

theorem rounded_natCast (k : Nat) : rounded k = (roundUnits (k * one) 1 : Nat) := by
  rcases Nat.eq_zero_or_pos k with rfl | hpos
  · rw [roundUnits_zero]
    exact Int.zero_mul _
  · rw [rounded, Int.natAbs_natCast, Int.sign_natCast_of_ne_zero hpos.ne', Int.one_mul]

theorem natAbs_rounded (z : Int) : (rounded z).natAbs = roundUnits (z.natAbs * one) 1 := by
  rcases Int.eq_nat_or_neg z with ⟨k, rfl | rfl⟩
  · rw [rounded_natCast, Int.natAbs_natCast, Int.natAbs_natCast]
  · rw [rounded_neg, rounded_natCast, Int.natAbs_neg, Int.natAbs_natCast, Int.natAbs_neg, Int.natAbs_natCast]

/-- What is no greater than a power of two is rounded to no more than that. -/
theorem natAbs_rounded_le {z : Int} {e : Nat} (h : z.natAbs ≤ 2 ^ e) : (rounded z).natAbs ≤ 2 ^ e * one := by
  rw [natAbs_rounded]
  exact roundUnits_le_short (short_two_pow e) (Nat.mul_le_mul_right one h)

theorem le_natAbs_rounded {z : Int} {e : Nat} (h : 2 ^ e ≤ z.natAbs) : 2 ^ e * one ≤ (rounded z).natAbs := by
  rw [natAbs_rounded]
  exact short_le_roundUnits (short_two_pow e) (Nat.mul_le_mul_right one h)

theorem one_dvd_rounded (z : Int) : (one : Int) ∣ rounded z :=
  Int.dvd_mul_of_dvd_right (Int.natCast_dvd_natCast.mpr (one_dvd_roundUnits _))

/-- Rounding upwards passes no number that needs no rounding. -/
theorem rounded_le {z p : Int} (hp : Short p.natAbs) (h : z * one ≤ p) : rounded z ≤ p := by
  obtain ⟨k, rfl | rfl⟩ := Int.eq_nat_or_neg z
  · have hnonneg : 0 ≤ p := (Int.natCast_nonneg (k * one)).trans (by rwa [Int.natCast_mul])
    obtain ⟨b, rfl⟩ := Int.eq_ofNat_of_zero_le hnonneg
    rw [rounded_natCast]
    exact Int.ofNat_le.mpr (roundUnits_le_short hp (by exact_mod_cast h))
  · rw [rounded_neg, rounded_natCast]
    rcases Int.le_total 0 p with hnonneg | hneg
    · exact (Int.neg_nonpos_of_nonneg (Int.natCast_nonneg _)).trans hnonneg
    · obtain ⟨b, rfl⟩ := Int.exists_eq_neg_ofNat hneg
      rw [Int.natAbs_neg] at hp
      have hle : b ≤ k * one := by
        rw [Int.neg_mul, Int.neg_le_neg_iff] at h
        exact_mod_cast h
      exact Int.neg_le_neg (Int.ofNat_le.mpr (short_le_roundUnits hp hle))

/-- Rounding downwards passes none, either. -/
theorem le_rounded {z p : Int} (hp : Short p.natAbs) (h : p ≤ z * one) : p ≤ rounded z := by
  have hneg : rounded (-z) ≤ -p := by
    apply rounded_le (by rwa [Int.natAbs_neg])
    rw [Int.neg_mul]
    exact Int.neg_le_neg h
  rw [rounded_neg] at hneg
  omega

/-- Of the integers below the end of their range, the 512 greatest are rounded to it. -/
theorem rounded_eq_end_iff {z : Int} (h : z < 9223372036854775808) :
    rounded z = 9223372036854775808 * one ↔ 9223372036854775296 ≤ z := by
  rcases Int.le_total 0 z with hz | hz
  · obtain ⟨k, rfl⟩ := Int.eq_ofNat_of_zero_le hz
    have hend := roundUnits_eq_end_iff (k := k) (by omega)
    have hwidth : ((2 ^ 63 : Nat) : Int) = 9223372036854775808 := rfl
    rw [rounded_natCast, ← hwidth, ← Int.natCast_mul, Int.natCast_inj, hend]
    omega
  · have hle : rounded z ≤ 0 :=
      rounded_le (by decide) (Int.mul_nonpos_of_nonpos_of_nonneg hz (Int.natCast_nonneg one))
    have hpos : (0 : Int) < 9223372036854775808 * one :=
      Int.mul_pos (by decide) (Int.natCast_pos.mpr one_pos)
    exact ⟨fun heq => absurd (heq ▸ hle) (Int.not_le.mpr hpos), fun hz' => by omega⟩

theorem natAbs_signed (s : Bool) (m : Magnitude) : (signed s m).natAbs = m.units := by
  cases s <;> simp [signed]

theorem short_signed (s : Bool) (m : Magnitude) : Short (signed s m).natAbs := by
  rw [natAbs_signed]
  exact m.representable.2

theorem position_of_int64 (n : Int64) : (ofInt n.toInt).position? = some (rounded n.toInt) := by
  have hfinite := finite_of_int64 n
  generalize n.toInt = z at hfinite ⊢
  rw [ofInt, round] at hfinite ⊢
  split at hfinite
  · next h =>
    rw [dif_pos h]
    refine congrArg some ?_
    change (if decide (z < 0) then -((roundUnits (z.natAbs * one) 1 : Nat) : Int)
      else (roundUnits (z.natAbs * one) 1 : Nat)) = rounded z
    rw [rounded]
    rcases lt_trichotomy z 0 with hz | rfl | hz
    · rw [Int.sign_eq_neg_one_of_neg hz, decide_eq_true hz, if_pos rfl, Int.neg_one_mul]
    · rw [Int.natAbs_zero, roundUnits_zero]
      rfl
    · rw [Int.sign_eq_one_of_pos hz, decide_eq_false (Int.not_lt.mpr hz.le), Int.one_mul]
      rfl
  · cases hfinite

/-- The numbers that are whole are those at a multiple of one. -/
theorem toInt_eq_some_iff {s : Bool} {m : Magnitude} {k : Int} :
    (finite s m).toInt? = some k ↔ signed s m = k * one := by
  have hone : (one : Int) ≠ 0 := Int.natCast_ne_zero.mpr one_pos.ne'
  have hsigned : signed s m = (if s then -1 else 1) * m.units := by
    cases s <;> simp [signed]
  by_cases hdvd : m.units % one = 0
  · obtain ⟨q, hq⟩ := Nat.dvd_of_mod_eq_zero hdvd
    rw [toInt?, if_pos hdvd, hsigned, hq, Nat.mul_div_cancel_left q one_pos, Option.some_inj,
      Nat.mul_comm, Int.natCast_mul, ← Int.mul_assoc, Int.mul_eq_mul_right_iff hone]
    cases s <;> simp
  · rw [toInt?, if_neg hdvd]
    refine ⟨fun h => (nomatch h), fun h => absurd ?_ hdvd⟩
    have hunits : (one : Int) ∣ m.units := by
      have hdvd : (one : Int) ∣ signed s m := ⟨k, by rw [h, Int.mul_comm]⟩
      cases s
      · exact hdvd
      · exact Int.dvd_neg.mp hdvd
    exact Nat.mod_eq_zero_of_dvd (Int.natCast_dvd_natCast.mp hunits)

end Formula.Binary64
