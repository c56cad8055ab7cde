import Formula.Proofs.IntegerLiterals
import Formula.Proofs.PlacedArithmetic

/-!
Whole numbers rounded to decimal places. A number is scaled by a power of ten, one half is added, the whole part
is taken and scaled back, and each step is rounded. A whole number is kept exactly if the half is not lost, the
scaled number is in range and its rounding error is less than half a last place of the number.
-/

namespace Formula

namespace Binary64

section Halves

variable {n w v : Nat}

/-- Next to the doubles of numbers that need no rounding, two last places or one are all that is dropped. -/
theorem exists_half_place (hw : Short w) (hlow : 2 ^ 53 ≤ n) (hhigh : n ≤ 2 * w + 1) :
    ∃ v, Nat.pow 2 (n.log2 - 52) = 2 * v ∧ v ∣ w ∧ 0 < v ∧ (v = 1 ∨ 2 ∣ v) := by
  have hn : n ≠ 0 := by omega
  have hbits : 53 ≤ n.log2 := (Nat.le_log2 hn).mpr hlow
  have hw' : w ≠ 0 := by omega
  have hmore : n < 2 ^ (w.log2 + 1 + 1) := by
    have hless : w < 2 ^ (w.log2 + 1) := Nat.lt_log2_self
    rw [Nat.pow_succ]
    omega
  have hlog : n.log2 < w.log2 + 1 + 1 := (Nat.log2_lt hn).mpr hmore
  refine ⟨Nat.pow 2 (n.log2 - 53), ?_, ?_, Nat.pow_pos (by decide), ?_⟩
  · have hplaces : n.log2 - 52 = n.log2 - 53 + 1 := by omega
    rw [hplaces]
    exact Nat.pow_succ'
  · exact Nat.dvd_trans (pow_dvd (by omega)) hw
  · rcases Nat.eq_zero_or_pos (n.log2 - 53) with hzero | hpos
    · exact .inl (by rw [hzero])
    · exact .inr (pow_dvd (m := 1) hpos)

/-- What is little more than a multiple, and what lacks little to one, is nearest to it. -/
theorem divNearest_near {q r den : Nat} (h : 2 * r < den) :
    divNearest (q * den + r) den = q ∧ (1 ≤ r → 1 ≤ q → divNearest (q * den - r) den = q) := by
  have hpos : 0 < den := by omega
  have hquot {p t : Nat} (ht : t < den) : (p * den + t) / den = p ∧ (p * den + t) % den = t := by
    rw [Nat.mul_comm, Nat.mul_add_div hpos, Nat.mul_add_mod, Nat.div_eq_of_lt ht, Nat.mod_eq_of_lt ht]
    exact ⟨rfl, rfl⟩
  constructor
  · obtain ⟨hdiv, hmod⟩ := hquot (p := q) (t := r) (by omega)
    rw [divNearest, hdiv, hmod, if_pos h]
  · intro hr hq
    obtain ⟨p, rfl⟩ : ∃ p, q = p + 1 := ⟨q - 1, by omega⟩
    have hbelow : (p + 1) * den - r = p * den + (den - r) := by
      rw [Nat.succ_mul]
      omega
    obtain ⟨hdiv, hmod⟩ := hquot (p := p) (t := den - r) (by omega)
    rw [hbelow, divNearest, hdiv, hmod, if_neg (by omega), if_pos (by omega)]

/-- One more and one less than the double of a number are in the middle if last places are twos, and otherwise
nearest to the double. -/
theorem divNearest_double (hv : v = 1 ∨ 2 ∣ v) (hpos : 0 < v) (hw : v ∣ w) :
    divNearest (2 * w + 1) (2 * v) * (2 * v) = 2 * (w + w % 2) ∧
      (1 ≤ w → divNearest (2 * w - 1) (2 * v) * (2 * v) = 2 * (w - w % 2)) := by
  obtain ⟨q, rfl⟩ := hw
  rcases hv with rfl | ⟨c, rfl⟩
  · simp only [divNearest]
    constructor
    · split_ifs <;> omega
    · intro hq
      split_ifs <;> omega
  · have hdouble : 2 * (2 * c * q) = q * (2 * (2 * c)) := by ring
    have heven : 2 * c * q % 2 = 0 := by rw [Nat.mul_assoc, Nat.mul_mod_right]
    obtain ⟨habove, hbelow⟩ := @divNearest_near q 1 (2 * (2 * c)) (by omega)
    simp only [heven, Nat.add_zero, Nat.sub_zero, hdouble, habove, true_and]
    intro hq
    rw [hbelow le_rfl (Nat.pos_of_mul_pos_left hq)]

/-- From two to the power 52 on one half is lost or rounded up to one, so that the number becomes even. -/
theorem roundUnits_double (hw : Short w) : (2 ^ 52 ≤ w → roundUnits (2 * w + 1) 1 = 2 * (w + w % 2)) ∧
    (2 ^ 52 < w → roundUnits (2 * w - 1) 1 = 2 * (w - w % 2)) := by
  constructor
  · intro hlow
    obtain ⟨v, hplace, hdvd, hpos, hv⟩ := exists_half_place (n := 2 * w + 1) hw (by omega) le_rfl
    rw [roundUnits_one, hplace]
    exact (divNearest_double hv hpos hdvd).1
  · intro hlow
    obtain ⟨v, hplace, hdvd, hpos, hv⟩ := exists_half_place (n := 2 * w - 1) hw (by omega) (by omega)
    rw [roundUnits_one, hplace]
    exact (divNearest_double hv hpos hdvd).2 (by omega)

theorem odd_short_lt (hw : Short w) (hodd : w % 2 = 1) : w < 2 ^ 53 := by
  by_contra hge
  have hbits : 53 ≤ w.log2 := (Nat.le_log2 (by omega)).mpr (by omega)
  have htwo : 2 ∣ w := Nat.dvd_trans (pow_dvd (m := 1) (by omega)) hw
  omega

def withHalf (z : Int) : Int := if z.natAbs ≤ 2 ^ 52 ∨ z % 2 = 0 then z else z + 1

/-- The double of the sum of a whole number and one half either needs no rounding or is rounded to a double. -/
theorem rounded_withHalf {z : Int} (hz : Short z.natAbs) :
    (withHalf z = z ∧ (2 * z + 1).natAbs ≤ 2 ^ 53) ∨
      (2 * z + 1).sign * (roundUnits (2 * z + 1).natAbs 1 : Nat) = 2 * withHalf z := by
  obtain ⟨habove, hbelow⟩ := roundUnits_double hz
  rcases Nat.lt_or_ge (2 ^ 53) (2 * z + 1).natAbs with hlarge | hsmall
  · right
    rw [withHalf]
    -- Below zero the half makes the size smaller, and an odd size is rounded down.
    rcases Int.le_total 0 z with hnonneg | hneg
    · have hnat : (2 * z + 1).natAbs = 2 * z.natAbs + 1 := by omega
      rw [hnat, habove (by omega), Int.sign_eq_one_of_pos (by omega)]
      split_ifs <;> omega
    · have hnat : (2 * z + 1).natAbs = 2 * z.natAbs - 1 := by omega
      rw [hnat, hbelow (by omega), Int.sign_eq_neg_one_of_neg (by omega)]
      split_ifs <;> omega
  · left
    refine ⟨?_, hsmall⟩
    rw [withHalf, if_pos (.inl (by omega))]

theorem short_withHalf {z : Int} (hz : Short z.natAbs) : Short (withHalf z).natAbs := by
  rw [withHalf]
  split_ifs with h
  · exact hz
  · have hless := odd_short_lt hz (by omega)
    exact short_of_le (by omega)

theorem withHalf_lt_limit {z : Int} (hz : Short z.natAbs) (h : z.natAbs * one < limit) :
    (withHalf z).natAbs * one < limit := by
  rw [withHalf]
  split_ifs with heven
  · exact h
  · have hless := odd_short_lt hz (by omega)
    have hend : 2 ^ 53 * one < limit := by decide +kernel
    exact Nat.lt_of_le_of_lt (Nat.mul_le_mul_right one (by omega)) hend

theorem exists_half : ∃ e, one = 2 * Nat.pow 2 e ∧ 2 ^ 53 * Nat.pow 2 e < limit ∧
    (ofDecimal ⟨false, 5, -1⟩).StandsAt (Nat.pow 2 e : Nat) := by
  refine ⟨1073, by decide +kernel, by decide +kernel, ?_⟩
  exact standsAt_of_position (by decide +kernel) (by decide +kernel)

/-- One half added to a whole number, and the whole part of the sum. -/
theorem floor_half_stands {x : Binary64} {z : Int} (hx : x.StandsAt (z * one)) :
    (floor (add (ofDecimal ⟨false, 5, -1⟩) x)).StandsAt (withHalf z * one) := by
  obtain ⟨e, hone, hend, hhalf⟩ := exists_half
  have hpow : 0 < Nat.pow 2 e := Nat.pow_pos (by decide)
  have hshort : Short z.natAbs := short_whole_iff.mp (natAbs_whole z ▸ hx.short)
  have hlimit := withHalf_lt_limit hshort (natAbs_whole z ▸ hx.lt_limit)
  have hsum : ((Nat.pow 2 e : Nat) : Int) + z * one = (2 * z + 1) * (Nat.pow 2 e : Nat) := by
    rw [hone]
    push_cast
    ring
  have hrounded : roundUnits ((Nat.pow 2 e : Nat) + z * one).natAbs 1 =
      roundUnits (2 * z + 1).natAbs 1 * Nat.pow 2 e := by
    rw [hsum, Int.natAbs_mul, Int.natAbs_natCast, roundUnits_mul_pow]
  obtain ⟨hhalves, hbound⟩ : (2 * z + 1).sign * (roundUnits (2 * z + 1).natAbs 1 : Nat) / 2 = withHalf z ∧
      roundUnits (2 * z + 1).natAbs 1 * Nat.pow 2 e < limit := by
    rcases rounded_withHalf hshort with ⟨hsame, hsmall⟩ | hdouble
    · rw [roundUnits_short (short_of_le hsmall), Int.sign_mul_natAbs]
      exact ⟨by omega, Nat.lt_of_le_of_lt (Nat.mul_le_mul_right _ hsmall) hend⟩
    · have hcount : roundUnits (2 * z + 1).natAbs 1 = 2 * (withHalf z).natAbs := by
        have hsizes := congrArg Int.natAbs hdouble
        rwa [Int.natAbs_mul, Int.natAbs_mul, Int.natAbs_sign_of_ne_zero (by omega), Nat.one_mul,
          Int.natAbs_natCast] at hsizes
      rw [hdouble, hcount, Nat.mul_comm 2, Nat.mul_assoc, ← hone]
      exact ⟨by omega, hlimit⟩
  have hne : ((Nat.pow 2 e : Nat) : Int) + z * one ≠ 0 := by
    rw [hsum]
    exact Int.mul_ne_zero (by omega) (Int.natCast_ne_zero.mpr hpow.ne')
  have hadd := add_stands hhalf hx hne (hrounded.trans_lt hbound)
  rw [hrounded, hsum, Int.sign_mul, Int.sign_natCast_of_ne_zero hpow.ne', Int.mul_one, Int.natCast_mul,
    ← Int.mul_assoc] at hadd
  have hwhole : (2 * z + 1).sign * (roundUnits (2 * z + 1).natAbs 1 : Nat) * (Nat.pow 2 e : Nat) / one =
      withHalf z := by
    rw [hone, Int.natCast_mul, Int.mul_ediv_mul_of_pos_left _ _ (Int.natCast_pos.mpr hpow)]
    exact hhalves
  have hfloor := floor_stands hadd
  rw [hwhole, natAbs_whole] at hfloor
  exact hfloor (short_whole_iff.mpr (short_withHalf hshort)) hlimit

end Halves

/-- The number nearest to a part of a number that needs no rounding is no greater. -/
theorem nearest_quotient_le {b d : Nat} (hb : Short b) (hd : 0 < d) : nearestUnits ((b : ℚ) / (d : Nat)) ≤ b := by
  have hle : (b : ℚ) / d ≤ b := div_le_self b.cast_nonneg (by exact_mod_cast hd)
  have hmono := nearestUnits_mono (div_nonneg b.cast_nonneg d.cast_nonneg) hle
  rwa [nearestUnits_short hb] at hmono

/-- A whole number is rounded to a finite number just if it is below the middle behind the greatest one. -/
theorem roundUnits_lt_limit_iff (k : Nat) : roundUnits (k * one) 1 < limit ↔ k < overflow := by
  have hsize : Decimal.size ⟨false, k, 0⟩ = k := by simp [Decimal.size]
  rw [← finite_of_nat_iff, finite_ofDecimal_iff, hsize, ← Nat.cast_mul, nearestUnits_nat]

end Binary64

namespace Literal

open Binary64 (one Short)

variable {v : Literal} {n : Int} {x : Binary64}

/-- What denotes a whole number that a float has is that float, up to the sign of zero. -/
theorem float_of_denoted (hv : v.denoted? = some (n : ℚ)) (hx : x.toInt? = some n) :
    ∃ y, v.asFloat = some y ∧ y.StandsAt (n * one) := by
  have hplace := Binary64.standsAt_of_toInt hx
  cases v with
  | bool | err => cases hv
  | int k =>
    obtain rfl : k.toInt = n := by
      have hcast : (k.toInt : ℚ) = n := Option.some.inj hv
      exact_mod_cast hcast
    refine ⟨_, rfl, Binary64.standsAt_of_position (Binary64.finite_of_int64 k) ?_⟩
    rw [Binary64.position_of_int64, Binary64.rounded_of_short hplace.short]
  | float y =>
    cases y with
    | nan | infinite => cases hv
    | finite s m =>
      have hexact : (Binary64.signed s m : ℚ) / one = n := Option.some.inj hv
      rw [div_eq_iff one_cast_pos.ne'] at hexact
      exact ⟨_, rfl, s, m, rfl, by exact_mod_cast hexact⟩
  | str s =>
    obtain ⟨d, hread, hd⟩ := Option.map_eq_some_iff.mp hv
    obtain ⟨t, m, -, hm⟩ := hplace
    have hunits := Binary64.units_of_whole hm
    have hsize : d.size = n.natAbs := by
      rw [Nat.cast_natAbs, Int.cast_abs, ← hd, Decimal.value]
      split_ifs
      · rw [abs_neg, abs_of_nonneg d.size_nonneg]
      · rw [abs_of_nonneg d.size_nonneg]
    have hdecimal : Binary64.ofDecimal d = .finite d.negative m := by
      refine Binary64.ofDecimal_eq_finite_iff.mpr ⟨rfl, ?_⟩
      rw [hsize, ← Nat.cast_mul, ← hunits, Binary64.nearestUnits_short m.representable.2]
    refine ⟨.finite d.negative m, ?_, d.negative, m, rfl, ?_⟩
    · rw [asFloat, Binary64.finite?, hread, Option.map_some, hdecimal]
      rfl
    · have hvalue : (n : ℚ) = if d.negative then -(n.natAbs : ℚ) else n.natAbs := by
        rw [← hd, Decimal.value, hsize]
      have hcount : n = if d.negative then -(n.natAbs : Int) else n.natAbs := by
        refine Int.cast_injective (hvalue.trans ?_)
        split_ifs <;> simp
      calc Binary64.signed d.negative m
          = (if d.negative then -(n.natAbs : Int) else n.natAbs) * one := by
            rw [Binary64.signed, hunits, Int.natCast_mul, ite_mul, Int.neg_mul]
        _ = n * one := by rw [← hcount]

end Literal

namespace Function

open Binary64

/-- The powers of ten that need no rounding. -/
theorem power_stands {p : Nat} (hp : p ≤ 22) : (pow (ofInt 10) p).StandsAt (10 ^ p * one : Nat) := by
  have hpowers : ∀ p < 23, (pow (ofInt 10) (p : Nat)).isFinite = true ∧
      (pow (ofInt 10) (p : Nat)).position? = some ((10 ^ p * one : Nat) : Int) := by
    decide +kernel
  obtain ⟨hfinite, hposition⟩ := hpowers p (by omega)
  exact standsAt_of_position hfinite hposition

/-- What it takes for a whole number of size `n` to be left alone by rounding to `p` places: the half that is
added is not lost, the scaled number is in range, and rounding moves it by less than half a last place of `n`,
times the scale. -/
structure KeepsWhole (n p : Nat) : Prop where
  half : p = 0 → n % 2 = 1 → n ≤ 2 ^ 52
  range : n * 10 ^ p < overflow
  error : 2 ^ 53 * |((n * 10 ^ p : Nat) : Int) - roundUnits (n * 10 ^ p) 1| < (10 ^ p * 2 ^ n.log2 : Nat)

instance (n p : Nat) : Decidable (KeepsWhole n p) :=
  decidable_of_iff ((p = 0 → n % 2 = 1 → n ≤ 2 ^ 52) ∧ n * 10 ^ p < overflow ∧
    2 ^ 53 * |((n * 10 ^ p : Nat) : Int) - roundUnits (n * 10 ^ p) 1| < (10 ^ p * 2 ^ n.log2 : Nat))
    ⟨fun ⟨hhalf, hrange, herror⟩ => ⟨hhalf, hrange, herror⟩, fun h => ⟨h.half, h.range, h.error⟩⟩

section Whole

variable {x : Binary64} {n : Int} {p : Nat}

def scaled (n : Int) (p : Nat) : Int := n.sign * (roundUnits (n.natAbs * 10 ^ p) 1 : Nat)

def scaledBack (z : Int) (p : Nat) : Int := z.sign * nearestUnits ((z.natAbs * one : Nat) / (10 ^ p : Nat))

/-- A whole number of which the scaled one is in range is rounded to a number. -/
theorem roundAt_stands (hx : x.StandsAt (n * one)) (hp : p ≤ 22) (hrange : n.natAbs * 10 ^ p < overflow) :
    (roundAt x p).StandsAt (scaledBack (withHalf (scaled n p)) p) := by
  have hten : 0 < 10 ^ p := Nat.pow_pos (by decide)
  have hpower := power_stands hp
  have hproduct := (mul_whole hx hpower hten).1 ((roundUnits_lt_limit_iff _).mpr hrange)
  have hscaled : n.sign * (roundUnits (n.natAbs * 10 ^ p * one) 1 : Nat) = scaled n p * one := by
    obtain ⟨e, he⟩ := exists_pow_eq_one
    rw [scaled, he, roundUnits_mul_pow, Int.natCast_mul, Int.mul_assoc]
  rw [hscaled] at hproduct
  have hwhole := floor_half_stands hproduct
  have hshort := hwhole.short
  have hlimit := hwhole.lt_limit
  rw [natAbs_whole] at hshort hlimit
  have hback := Nat.lt_of_le_of_lt (nearest_quotient_le hshort hten) hlimit
  rw [roundAt, scaledBack]
  exact div_whole hwhole hpower hten hback

/-- Beyond the range the scaled number is infinite, and so is all that is made of it. -/
theorem roundAt_overflow (hx : x.StandsAt (n * one)) (hp : p ≤ 22) (hrange : overflow ≤ n.natAbs * 10 ^ p) :
    (roundAt x p).isFinite = false := by
  have hpower := power_stands hp
  have hover : limit ≤ roundUnits (n.natAbs * 10 ^ p * one) 1 := by
    rw [← not_lt, roundUnits_lt_limit_iff]
    exact Nat.not_lt.mpr hrange
  obtain ⟨s, hs⟩ := (mul_whole hx hpower (Nat.pow_pos (by decide))).2 hover
  obtain ⟨t, k, hk, -⟩ := hpower
  obtain ⟨e, -, -, _, m, hhalf, -⟩ := exists_half
  rw [roundAt, hs, hhalf, hk]
  rfl

/-- Without places only the half is added. -/
theorem scaled_zero (hn : Short n.natAbs) : scaled n 0 = n := by
  rw [scaled, pow_zero, Nat.mul_one, roundUnits_short hn, Int.sign_mul_natAbs]

theorem scaledBack_zero {z : Int} (hz : Short z.natAbs) : scaledBack z 0 = z * one := by
  rw [scaledBack, pow_zero, Nat.cast_one, div_one, nearestUnits_short (short_whole_iff.mpr hz), Int.natCast_mul,
    ← Int.mul_assoc, Int.sign_mul_natAbs]

/-- A scaled number is even, and so the half is lost only without places. -/
theorem withHalf_scaled (hn : Short n.natAbs) (h : p = 0 → n.natAbs % 2 = 1 → n.natAbs ≤ 2 ^ 52) :
    withHalf (scaled n p) = scaled n p := by
  rcases Nat.eq_zero_or_pos p with rfl | hpos
  · rw [scaled_zero hn, withHalf, if_pos]
    have hodd := h rfl
    omega
  · have hten : 2 ∣ 10 ^ p := Nat.dvd_trans (by decide) (Nat.pow_dvd_pow 10 hpos)
    have htwo : Nat.pow 2 1 ∣ roundUnits (n.natAbs * 10 ^ p) 1 :=
      pow_dvd_roundUnits (Nat.dvd_mul_left_of_dvd hten _)
    have heven : (2 : Int) ∣ scaled n p := Int.dvd_mul_of_dvd_right (Int.natCast_dvd_natCast.mpr htwo)
    rw [withHalf, if_pos (.inr (Int.emod_eq_zero_of_dvd heven))]

/-- A number is scaled back to itself if the error was small. -/
theorem scaledBack_iff (hn : Short n.natAbs) (hp : p ≤ 22) : scaledBack (scaled n p) p = n * one ↔
    2 ^ 53 * |((n.natAbs * 10 ^ p : Nat) : Int) - roundUnits (n.natAbs * 10 ^ p) 1| <
      (10 ^ p * 2 ^ n.natAbs.log2 : Nat) := by
  by_cases hzero : n = 0
  · have hscaled : scaled 0 p = 0 := by rw [scaled, Int.sign_zero, Int.zero_mul]
    have hscale : 0 < 10 ^ p * 2 ^ Nat.log2 0 := Nat.mul_pos (Nat.pow_pos (by decide)) (Nat.pow_pos (by decide))
    rw [hzero, hscaled, scaledBack, Int.sign_zero, Int.zero_mul, Int.zero_mul, Int.natAbs_zero, Nat.zero_mul,
      roundUnits_eq_zero, sub_self, abs_zero, mul_zero]
    exact iff_of_true rfl (Int.natCast_pos.mpr hscale)
  · have hten : 0 < 10 ^ p := Nat.pow_pos (by decide)
    have hpos : 0 < roundUnits (n.natAbs * 10 ^ p) 1 :=
      short_le_roundUnits (b := 1) (by decide) (Nat.mul_pos (by omega) hten)
    have hsign : (scaled n p).sign = n.sign := by
      rw [scaled, Int.sign_mul, Int.sign_sign, Int.sign_natCast_of_ne_zero hpos.ne', Int.mul_one]
    have hsize : (scaled n p).natAbs = roundUnits (n.natAbs * 10 ^ p) 1 := by
      rw [scaled, Int.natAbs_mul, Int.natAbs_sign_of_ne_zero hzero, Nat.one_mul, Int.natAbs_natCast]
    have hwhole : n * one = n.sign * (n.natAbs * one : Nat) := by
      rw [Int.natCast_mul, ← Int.mul_assoc, Int.sign_mul_natAbs]
    have hcancel : n.sign ≠ 0 := by rwa [ne_eq, Int.sign_eq_zero_iff_zero]
    rw [scaledBack, hsign, hsize, hwhole, Int.mul_eq_mul_left_iff hcancel, Int.natCast_inj,
      nearest_whole_quotient_iff hn (by omega) hp]

theorem roundAt_keeps_iff (hx : x.StandsAt (n * one)) (hp : p ≤ 22) (hrange : n.natAbs * 10 ^ p < overflow) :
    (roundAt x p).toInt? = some n ↔ KeepsWhole n.natAbs p := by
  have hn : Short n.natAbs := short_whole_iff.mp (natAbs_whole n ▸ hx.short)
  rw [(roundAt_stands hx hp hrange).toInt_iff]
  by_cases hhalf : p = 0 → n.natAbs % 2 = 1 → n.natAbs ≤ 2 ^ 52
  · rw [withHalf_scaled hn hhalf, scaledBack_iff hn hp]
    exact ⟨fun herror => ⟨hhalf, hrange, herror⟩, fun h => h.error⟩
  · refine iff_of_false ?_ fun h => hhalf h.half
    simp only [Classical.not_imp, not_le] at hhalf
    obtain ⟨rfl, hodd, hlarge⟩ := hhalf
    have hnext : withHalf n = n + 1 := by rw [withHalf, if_neg (by omega)]
    have hshort := short_withHalf hn
    have hone : (one : Int) ≠ 0 := Int.natCast_ne_zero.mpr Binary64.one_pos.ne'
    rw [hnext] at hshort
    rw [scaled_zero hn, hnext, scaledBack_zero hshort, Int.mul_eq_mul_right_iff hone]
    omega

end Whole

section Calls

variable {v w : Literal} {n : Int} {p : Int64} {x : Binary64}

/-- A number of places that fits gives the rounded number, if that is finite. -/
theorem roundTo_eq (hx : v.asFloat = some x) (hw : w.asInt = some p) (hlow : 0 ≤ p.toInt) (hhigh : p.toInt ≤ 22) :
    roundTo [v, w] = if (roundAt x p.toInt).isFinite then .ok (.float (roundAt x p.toInt))
      else .error "result out of range" := by
  have hfits : -2147483648 ≤ p.toInt ∧ p.toInt ≤ 2147483647 := by omega
  rw [roundTo, floatArgument, hx, hw]
  exact if_pos hfits

/-- A whole number that a float has is rounded to itself exactly if the half that is added is not lost, the scaled
number is in range and its rounding error is small enough. Only a scaled number out of range is an error. -/
theorem whole_number_kept_iff (hv : v.denoted? = some (n : ℚ)) (hx : x.toInt? = some n) (hw : w.asInt = some p)
    (hlow : 0 ≤ p.toInt) (hhigh : p.toInt ≤ 22) :
    ((∃ y, roundTo [v, w] = .ok (.float y) ∧ y.toInt? = some n) ↔ KeepsWhole n.natAbs p.toInt.toNat) ∧
      (n.natAbs * 10 ^ p.toInt.toNat < overflow → ∃ y, roundTo [v, w] = .ok (.float y)) ∧
      (overflow ≤ n.natAbs * 10 ^ p.toInt.toNat → roundTo [v, w] = .error "result out of range") := by
  obtain ⟨y, hy, hplace⟩ := Literal.float_of_denoted hv hx
  obtain ⟨places, hplaces⟩ := Int.eq_ofNat_of_zero_le hlow
  have hle : places ≤ 22 := by omega
  rw [roundTo_eq hy hw hlow hhigh, hplaces, Int.toNat_natCast]
  rcases Nat.lt_or_ge (n.natAbs * 10 ^ places) overflow with hrange | hover
  · have hfinite := (roundAt_stands hplace hle hrange).isFinite
    have hkept := roundAt_keeps_iff hplace hle hrange
    rw [if_pos hfinite]
    refine ⟨?_, fun _ => ⟨_, rfl⟩, fun hover => absurd hover (Nat.not_le.mpr hrange)⟩
    constructor
    · rintro ⟨z, hz, hwhole⟩
      obtain rfl := Literal.float.inj (Except.ok.inj hz)
      exact hkept.mp hwhole
    · intro h
      exact ⟨_, rfl, hkept.mpr h⟩
  · have hinfinite := roundAt_overflow hplace hle hover
    rw [if_neg (by rw [hinfinite]; exact Bool.false_ne_true)]
    refine ⟨?_, fun hrange => absurd hover (Nat.not_le.mpr hrange), fun _ => rfl⟩
    refine iff_of_false ?_ fun h => absurd h.range (Nat.not_lt.mpr hover)
    rintro ⟨z, hz, -⟩
    cases hz

/-- A number of more than 64 bits, given as a text, is kept though the number that it is scaled to is rounded. -/
theorem whole_number_kept_iff_text :
    (Literal.str "-1e22").denoted? = some ((-10000000000000000000000 : Int) : ℚ) ∧
      (ofInt (-10000000000000000000000)).toInt? = some (-10000000000000000000000) ∧
      (Literal.float (ofInt 22)).asInt = some 22 ∧ 0 ≤ (22 : Int64).toInt ∧ (22 : Int64).toInt ≤ 22 ∧
      ∃ y, roundTo [.str "-1e22", .float (ofInt 22)] = .ok (.float y) ∧
        y.toInt? = some (-10000000000000000000000) := by
  have hread : Decimal.read "-1e22".toList = some ⟨true, 1, 22⟩ := by decide +kernel
  have hdenoted : (Literal.str "-1e22").denoted? = some ((-10000000000000000000000 : Int) : ℚ) := by
    rw [Literal.denoted?, hread]
    norm_num [Decimal.value, Decimal.size]
  have hwhole : (ofInt (-10000000000000000000000)).toInt? = some (-10000000000000000000000) := by decide +kernel
  have hplaces : (Literal.float (ofInt 22)).asInt = some 22 := by decide +kernel
  have hlow : 0 ≤ (22 : Int64).toInt := by decide
  have hhigh : (22 : Int64).toInt ≤ 22 := by decide
  have hkeeps : KeepsWhole (-10000000000000000000000 : Int).natAbs (22 : Int64).toInt.toNat := by decide +kernel
  exact ⟨hdenoted, hwhole, hplaces, hlow, hhigh,
    (whole_number_kept_iff hdenoted hwhole hplaces hlow hhigh).1.mpr hkeeps⟩

/-- An odd number beyond two to the power 52 is rounded up to the next one, a small one is missed where the scaled
number needs rounding, and a great one is an error. -/
theorem odd_number_not_kept :
    Engine.standard.evaluate "roundto(4503599627370497, 0)" NameMap.empty =
        .ok (.float (ofInt 4503599627370498)) ∧
      Engine.standard.evaluate "roundto(31, 22) == 31" NameMap.empty = .ok (.bool false) ∧
      roundTo [.str "1e300", .int 22] = .error "result out of range" ∧
      ¬ ∀ (v w : Literal) (n : Int) (p : Int64) (x : Binary64), v.denoted? = some (n : ℚ) → x.toInt? = some n →
        w.asInt = some p → 0 ≤ p.toInt → p.toInt ≤ 22 →
        ∃ y, roundTo [v, w] = .ok (.float y) ∧ y.toInt? = some n := by
  refine ⟨by decide +kernel, by decide +kernel, by decide +kernel, fun hall => ?_⟩
  have hwhole : (ofInt 4503599627370497).toInt? = some (4503599627370497 : Int64).toInt := by decide +kernel
  obtain ⟨y, hy, hkept⟩ := hall (.int 4503599627370497) (.int 0) _ 0 _ rfl hwhole rfl (by decide) (by decide)
  have hrounded : roundTo [.int 4503599627370497, .int 0] = .ok (.float (ofInt 4503599627370498)) := by
    decide +kernel
  have hnext : y = ofInt 4503599627370498 := Literal.float.inj (Except.ok.inj (hy.symm.trans hrounded))
  rw [hnext] at hkept
  exact absurd hkept (by decide +kernel)

end Calls

end Function

end Formula
