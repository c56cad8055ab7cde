import Formula.Proofs.RoundedFractions

/-!
Numbers that a fraction is rounded to. A number that needs no rounding is the nearest one to a fraction
exactly where the two are closer than half a unit of its last place. This is used for a product that is
rounded and then divided by one of its factors: it gives the other factor back exactly where the rounding
has moved it by less than half a unit of that factor's last place, times the divisor.
-/

namespace Formula.Binary64

def lastPlace (n : Nat) : Nat := Nat.pow 2 (n.log2 - 52)

theorem lastPlace_pos (n : Nat) : 0 < lastPlace n := ulp_pos n

theorem lastPlace_dvd {a b : Nat} (ha : Short a) (h : b ≤ a) : lastPlace b ∣ a :=
  Nat.dvd_trans (ulp_dvd h) ha

theorem short_mul_pow {k : Nat} (h : k ≤ 2 ^ 53) (e : Nat) : Short (k * Nat.pow 2 e) := by
  rcases Nat.lt_or_eq_of_le h with hless | rfl
  · exact Nat.dvd_trans (pow_dvd (log2_mul_pow_le hless)) (Nat.dvd_mul_left _ k)
  · have hpow : 2 ^ 53 * Nat.pow 2 e = 2 ^ (53 + e) := (Nat.pow_add 2 53 e).symm
    rw [hpow, Short, Nat.log2_two_pow]
    exact pow_dvd (Nat.sub_le _ 52)

theorem short_of_le {k : Nat} (h : k ≤ 2 ^ 53) : Short k := by
  rw [← Nat.mul_one k]
  exact short_mul_pow h 0

theorem log2_mul_pow {n : Nat} (h : n ≠ 0) (e : Nat) : (n * Nat.pow 2 e).log2 = n.log2 + e := by
  have hpos : 0 < Nat.pow 2 e := Nat.pow_pos (by decide)
  apply log2_of_bounds
  · calc Nat.pow 2 (n.log2 + e) = Nat.pow 2 n.log2 * Nat.pow 2 e := Nat.pow_add 2 _ e
      _ ≤ n * Nat.pow 2 e := Nat.mul_le_mul_right _ (Nat.log2_self_le h)
  · calc n * Nat.pow 2 e < Nat.pow 2 (n.log2 + 1) * Nat.pow 2 e := Nat.mul_lt_mul_of_pos_right Nat.lt_log2_self hpos
      _ = Nat.pow 2 (n.log2 + e + 1) := by rw [Nat.add_right_comm]; exact (Nat.pow_add 2 _ e).symm

/-- A power of two moves the digits of a number and changes none. -/
theorem roundUnits_mul_pow (n e : Nat) : roundUnits (n * Nat.pow 2 e) 1 = roundUnits n 1 * Nat.pow 2 e := by
  rcases Nat.lt_or_ge n (2 ^ 53) with hsmall | hlarge
  · rw [roundUnits_short (short_of_le hsmall.le), roundUnits_short (short_mul_pow hsmall.le e)]
  · have hpos : n ≠ 0 := by omega
    have hbits : 52 ≤ n.log2 := (Nat.le_log2 hpos).mpr (by omega)
    have hplace : Nat.pow 2 (n.log2 + e - 52) = Nat.pow 2 (n.log2 - 52) * Nat.pow 2 e := by
      rw [Nat.sub_add_comm hbits]
      exact Nat.pow_add 2 _ e
    have hscale : 0 < Nat.pow 2 e := Nat.pow_pos (by decide)
    rw [roundUnits_one, roundUnits_one, log2_mul_pow hpos e, hplace, divNearest_scale _ _ hscale, Nat.mul_assoc]

theorem short_iff {n : Nat} : Short n ↔ roundUnits n 1 = n :=
  ⟨roundUnits_short, fun h => h ▸ dvd_roundUnits n 1⟩

theorem short_mul_pow_iff {n e : Nat} : Short (n * Nat.pow 2 e) ↔ Short n := by
  have hscale : 0 < Nat.pow 2 e := Nat.pow_pos (by decide)
  rw [short_iff, short_iff, roundUnits_mul_pow, Nat.mul_left_inj hscale.ne']

/-- Whole numbers need no rounding if their counts need none. -/
theorem short_whole_iff {n : Nat} : Short (n * one) ↔ Short n := by
  obtain ⟨e, he⟩ := exists_pow_eq_one
  rw [he]
  exact short_mul_pow_iff

section Neighbours

variable {a b : Nat}

/-- A number of 53 significant bits is that many last places. -/
theorem exists_count (hb : Short b) : ∃ k, k < 2 ^ 53 ∧ b = k * lastPlace b := by
  obtain ⟨k, hk⟩ := hb
  have hcount : b = k * lastPlace b := hk.trans (Nat.mul_comm _ k)
  have hsize : b < Nat.pow 2 53 * lastPlace b := by
    calc b < Nat.pow 2 (b.log2 + 1) := Nat.lt_log2_self
      _ ≤ Nat.pow 2 (53 + (b.log2 - 52)) := Nat.pow_le_pow_right (by decide) (by omega)
      _ = Nat.pow 2 53 * lastPlace b := Nat.pow_add 2 53 _
  refine ⟨k, ?_, hcount⟩
  generalize lastPlace b = place at hcount hsize
  rw [hcount] at hsize
  exact Nat.lt_of_mul_lt_mul_right hsize

/-- The next number is one last place above. -/
theorem short_next (hb : Short b) : Short (b + lastPlace b) := by
  obtain ⟨k, hk, hcount⟩ := exists_count hb
  have hnext : b + lastPlace b = (k + 1) * lastPlace b := by
    rw [Nat.succ_mul, ← hcount]
  rw [hnext]
  exact short_mul_pow hk _

/-- One last place below there is a number, too, though not the nearest one if this is a power of two. -/
theorem short_before (hb : Short b) : Short (b - lastPlace b) := by
  obtain ⟨k, hk, hcount⟩ := exists_count hb
  have hbefore : b - lastPlace b = (k - 1) * lastPlace b := by
    rw [Nat.sub_mul, ← hcount, Nat.one_mul]
  rw [hbefore]
  exact short_mul_pow (by omega) _

theorem lastPlace_le (hb : Short b) (hpos : 0 < b) : lastPlace b ≤ b := Nat.le_of_dvd hpos hb

/-- No other number is closer than a last place, unless this is a power of two. -/
theorem lastPlace_le_gap (ha : Short a) (hb : Short b) (hne : a ≠ b) (hpow : ∀ e, b ≠ 2 ^ e) :
    b + lastPlace b ≤ a ∨ a + lastPlace b ≤ b := by
  rcases Nat.lt_or_gt_of_ne hne with hless | hgreater
  · right
    -- What has fewer bits is below the first bit of the number, which is no power of two itself.
    obtain ⟨c, hac, hcb, hc⟩ : ∃ c, a ≤ c ∧ c < b ∧ lastPlace b ∣ c := by
      rcases Nat.eq_or_lt_of_le (log2_mono hless.le) with hlog | hlog
      · exact ⟨a, le_rfl, hless, by rw [lastPlace, ← hlog]; exact ha⟩
      · have hbelow : a < 2 ^ b.log2 :=
          Nat.lt_of_lt_of_le Nat.lt_log2_self (Nat.pow_le_pow_right (by decide) hlog)
        have hfirst : 2 ^ b.log2 ≤ b := Nat.log2_self_le (by omega)
        exact ⟨2 ^ b.log2, hbelow.le, Nat.lt_of_le_of_ne hfirst (hpow _).symm,
          Nat.pow_dvd_pow 2 (Nat.sub_le _ 52)⟩
    have hgap : lastPlace b ≤ b - c := Nat.le_of_dvd (by omega) (Nat.dvd_sub hb hc)
    omega
  · left
    have hgap : lastPlace b ≤ a - b :=
      Nat.le_of_dvd (by omega) (Nat.dvd_sub (lastPlace_dvd ha hgreater.le) hb)
    omega

/-- A fraction is rounded to a number that is no power of two exactly if it is closer to it than half a last
place; the middle between two numbers is left out. -/
theorem nearestUnits_eq_iff {q : ℚ} (hq : 0 ≤ q) (hb : Short b) (hpos : 0 < b) (hpow : ∀ e, b ≠ 2 ^ e)
    (htie : 2 * |q - b| ≠ lastPlace b) : nearestUnits q = b ↔ 2 * |q - b| < lastPlace b := by
  have hlow := neg_le_abs (q - b)
  have hhigh := le_abs_self (q - b)
  constructor
  · intro heq
    by_contra hge
    have hfar : (lastPlace b : ℚ) < 2 * |q - b| := lt_of_le_of_ne (not_lt.mp hge) htie.symm
    have hplace : (0 : ℚ) < lastPlace b := Nat.cast_pos.mpr (lastPlace_pos b)
    rcases le_total (b : ℚ) q with hle | hle
    · have hnearest := nearestUnits_nearest hq (short_next hb)
      rw [heq, Nat.cast_add] at hnearest
      rw [abs_of_nonneg (sub_nonneg.mpr hle)] at hfar hnearest
      rcases abs_cases (q - (b + lastPlace b)) with ⟨habs, -⟩ | ⟨habs, -⟩ <;> linarith
    · have hnearest := nearestUnits_nearest hq (short_before hb)
      rw [heq, Nat.cast_sub (lastPlace_le hb hpos)] at hnearest
      rw [abs_of_nonpos (sub_nonpos.mpr hle)] at hfar hnearest
      rcases abs_cases (q - (b - lastPlace b)) with ⟨habs, -⟩ | ⟨habs, -⟩ <;> linarith
  · intro hclose
    by_contra hne
    have hnearest := nearestUnits_nearest hq hb
    have hlow' := neg_le_abs (q - nearestUnits q)
    have hhigh' := le_abs_self (q - nearestUnits q)
    rcases lastPlace_le_gap (short_nearest q) hb hne hpow with hgap | hgap
    · have hcast : (b : ℚ) + lastPlace b ≤ nearestUnits q := by exact_mod_cast hgap
      linarith
    · have hcast : (nearestUnits q : ℚ) + lastPlace b ≤ b := by exact_mod_cast hgap
      linarith

end Neighbours

section Products

variable {n p : Nat}

theorem five_pow_le (hp : p ≤ 22) : 5 ^ p ≤ 2 ^ 53 :=
  (Nat.pow_le_pow_right (by decide) hp).trans (by norm_num)

theorem ten_pow_eq (p : Nat) : 10 ^ p = 5 ^ p * 2 ^ p := Nat.mul_pow 5 2 p

/-- A power of two times such a power of ten needs no rounding. -/
theorem ne_pow_of_not_short (hp : p ≤ 22) (h : ¬ Short (n * 10 ^ p)) (e : Nat) : n ≠ 2 ^ e := by
  rintro rfl
  apply h
  have hpower : 2 ^ e * 10 ^ p = 5 ^ p * Nat.pow 2 (p + e) := by
    rw [ten_pow_eq, Nat.pow_eq, Nat.pow_add]
    ring
  rw [hpower]
  exact short_mul_pow (five_pow_le hp) _

/-- The error of a product with a power of ten is no odd number of half last places of the factor, times
the power: the product and what it is rounded to have all the twos of the two factors, half the last place
times the power lacks one. -/
theorem error_ne_half_place (hn : Short n) (p : Nat) :
    2 * |((n * 10 ^ p : Nat) : Int) - roundUnits (n * 10 ^ p) 1| ≠ (10 ^ p * lastPlace n : Nat) := by
  intro htie
  have hplace : 10 ^ p * lastPlace n = 5 ^ p * Nat.pow 2 (p + (n.log2 - 52)) := by
    rw [lastPlace, ten_pow_eq, Nat.pow_eq, Nat.pow_eq, Nat.pow_add, Nat.mul_assoc]
  have hproduct : Nat.pow 2 (p + (n.log2 - 52)) ∣ n * 10 ^ p := by
    obtain ⟨c, hc⟩ := hn
    refine ⟨c * 5 ^ p, ?_⟩
    calc n * 10 ^ p = 2 ^ (n.log2 - 52) * c * (5 ^ p * 2 ^ p) := by rw [← ten_pow_eq]; exact congrArg (· * 10 ^ p) hc
      _ = 2 ^ (p + (n.log2 - 52)) * (c * 5 ^ p) := by rw [Nat.pow_add]; ring
  have hrounded := pow_dvd_roundUnits hproduct
  generalize roundUnits (n * 10 ^ p) 1 = rounded at htie hrounded
  rw [hplace] at htie
  generalize n * 10 ^ p = product at htie hproduct
  have htwos : 0 < Nat.pow 2 (p + (n.log2 - 52)) := Nat.pow_pos (by decide)
  generalize Nat.pow 2 (p + (n.log2 - 52)) = twos at htie hproduct hrounded htwos
  obtain ⟨d, hd⟩ : (twos : Int) ∣ |(product : Int) - rounded| :=
    (dvd_abs _ _).mpr (dvd_sub (Int.natCast_dvd_natCast.mpr hproduct) (Int.natCast_dvd_natCast.mpr hrounded))
  have hfive : (2 * d : Int) = 5 ^ p := by
    apply mul_right_cancel₀ (Int.natCast_ne_zero.mpr htwos.ne')
    rw [hd] at htie
    push_cast at htie
    linarith
  have hodd : Odd ((5 : Int) ^ p) := Odd.pow (by decide)
  exact absurd ⟨d, by rw [← hfive, two_mul]⟩ (Int.not_even_iff_odd.mpr hodd)

/-- A number times a power of ten, rounded and divided by it again, is the number exactly if rounding has moved
the product by less than half a last place of the number, times the power. -/
theorem nearest_quotient_iff (hn : Short n) (hp : p ≤ 22) :
    nearestUnits ((roundUnits (n * 10 ^ p) 1 : ℚ) / (10 ^ p : Nat)) = n ↔
      2 * |((n * 10 ^ p : Nat) : Int) - roundUnits (n * 10 ^ p) 1| < (10 ^ p * lastPlace n : Nat) := by
  have hten : 0 < 10 ^ p := Nat.pow_pos (by decide)
  by_cases hshort : Short (n * 10 ^ p)
  · have hplace := Nat.mul_pos hten (lastPlace_pos n)
    rw [roundUnits_short hshort, sub_self, abs_zero, mul_zero, Nat.cast_mul,
      mul_div_cancel_right₀ _ (Nat.cast_ne_zero.mpr hten.ne')]
    exact iff_of_true (nearestUnits_short hn) (by exact_mod_cast hplace)
  · have hpos : 0 < n := by
      rcases Nat.eq_zero_or_pos n with rfl | hpos
      · exact absurd (by rw [Nat.zero_mul]; decide) hshort
      · exact hpos
    have hpower := ne_pow_of_not_short hp hshort
    have htie := error_ne_half_place hn p
    generalize 10 ^ p = power at hten htie ⊢
    generalize roundUnits (n * power) 1 = rounded at htie ⊢
    have hcast : (0 : ℚ) < power := Nat.cast_pos.mpr hten
    have hdistance : |(rounded : ℚ) / power - n| * power = (|((n * power : Nat) : Int) - rounded| : Int) := by
      calc |(rounded : ℚ) / power - n| * power = |((rounded : ℚ) / power - n) * power| := by
            rw [abs_mul, abs_of_pos hcast]
        _ = |((n * power : Nat) : ℚ) - rounded| := by
            rw [sub_mul, div_mul_cancel₀ _ hcast.ne', abs_sub_comm, Nat.cast_mul]
        _ = (|((n * power : Nat) : Int) - rounded| : Int) := by
            rw [Int.cast_abs, Int.cast_sub, Int.cast_natCast, Int.cast_natCast]
    have htwice : 2 * |(rounded : ℚ) / power - n| * power =
        (2 * |((n * power : Nat) : Int) - rounded| : Int) := by
      rw [mul_assoc, hdistance, Int.cast_mul, Int.cast_ofNat]
    have hplace : (lastPlace n : ℚ) * power = ((power * lastPlace n : Nat) : Int) := by
      rw [Int.cast_natCast, Nat.cast_mul, mul_comm]
    rw [nearestUnits_eq_iff (div_nonneg rounded.cast_nonneg hcast.le) hn hpos hpower]
    · rw [← mul_lt_mul_iff_left₀ hcast, htwice, hplace, Int.cast_lt]
    · intro hhalf
      have hsame : ((2 * |((n * power : Nat) : Int) - rounded| : Int) : ℚ) = ((power * lastPlace n : Nat) : Int) := by
        rw [← htwice, ← hplace, hhalf]
      exact htie (Int.cast_injective hsame)

theorem exists_one_places : ∃ e, one = 2 ^ 52 * Nat.pow 2 e ∧ one = Nat.pow 2 (e + 52) :=
  ⟨1022, by decide +kernel, by decide +kernel⟩

/-- For a whole number the error is one of the whole product. -/
theorem nearest_whole_quotient_iff (hn : Short n) (hpos : n ≠ 0) (hp : p ≤ 22) :
    nearestUnits ((roundUnits (n * 10 ^ p) 1 * one : Nat) / (10 ^ p : Nat)) = n * one ↔
      2 ^ 53 * |((n * 10 ^ p : Nat) : Int) - roundUnits (n * 10 ^ p) 1| < (10 ^ p * 2 ^ n.log2 : Nat) := by
  obtain ⟨e, hone, hpow⟩ := exists_one_places
  have hscale : (0 : Int) < Nat.pow 2 e := Int.natCast_pos.mpr (Nat.pow_pos (by decide))
  have hplace : lastPlace (n * one) = 2 ^ n.log2 * Nat.pow 2 e := by
    rw [hpow, lastPlace, log2_mul_pow hpos, ← Nat.add_assoc, Nat.add_sub_cancel]
    exact Nat.pow_add 2 _ e
  have hproduct : n * one * 10 ^ p = n * 10 ^ p * one := Nat.mul_right_comm n one (10 ^ p)
  have hrounded : roundUnits (n * one * 10 ^ p) 1 = roundUnits (n * 10 ^ p) 1 * one := by
    rw [hproduct, hpow, roundUnits_mul_pow]
  have hquotient := nearest_quotient_iff (short_whole_iff.mpr hn) hp
  rw [hrounded, hproduct, hplace] at hquotient
  rw [hquotient]
  generalize roundUnits (n * 10 ^ p) 1 = rounded
  generalize n * 10 ^ p = product
  have herror : 2 * |((product * one : Nat) : Int) - (rounded * one : Nat)| =
      2 ^ 53 * |(product : Int) - rounded| * (Nat.pow 2 e : Nat) := by
    have hnonneg : (0 : Int) ≤ one := Int.natCast_nonneg one
    rw [Int.natCast_mul, Int.natCast_mul, ← sub_mul, abs_mul, abs_of_nonneg hnonneg, hone]
    push_cast
    ring
  have hbound : ((10 ^ p * (2 ^ n.log2 * Nat.pow 2 e) : Nat) : Int) =
      (10 ^ p * 2 ^ n.log2 : Nat) * (Nat.pow 2 e : Nat) := by
    rw [← Nat.mul_assoc, Int.natCast_mul]
  rw [herror, hbound, mul_lt_mul_iff_left₀ hscale]

end Products

end Formula.Binary64
