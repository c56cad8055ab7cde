import Formula.Proofs.NarrowedTexts
import Mathlib.Data.Nat.Factorization.Basic

/-!
The digits that a number is printed with. The search finds a decimal on one of its seventeen grids, since
decimals of seventeen digits lie closer than floats; the decimal reads back as the number, and no decimal of
fewer digits does.
-/

namespace Formula

/-- A search through a range finds what its first hit gives. -/
theorem findSome_range {α : Type} {f : Nat → Option α} {k : Nat} {a : α}
    (h : (List.range k).findSome? f = some a) : ∃ n < k, f n = some a ∧ ∀ j < n, f j = none := by
  induction k with
  | zero => cases h
  | succ k ih =>
    rw [List.range_succ, List.findSome?_append, Option.or_eq_some_iff] at h
    rcases h with hfound | ⟨hnone, hlast⟩
    · obtain ⟨n, hn, hvalue, hbefore⟩ := ih hfound
      exact ⟨n, by omega, hvalue, hbefore⟩
    · refine ⟨k, by omega, by simpa using hlast, fun j hj => ?_⟩
      exact List.findSome?_eq_none_iff.mp hnone j (List.mem_range.mpr hj)

namespace Binary64

variable {m : Magnitude} {c n : Nat} {e : Int}

def step (e : Int) : ℚ := 10 ^ e * one

theorem step_pos (e : Int) : 0 < step e :=
  mul_pos (zpow_pos (by norm_num) e) Literal.one_cast_pos

/-- A coarser grid is a part of a finer one. -/
theorem step_add (e : Int) (k : Nat) : step (e + k) = 10 ^ k * step e := by
  rw [step, step, zpow_add₀ (by norm_num), zpow_natCast]
  ring

theorem size_steps (negative : Bool) (c : Nat) (e : Int) :
    (Decimal.size ⟨negative, c, e⟩) * one = c * step e := mul_assoc _ _ _

theorem readsBack_iff : readsBack m c e = true ↔ nearestUnits (c * step e) = m.units := by
  rw [readsBack, decide_eq_true_eq, ofDecimal_eq_finite_iff, size_steps]
  exact and_iff_right rfl

theorem nearestUnits_self (m : Magnitude) : nearestUnits m.units = m.units :=
  nearestUnits_short m.representable.2

/-- What lies between two fractions that are rounded to a number is rounded to it, too. -/
theorem nearestUnits_between {p q r : ℚ} (hp : 0 ≤ p) (hpr : p ≤ r) (hrq : r ≤ q)
    (hpm : nearestUnits p = m.units) (hqm : nearestUnits q = m.units) : nearestUnits r = m.units :=
  le_antisymm (hqm ▸ nearestUnits_mono (hp.trans hpr) hrq) (hpm ▸ nearestUnits_mono hp hpr)

section Grids

/-- The neighbours of a number on a grid, one of which is chosen if one reads back. -/
theorem onGrid_neighbours (m : Magnitude) (e : Int) : ∃ lower : Nat,
    ((lower : ℚ) * step e ≤ m.units ∧ (m.units : ℚ) < (lower + 1 : Nat) * step e) ∧
      (∀ c, onGrid m e = some c → readsBack m c e = true ∧ c ≤ lower + 1) ∧
      (readsBack m lower e = true ∨ readsBack m (lower + 1) e = true → ∃ c, onGrid m e = some c) := by
  obtain ⟨num, den, hden, hratio, hgrid⟩ : ∃ num den : Nat, 0 < den ∧
      (m.units : ℚ) * den = num * step e ∧
      ∀ low high, readsBack m (num / den) e = low → readsBack m (num / den + 1) e = high →
        onGrid m e =
          if low then
            if high then some (if 2 * (num % den) < den then num / den else num / den + 1)
            else some (num / den)
          else if high then some (num / den + 1) else none := by
    cases e with
    | ofNat k =>
      refine ⟨m.units, one * Nat.pow 10 k, Nat.mul_pos one_pos (Nat.pow_pos (by decide)), ?_, ?_⟩
      · rw [step, Int.ofNat_eq_natCast, zpow_natCast, Nat.pow_eq]
        push_cast
        ring
      · intro low high hlow hhigh
        rw [onGrid, hlow, hhigh]
        cases low <;> cases high <;> rfl
    | negSucc k =>
      refine ⟨m.units * Nat.pow 10 (k + 1), one, one_pos, ?_, ?_⟩
      · rw [step, zpow_negSucc, Nat.pow_eq]
        push_cast
        rw [mul_assoc, mul_inv_cancel_left₀ (pow_ne_zero _ (by norm_num))]
      · intro low high hlow hhigh
        rw [onGrid, hlow, hhigh]
        cases low <;> cases high <;> rfl
  have hcast : (0 : ℚ) < den := Nat.cast_pos.mpr hden
  have hstep := step_pos e
  refine ⟨num / den, ⟨?_, ?_⟩, ?_, ?_⟩
  · have hle : ((num / den : Nat) : ℚ) * den ≤ num := by exact_mod_cast Nat.div_mul_le_self num den
    apply le_of_mul_le_mul_right _ hcast
    calc ((num / den : Nat) : ℚ) * step e * den = ((num / den : Nat) : ℚ) * den * step e := by ring
      _ ≤ num * step e := mul_le_mul_of_nonneg_right hle hstep.le
      _ = m.units * den := hratio.symm
  · have hless : (num : ℚ) < (num / den + 1 : Nat) * den := by
      exact_mod_cast Nat.lt_mul_of_div_lt (Nat.lt_succ_self (num / den)) hden
    apply lt_of_mul_lt_mul_right _ hcast.le
    calc (m.units : ℚ) * den = num * step e := hratio
      _ < (num / den + 1 : Nat) * den * step e := mul_lt_mul_of_pos_right hless hstep
      _ = (num / den + 1 : Nat) * step e * den := by ring
  · intro c hc
    rw [hgrid _ _ rfl rfl] at hc
    split_ifs at hc with hlow hhigh hnear hhigh
    · obtain rfl := Option.some.inj hc
      exact ⟨hlow, Nat.le_succ _⟩
    · obtain rfl := Option.some.inj hc
      exact ⟨hhigh, le_rfl⟩
    · obtain rfl := Option.some.inj hc
      exact ⟨hlow, Nat.le_succ _⟩
    · obtain rfl := Option.some.inj hc
      exact ⟨hhigh, le_rfl⟩
  · intro h
    rw [hgrid _ _ rfl rfl]
    split_ifs with hlow hhigh hnear hhigh
    · exact ⟨_, rfl⟩
    · exact ⟨_, rfl⟩
    · exact ⟨_, rfl⟩
    · exact ⟨_, rfl⟩
    · exact absurd h (not_or.mpr ⟨hlow, hhigh⟩)

/-- Where a decimal reads back, the search finds one on its grid. -/
theorem onGrid_of_readsBack (h : readsBack m c e = true) : ∃ k, onGrid m e = some k := by
  have hstep := step_pos e
  obtain ⟨lower, ⟨hlow, hhigh⟩, -, hfound⟩ := onGrid_neighbours m e
  apply hfound
  rw [readsBack_iff] at h ⊢
  rw [readsBack_iff]
  rcases Nat.lt_or_ge lower c with hless | hge
  · right
    have hle : ((lower + 1 : Nat) : ℚ) * step e ≤ c * step e :=
      mul_le_mul_of_nonneg_right (Nat.cast_le.mpr hless) hstep.le
    exact nearestUnits_between m.units.cast_nonneg hhigh.le hle (nearestUnits_self m) h
  · left
    have hle : (c : ℚ) * step e ≤ lower * step e :=
      mul_le_mul_of_nonneg_right (Nat.cast_le.mpr hge) hstep.le
    exact nearestUnits_between (mul_nonneg c.cast_nonneg hstep.le) hle hlow h (nearestUnits_self m)

end Grids

theorem lt_pow_digitCount (n : Nat) : n < 10 ^ digitCount n :=
  (Nat.length_toDigits_le_iff (by decide) Nat.length_toDigits_pos).mp le_rfl

theorem pow_digitCount_le (h : 0 < n) : 10 ^ (digitCount n - 1) ≤ n := by
  rcases Nat.eq_zero_or_pos (digitCount n - 1) with hzero | hpos
  · rw [hzero]
    exact h
  · by_contra hless
    have hshort : digitCount n ≤ digitCount n - 1 :=
      (Nat.length_toDigits_le_iff (by decide) hpos).mpr (not_le.mp hless)
    omega

/-- The first digit of a number stands at its leading exponent. -/
theorem leading_step (h : 0 < m.units) :
    step (leadingExponent m) ≤ m.units ∧ (m.units : ℚ) < step (leadingExponent m + 1) := by
  have hone := Literal.one_cast_pos
  rw [leadingExponent]
  split_ifs with hlarge
  · have hquot : 0 < m.units / one := Nat.div_pos hlarge one_pos
    have hcount : (digitCount (m.units / one) : Int) - 1 = (digitCount (m.units / one) - 1 : Nat) := by
      have := Nat.length_toDigits_pos (b := 10) (n := m.units / one)
      rw [digitCount]
      omega
    have hlow : 10 ^ (digitCount (m.units / one) - 1) * one ≤ m.units :=
      (Nat.le_div_iff_mul_le one_pos).mp (pow_digitCount_le hquot)
    have hhigh : m.units < 10 ^ digitCount (m.units / one) * one :=
      Nat.lt_mul_of_div_lt (lt_pow_digitCount _) one_pos
    constructor
    · rw [step, hcount, zpow_natCast]
      exact_mod_cast hlow
    · rw [step, Int.sub_add_cancel, zpow_natCast]
      exact_mod_cast hhigh
  · have hquot : 0 < (one - 1) / m.units := Nat.div_pos (by omega) h
    have hpos : 0 < digitCount ((one - 1) / m.units) := Nat.length_toDigits_pos
    have hlow : one - 1 < 10 ^ digitCount ((one - 1) / m.units) * m.units :=
      Nat.lt_mul_of_div_lt (lt_pow_digitCount _) h
    have hhigh : 10 ^ (digitCount ((one - 1) / m.units) - 1) * m.units ≤ one - 1 :=
      (Nat.le_div_iff_mul_le h).mp (pow_digitCount_le hquot)
    generalize digitCount ((one - 1) / m.units) = k at hpos hlow hhigh
    constructor
    · have hle : one ≤ 10 ^ k * m.units := by omega
      rw [step, zpow_neg, zpow_natCast, inv_mul_le_iff₀ (by positivity)]
      exact_mod_cast hle
    · obtain ⟨j, rfl⟩ : ∃ j, k = j + 1 := ⟨k - 1, by omega⟩
      have hless : 10 ^ j * m.units < one := by
        have := one_pos
        rw [Nat.add_sub_cancel] at hhigh
        omega
      have hexponent : -((j + 1 : Nat) : Int) + 1 = -(j : Int) := by omega
      rw [step, hexponent, zpow_neg, zpow_natCast, lt_inv_mul_iff₀ (by positivity)]
      exact_mod_cast hless

/-- What is much closer to a number than its last place is rounded to it. -/
theorem nearestUnits_of_close {q : ℚ} (hq : 0 ≤ q) (h : 2 * (2 ^ 53 + 1) * |q - m.units| < m.units) :
    nearestUnits q = m.units := by
  have hnearest := nearestUnits_nearest hq m.representable.2
  have hshort := short_nearest q
  have hlow := neg_le_abs (q - m.units)
  have hhigh := le_abs_self (q - m.units)
  have hlow' := neg_le_abs (q - nearestUnits q)
  have hhigh' := le_abs_self (q - nearestUnits q)
  generalize nearestUnits q = r at hnearest hshort hlow' hhigh' ⊢
  -- Another number that needs no rounding would be too close.
  rcases lt_trichotomy r m.units with hless | heq | hgreater
  · have hgap : (r : ℚ) < 2 ^ 53 * (m.units - r) := by
      have hgap := short_gap hshort m.representable.2 hless
      rw [← Nat.cast_sub hless.le]
      exact_mod_cast hgap
    linarith
  · exact heq
  · have hgap : (m.units : ℚ) < 2 ^ 53 * (r - m.units) := by
      have hgap := short_gap m.representable.2 hshort hgreater
      rw [← Nat.cast_sub hgreater.le]
      exact_mod_cast hgap
    linarith

/-- Decimals of seventeen digits lie closer than floats: on their grid one of the neighbours reads back. -/
theorem onGrid_seventeen (h : 0 < m.units) : ∃ k, onGrid m (leadingExponent m - 16) = some k := by
  obtain ⟨lower, ⟨hlow, hhigh⟩, -, hfound⟩ := onGrid_neighbours m (leadingExponent m - 16)
  have hsteps : 10 ^ 16 * step (leadingExponent m - 16) ≤ m.units := by
    calc 10 ^ 16 * step (leadingExponent m - 16)
        = step (leadingExponent m - 16 + (16 : Nat)) := (step_add _ 16).symm
      _ = step (leadingExponent m) := congrArg step (by omega)
      _ ≤ m.units := (leading_step h).1
  have hpos := step_pos (leadingExponent m - 16)
  apply hfound
  rw [readsBack_iff, readsBack_iff]
  generalize step (leadingExponent m - 16) = g at hlow hhigh hsteps hpos ⊢
  rw [Nat.cast_succ] at hhigh ⊢
  rcases le_total (2 * (m.units - lower * g)) g with hnear | hfar
  · left
    apply nearestUnits_of_close (mul_nonneg lower.cast_nonneg hpos.le)
    rw [abs_of_nonpos (by linarith)]
    linarith
  · right
    apply nearestUnits_of_close (mul_nonneg (by positivity) hpos.le)
    rw [abs_of_nonneg (by linarith)]
    linarith

/-- The grid on which the search ends: the first with a hit, and none beyond the seventeenth. -/
theorem shortest_found (h : 0 < m.units) : ∃ n : Nat, n < 17 ∧
    (shortest m).2 = leadingExponent m - n ∧
      onGrid m (leadingExponent m - n) = some (shortest m).1 ∧
      ∀ j : Nat, j < n → onGrid m (leadingExponent m - j) = none := by
  rw [shortest]
  dsimp only
  cases hfound : (List.range 17).findSome? fun (n : Nat) =>
      (onGrid m (leadingExponent m - n)).map fun c => (c, leadingExponent m - n) with
  | none =>
    obtain ⟨k, hk⟩ := onGrid_seventeen h
    have hnone := List.findSome?_eq_none_iff.mp hfound 16 (by decide)
    rw [Nat.cast_ofNat, hk] at hnone
    cases hnone
  | some result =>
    obtain ⟨n, hn, hvalue, hbefore⟩ := findSome_range hfound
    obtain ⟨c, hc, rfl⟩ := Option.map_eq_some_iff.mp hvalue
    exact ⟨n, hn, rfl, hc, fun j hj => Option.map_eq_none_iff.mp (hbefore j hj)⟩

theorem step_mono {i j : Int} (h : i ≤ j) : step i ≤ step j :=
  mul_le_mul_of_nonneg_right (zpow_le_zpow_right₀ (by norm_num) h) Literal.one_cast_pos.le

theorem pos_of_readsBack (h : 0 < m.units) (hc : readsBack m c e = true) : 0 < c := by
  rw [readsBack_iff] at hc
  rcases Nat.eq_zero_or_pos c with rfl | hpos
  · rw [Nat.cast_zero, zero_mul, ← Nat.cast_zero, nearestUnits_short (by decide)] at hc
    omega
  · exact hpos

/-- A decimal of `D` digits that reads back has its like on the grid where the first of `D` digits stands
at the leading exponent, or on that of a single digit. -/
theorem onGrid_of_digits {D : Nat} (h : 0 < m.units) (hc : readsBack m c e = true) (hD : c < 10 ^ D) :
    ∃ j < D, ∃ k, onGrid m (leadingExponent m - (j : Nat)) = some k := by
  have hpos := pos_of_readsBack h hc
  have hDpos : D ≠ 0 := by
    rintro rfl
    omega
  rcases Int.lt_or_le e (leadingExponent m - (D - 1 : Nat)) with hfine | hcoarse
  · -- On a finer grid `D` digits do not reach the leading exponent, where a one reads back then.
    refine ⟨0, by omega, onGrid_of_readsBack (c := 1) ?_⟩
    rw [readsBack_iff] at hc ⊢
    rw [Nat.cast_zero, Int.sub_zero, Nat.cast_one, one_mul]
    refine nearestUnits_between (mul_nonneg c.cast_nonneg (step_pos e).le) ?_ (leading_step h).1 hc
      (nearestUnits_self m)
    have hcast : (c : ℚ) ≤ 10 ^ D := by exact_mod_cast hD.le
    calc (c : ℚ) * step e ≤ 10 ^ D * step e := mul_le_mul_of_nonneg_right hcast (step_pos e).le
      _ = step (e + D) := (step_add e D).symm
      _ ≤ step (leadingExponent m) := step_mono (by omega)
  · obtain ⟨k, hk⟩ := Int.le.dest hcoarse
    refine ⟨D - 1, by omega, onGrid_of_readsBack (c := c * 10 ^ k) ?_⟩
    rw [readsBack_iff] at hc ⊢
    rw [← hk, step_add, ← mul_assoc] at hc
    exact_mod_cast hc

/-- The decimal that is found reads back, with at most as many digits as any other that does. -/
theorem shortest_spec (h : 0 < m.units) :
    readsBack m (shortest m).1 (shortest m).2 = true ∧ ∃ n, (shortest m).1 ≤ 10 ^ (n + 1) ∧
      ∀ c e D, readsBack m c e = true → c < 10 ^ D → n < D := by
  obtain ⟨n, -, hexponent, hfound, hbefore⟩ := shortest_found h
  have hstep := step_pos (leadingExponent m - n)
  obtain ⟨lower, ⟨hlow, -⟩, hread, -⟩ := onGrid_neighbours m (leadingExponent m - n)
  obtain ⟨hreads, hle⟩ := hread _ hfound
  refine ⟨hexponent ▸ hreads, n, ?_, ?_⟩
  · have hless : (lower : ℚ) * step (leadingExponent m - n) <
        (10 ^ (n + 1) : Nat) * step (leadingExponent m - n) := by
      calc (lower : ℚ) * step (leadingExponent m - n) ≤ m.units := hlow
        _ < step (leadingExponent m + 1) := (leading_step h).2
        _ = step (leadingExponent m - n + (n + 1 : Nat)) := congrArg step (by omega)
        _ = (10 ^ (n + 1) : Nat) * step (leadingExponent m - n) := by
          rw [step_add, Nat.cast_pow, Nat.cast_ofNat]
    have hlower : lower < 10 ^ (n + 1) := by
      exact_mod_cast lt_of_mul_lt_mul_right hless hstep.le
    omega
  · intro c e D hc hD
    obtain ⟨j, hj, k, hk⟩ := onGrid_of_digits h hc hD
    by_contra hfew
    rw [hbefore j (by omega)] at hk
    cases hk

end Binary64

theorem decimal_ten_mul {n : Nat} (h : 0 < n) : decimal (n * 10) = decimal n ++ ['0'] := by
  rw [decimal, Nat.toDigits_of_base_le (by decide) (by omega), Nat.mul_div_cancel n (by decide),
    Nat.mul_mod_left]
  rfl

/-- Zeros behind the digits of a number are a power of ten. -/
theorem decimal_mul_pow {n : Nat} (h : 0 < n) (k : Nat) :
    decimal (n * 10 ^ k) = decimal n ++ List.replicate k '0' := by
  induction k with
  | zero => simp
  | succ k ih =>
    rw [Nat.pow_succ, ← Nat.mul_assoc, decimal_ten_mul (Nat.mul_pos h (Nat.pow_pos (by decide))), ih,
      List.append_assoc, ← List.replicate_succ']

/-- Only what ten divides ends in a zero. -/
theorem decimal_last {n : Nat} (h : ¬ 10 ∣ n) : ∃ ds d, decimal n = ds ++ [d] ∧ d ≠ '0' := by
  have hrem : n % 10 ≠ 0 := fun hzero => h (Nat.dvd_of_mod_eq_zero hzero)
  have hdigit : ∀ k < 10, k ≠ 0 → Nat.digitChar k ≠ '0' := by decide
  have hlast := hdigit (n % 10) (Nat.mod_lt n (by decide)) hrem
  rcases Nat.lt_or_ge n 10 with hless | hge
  · refine ⟨[], _, Nat.toDigits_of_lt_base hless, ?_⟩
    rwa [Nat.mod_eq_of_lt hless] at hlast
  · exact ⟨_, _, Nat.toDigits_of_base_le (by decide) hge, hlast⟩

theorem pos_of_not_dvd {n : Nat} (h : ¬ 10 ∣ n) : 0 < n := by
  rcases Nat.eq_zero_or_pos n with rfl | hpos
  · exact absurd (Nat.dvd_zero 10) h
  · exact hpos

namespace Binary64

/-- The digits of a decimal are those of its coefficient without the zeros at the end. -/
theorem digits_ofDecimal {r : Nat} (h : ¬ 10 ∣ r) (z : Nat) (e : Int) :
    Digits.ofDecimal (r * 10 ^ z) e = ⟨decimal r, e + z⟩ := by
  obtain ⟨ds, d, hlast, hd⟩ := decimal_last h
  have hall : Nat.toDigits 10 (r * 10 ^ z) = decimal r ++ List.replicate z '0' :=
    decimal_mul_pow (pos_of_not_dvd h) z
  have hzeros : ((decimal r ++ List.replicate z '0').reverse.takeWhile (· = '0')).length = z := by
    rw [List.reverse_append, List.reverse_replicate, List.takeWhile_append_of_pos (by simp), hlast]
    simp [hd]
  rw [Digits.ofDecimal, hall, hzeros]
  simp

/-- Every number that is not zero is a number that ten does not divide, with zeros behind it. -/
theorem exists_without_zeros {c : Nat} (h : 0 < c) : ∃ r z, ¬ 10 ∣ r ∧ c = r * 10 ^ z := by
  obtain ⟨z, r, hr, hc⟩ := Nat.exists_eq_pow_mul_and_not_dvd h.ne' 10 (by decide)
  exact ⟨r, z, hr, by rw [hc, Nat.mul_comm]⟩

/-- The digits that are printed read back, neither the first nor the last one a zero, and no decimal of fewer
digits does. -/
theorem digits_spec {m : Magnitude} (h : 0 < m.units) : ∃ r e, Digits.ofMagnitude m = ⟨decimal r, e⟩ ∧
    ¬ 10 ∣ r ∧ readsBack m r e = true ∧
      ∀ c e' D, readsBack m c e' = true → c < 10 ^ D → (decimal r).length ≤ D := by
  obtain ⟨hreads, n, hle, hfewest⟩ := shortest_spec h
  obtain ⟨r, z, hr, hc⟩ := exists_without_zeros (pos_of_readsBack h hreads)
  refine ⟨r, (shortest m).2 + z, ?_, hr, ?_, fun c e' D hc' hD => ?_⟩
  · rw [Digits.ofMagnitude, hc, digits_ofDecimal hr]
  · rw [readsBack_iff] at hreads ⊢
    rw [hc] at hreads
    rw [step_add, ← mul_assoc]
    exact_mod_cast hreads
  · -- Only a power of ten could have one more digit than the grid has places, and it ends in zeros.
    have hless : r < 10 ^ (n + 1) := by
      by_contra hge
      rw [not_lt] at hge
      have hrle : r ≤ r * 10 ^ z := Nat.le_mul_of_pos_right r (Nat.pow_pos (by decide))
      have heq : r = 10 ^ (n + 1) := by omega
      exact hr (heq ▸ Dvd.intro_left (10 ^ n) rfl)
    have hlength : (decimal r).length ≤ n + 1 :=
      (Nat.length_toDigits_le_iff (by decide) (by omega)).mpr hless
    have hmore := hfewest c e' D hc' hD
    omega

end Binary64

end Formula
