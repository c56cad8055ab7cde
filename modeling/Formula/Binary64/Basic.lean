/-!
Floating-point numbers of 64 bits. Every finite one is a whole number of units, a unit being the
least positive number, two to the power -1074; its significant bits are at most 53. Arithmetic is
exact arithmetic on units followed by one rounding.
-/

namespace Formula

namespace Binary64

def one : Nat := Nat.pow 2 1074

def limit : Nat := Nat.pow 2 2098

/-- A count of units that is a finite number: below the limit, and divisible so far that no more
than 53 bits are significant. -/
def Representable (n : Nat) : Prop := n < limit ∧ Nat.pow 2 (n.log2 - 52) ∣ n

instance (n : Nat) : Decidable (Representable n) := inferInstanceAs (Decidable (_ ∧ _))

/-- The whole number nearest to `num / den`; of two equally near, the even one. -/
def divNearest (num den : Nat) : Nat :=
  let q := num / den
  let r := num % den
  if 2 * r < den then q else if den < 2 * r then q + 1 else if q % 2 = 0 then q else q + 1

/-- The nearest number of at most 53 significant bits to `num / den` units, however large. -/
def roundUnits (num den : Nat) : Nat :=
  let ulp := Nat.pow 2 ((num / den).log2 - 52)
  divNearest num (den * ulp) * ulp

theorem divNearest_le {num den b : Nat} (h : num / den < b) : divNearest num den ≤ b := by
  unfold divNearest
  dsimp only
  repeat' split
  all_goals omega

theorem log2_mul_pow_le {m e : Nat} (h : m < Nat.pow 2 53) : (m * Nat.pow 2 e).log2 - 52 ≤ e := by
  by_cases h0 : m * Nat.pow 2 e = 0
  · rw [h0]
    exact Nat.zero_le e
  · have size : m * Nat.pow 2 e < 2 ^ (53 + e) := by
      rw [Nat.pow_add]
      exact Nat.mul_lt_mul_of_pos_right h (Nat.pow_pos (by decide))
    have := (Nat.log2_lt h0).2 size
    omega

theorem dvd_roundUnits (num den : Nat) :
    Nat.pow 2 ((roundUnits num den).log2 - 52) ∣ roundUnits num den := by
  unfold roundUnits
  dsimp only
  generalize he : (num / den).log2 - 52 = e
  have bound : divNearest num (den * Nat.pow 2 e) ≤ 2 ^ 53 := by
    apply divNearest_le
    rw [← Nat.div_div_eq_div_mul]
    apply Nat.div_lt_of_lt_mul
    have size : num / den < 2 ^ ((num / den).log2 + 1) := Nat.lt_log2_self
    have : 2 ^ ((num / den).log2 + 1) ≤ 2 ^ (e + 53) :=
      Nat.pow_le_pow_right (by decide) (by omega)
    have : 2 ^ (e + 53) = Nat.pow 2 e * 2 ^ 53 := Nat.pow_add 2 e 53
    omega
  generalize divNearest num (den * Nat.pow 2 e) = m at bound
  change 2 ^ ((m * 2 ^ e).log2 - 52) ∣ m * 2 ^ e
  rcases Nat.lt_or_eq_of_le bound with h | h
  · exact Nat.dvd_trans (Nat.pow_dvd_pow 2 (log2_mul_pow_le h)) (Nat.dvd_mul_left (2 ^ e) m)
  · rw [h, ← Nat.pow_add, Nat.log2_two_pow]
    exact Nat.pow_dvd_pow 2 (by omega)

structure Magnitude where
  units : Nat
  representable : Representable units
deriving DecidableEq

def Magnitude.zero : Magnitude := ⟨0, by decide +kernel⟩

end Binary64

inductive Binary64
  | nan
  | infinite (negative : Bool)
  | finite (negative : Bool) (magnitude : Binary64.Magnitude)
deriving DecidableEq

namespace Binary64

/-- The number of the given sign nearest to `num / den` units: ties go to the even neighbour, and
what rounds to the limit or beyond is infinite. -/
def round (negative : Bool) (num den : Nat) : Binary64 :=
  if h : roundUnits num den < limit then
    .finite negative ⟨roundUnits num den, h, dvd_roundUnits num den⟩
  else .infinite negative

def isFinite : Binary64 → Bool
  | .finite .. => true
  | _ => false

def signed (negative : Bool) (m : Magnitude) : Int :=
  if negative then -(m.units : Int) else m.units

/-- The place of a number on the line of units, the infinities at the limits; NaN has none. -/
def position? : Binary64 → Option Int
  | .nan => none
  | .infinite negative => some (if negative then -(limit : Int) else limit)
  | .finite negative m => some (signed negative m)

def isZero (x : Binary64) : Bool := x.position? = some 0

/-- The order of two numbers; none when one is NaN. The zeros are equal. -/
def order? (x y : Binary64) : Option Ordering := do
  let a ← x.position?
  let b ← y.position?
  return if a < b then .lt else if b < a then .gt else .eq

def same (x y : Binary64) : Bool := x.order? y = some .eq

def below (x y : Binary64) : Bool := x.order? y = some .lt

end Binary64

end Formula
