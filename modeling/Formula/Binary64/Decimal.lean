import Formula.Binary64.Arithmetic
import Formula.Numeral

namespace Formula.Binary64

/-- The number nearest to a decimal. Exponents far outside the range are settled without the
power of ten: above 330 a coefficient that is not zero overflows, and a number under
two to the power -1080 rounds to zero. -/
def ofDecimal (d : Decimal) : Binary64 :=
  match d.exponent with
  | .ofNat e =>
    if d.coefficient = 0 then zero d.negative
    else if 330 < e then .infinite d.negative
    else round d.negative (d.coefficient * Nat.pow 10 e * one) 1
  | .negSucc k =>
    if d.coefficient.log2 + 1081 < 3 * (k + 1) then zero d.negative
    else round d.negative (d.coefficient * one) (Nat.pow 10 (k + 1))

def read (cs : List Char) : Option Binary64 :=
  match Decimal.read cs with
  | some d => some (ofDecimal d)
  | none =>
    let (negative, word) := splitSign cs
    let word := word.map Char.toLower
    if word = "inf".toList ∨ word = "infinity".toList then some (.infinite negative)
    else if word = "nan".toList then some .nan
    else none

end Formula.Binary64
