import Formula.Binary64.Decimal

/-!
The shortest decimal that reads back as a given number. On the grids of one significant digit, of
two, and so on, the number's two neighbours are read back; the first grid with a hit wins, of two
hits the nearer, and the upper one when they are equally near.
-/

namespace Formula.Binary64

def digitCount (n : Nat) : Nat := (Nat.toDigits 10 n).length

def leadingExponent (m : Magnitude) : Int :=
  if one ≤ m.units then (digitCount (m.units / one) : Int) - 1
  else -(digitCount ((one - 1) / m.units) : Int)

def readsBack (m : Magnitude) (coefficient : Nat) (exponent : Int) : Bool :=
  ofDecimal ⟨false, coefficient, exponent⟩ = .finite false m

def onGrid (m : Magnitude) (exponent : Int) : Option Nat :=
  let (num, den) := match exponent with
    | .ofNat e => (m.units, one * Nat.pow 10 e)
    | .negSucc k => (m.units * Nat.pow 10 (k + 1), one)
  let lower := num / den
  match readsBack m lower exponent, readsBack m (lower + 1) exponent with
  | true, true => some (if 2 * (num % den) < den then lower else lower + 1)
  | true, false => some lower
  | false, true => some (lower + 1)
  | false, false => none

def exactCoefficient (m : Magnitude) : Nat := m.units * Nat.pow 5 1074

/-- The shortest decimal of a magnitude: its coefficient and its exponent. Seventeen digits are
always enough; all the digits stand behind them. -/
def shortest (m : Magnitude) : Nat × Int :=
  let lead := leadingExponent m
  let found := (List.range 17).findSome? fun (n : Nat) =>
    let exponent := lead - n
    (onGrid m exponent).map fun coefficient => (coefficient, exponent)
  found.getD (exactCoefficient m, -1074)

/-- A row of decimal digits, neither the first nor the last one zero, times ten to the exponent. -/
structure Digits where
  digits : List Char
  exponent : Int
deriving DecidableEq

def Digits.ofDecimal (coefficient : Nat) (exponent : Int) : Digits :=
  let all := Nat.toDigits 10 coefficient
  let zeros := (all.reverse.takeWhile (· = '0')).length
  ⟨all.take (all.length - zeros), exponent + zeros⟩

def Digits.ofMagnitude (m : Magnitude) : Digits :=
  Digits.ofDecimal (shortest m).1 (shortest m).2

def Digits.positional (d : Digits) : List Char :=
  match d.exponent with
  | .ofNat e => d.digits ++ List.replicate e '0'
  | .negSucc k =>
    let places := k + 1
    if places < d.digits.length then
      let split := d.digits.length - places
      d.digits.take split ++ '.' :: d.digits.drop split
    else '0' :: '.' :: (List.replicate (places - d.digits.length) '0' ++ d.digits)

def Digits.scientific (d : Digits) : List Char :=
  let power : Int := d.exponent + (d.digits.length : Int) - 1
  let head := match d.digits with
    | a :: b :: rest => a :: '.' :: b :: rest
    | short => short
  head ++ 'e' :: (Int.repr power).toList

def signText (negative : Bool) : List Char := if negative then ['-'] else []

/-- The number as text: the shortest digits that read back, without an exponent and without a
point when it is whole. -/
def text : Binary64 → List Char
  | .nan => "NaN".toList
  | .infinite s => signText s ++ "inf".toList
  | .finite s m => signText s ++ if m.units = 0 then ['0'] else (Digits.ofMagnitude m).positional

/-- The number as a listing shows it: always with a point or a power of ten, the latter from ten to
the 16 on and below ten to the -4. -/
def listing : Binary64 → List Char
  | .finite s m =>
    signText s ++
      if m.units = 0 then "0.0".toList
      else
        let d := Digits.ofMagnitude m
        let size : Binary64 := .finite false m
        if below size (ofDecimal ⟨false, 1, -4⟩) ∨ !below size (ofDecimal ⟨false, 1, 16⟩) then
          d.scientific
        else match d.exponent with
          | .ofNat _ => d.positional ++ ".0".toList
          | .negSucc _ => d.positional
  | other => text other

end Formula.Binary64
