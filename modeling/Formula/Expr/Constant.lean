import Formula.Escape
import Formula.Literal
import Formula.Token

namespace Formula

def withoutSeparators (cs : List Char) : List Char := cs.filter (· ≠ '_')

/-- The radix of an integer literal and its digits: after a mark of two characters, after the zero
of the old octal form, or all of them. -/
def radixAndDigits : List Char → Nat × List Char
  | '0' :: x :: cs =>
    if x = 'x' ∨ x = 'X' then (16, cs)
    else if x = 'b' ∨ x = 'B' then (2, cs)
    else if x = 'o' ∨ x = 'O' then (8, cs)
    else (8, x :: cs)
  | cs => (10, cs)

def spelledInt (text : List Char) : Nat × Nat :=
  let (radix, digits) := radixAndDigits (withoutSeparators text)
  (radix, radixValue radix digits)

/-- The value of an integer literal. Beyond 64 bits, a decimal one is the nearest float, if that is
finite. -/
def intLiteral? (text : List Char) : Option Literal :=
  let (radix, n) := spelledInt text
  match int64? n with
  | some i => some (.int i)
  | none =>
    let x := Binary64.ofDecimal ⟨false, n, 0⟩
    if radix = 10 ∧ x.isFinite then some (.float x) else none

def floatLiteral? (text : List Char) : Option Literal :=
  (Binary64.finite? (withoutSeparators text)).map .float

/-- The integer that a minus sign makes of a decimal literal that is itself beyond 64 bits: the
least one. -/
def negatedInt? (text : List Char) : Option Int64 :=
  let (radix, n) := spelledInt text
  if radix = 10 ∧ int64? n = none then int64? (-(n : Int)) else none

def Atom.value? : Atom → Except String Literal
  | name _ => .error "not a literal"
  | int text => match intLiteral? text with
    | some v => .ok v
    | none => .error "integer literal out of range"
  | float text => match floatLiteral? text with
    | some v => .ok v
    | none => .error "float literal out of range"
  | rune body => match decodeRune body with
    | .ok c => .ok (.str (String.ofList [c]))
    | .error e => .error e.message
  | string body => match decodeString body with
    | .ok cs => .ok (.str (String.ofList cs))
    | .error e => .error e.message
  | raw body => .ok (.str (String.ofList (decodeRaw body)))

end Formula
