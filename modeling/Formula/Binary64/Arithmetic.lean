import Formula.Binary64.Basic

namespace Formula.Binary64

def zero (negative : Bool) : Binary64 := .finite negative .zero

def neg : Binary64 → Binary64
  | .nan => .nan
  | .infinite s => .infinite !s
  | .finite s m => .finite (!s) m

def abs : Binary64 → Binary64
  | .nan => .nan
  | .infinite _ => .infinite false
  | .finite _ m => .finite false m

/-- The sum. An exact sum of zero is negative only when both terms are. -/
def add : Binary64 → Binary64 → Binary64
  | .nan, _ | _, .nan => .nan
  | .infinite s, .infinite t => if s = t then .infinite s else .nan
  | .infinite s, .finite .. => .infinite s
  | .finite .., .infinite t => .infinite t
  | .finite s m, .finite t n =>
    let sum := signed s m + signed t n
    if sum = 0 then zero (s && t) else round (decide (sum < 0)) sum.natAbs 1

def sub (x y : Binary64) : Binary64 := add x (neg y)

def mul : Binary64 → Binary64 → Binary64
  | .nan, _ | _, .nan => .nan
  | .infinite s, .infinite t => .infinite (s ^^ t)
  | .infinite s, .finite t n => if n.units = 0 then .nan else .infinite (s ^^ t)
  | .finite s m, .infinite t => if m.units = 0 then .nan else .infinite (s ^^ t)
  | .finite s m, .finite t n => round (s ^^ t) (m.units * n.units) one

def div : Binary64 → Binary64 → Binary64
  | .nan, _ | _, .nan => .nan
  | .infinite _, .infinite _ => .nan
  | .infinite s, .finite t _ => .infinite (s ^^ t)
  | .finite s _, .infinite t => zero (s ^^ t)
  | .finite s m, .finite t n =>
    if n.units = 0 then (if m.units = 0 then .nan else .infinite (s ^^ t))
    else round (s ^^ t) (m.units * one) n.units

def floor : Binary64 → Binary64
  | .nan => .nan
  | .infinite s => .infinite s
  | .finite s m =>
    let whole := m.units / one
    let carry := if s ∧ m.units % one ≠ 0 then 1 else 0
    round s ((whole + carry) * one) 1

def ofInt (z : Int) : Binary64 := round (decide (z < 0)) (z.natAbs * one) 1

def toInt? : Binary64 → Option Int
  | .finite s m =>
    if m.units % one = 0 then
      some (if s then -((m.units / one : Nat) : Int) else ((m.units / one : Nat) : Int))
    else none
  | _ => none

def powFrom : Nat → Binary64 → Binary64 → Nat → Binary64
  | 0, acc, _, _ => acc
  | fuel + 1, acc, base, n =>
    let acc := if n % 2 = 1 then mul acc base else acc
    if n / 2 = 0 then acc else powFrom fuel acc (mul base base) (n / 2)

/-- An integer power by repeated squaring; a negative one is the reciprocal of the positive. -/
def pow (base : Binary64) (n : Int) : Binary64 :=
  let p := powFrom (n.natAbs.log2 + 1) (ofInt 1) base n.natAbs
  if n < 0 then div (ofInt 1) p else p

end Formula.Binary64
