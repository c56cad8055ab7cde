import Formula.Failure
import Formula.Operator

/-!
Operations on values. Arithmetic stays with integers while both operands are integers and the exact
result fits; otherwise it is done on floats, and must stay finite. An operand that is a caught error
makes the operation fail with that error, the left one first.
-/

namespace Formula

namespace Binary64

def arith : ArithOp → Binary64 → Binary64 → Binary64
  | .add => add
  | .sub => sub
  | .mul => mul
  | .div => div

end Binary64

namespace Literal

def propagated? (v : Literal) : Option FailureKind := v.errorState.map .propagated

def propagatedOf? (v w : Literal) : Option FailureKind := v.propagated?.or w.propagated?

def integral? : ArithOp → Int → Int → Option Int
  | .add, a, b => some (a + b)
  | .sub, a, b => some (a - b)
  | .mul, a, b => some (a * b)
  | .div, a, b => if b ≠ 0 ∧ Int.tmod a b = 0 then some (Int.tdiv a b) else none

def ofFloat (x : Binary64) : Except FailureKind Literal :=
  if x.isFinite then .ok (.float x) else .error .outOfRange

def floatArith (op : ArithOp) (v w : Literal) : Except FailureKind Literal :=
  match v.asFloat, w.asFloat with
  | some x, some y =>
    if op = .div ∧ y.isZero then .error .divisionByZero else ofFloat (Binary64.arith op x y)
  | _, _ => .error .incompatibleTypes

def arith (op : ArithOp) (v w : Literal) : Except FailureKind Literal :=
  match propagatedOf? v w with
  | some kind => .error kind
  | none =>
    match v.asIntOperand, w.asIntOperand with
    | some a, some b =>
      if op = .div ∧ b.toInt = 0 then .error .divisionByZero
      else match (integral? op a.toInt b.toInt).bind int64? with
        | some n => .ok (.int n)
        | none => floatArith op v w
    | _, _ => floatArith op v w

/-- The opposite of a value; an integer without an opposite becomes a float. -/
def negate (v : Literal) : Except FailureKind Literal :=
  match v.propagated? with
  | some kind => .error kind
  | none =>
    match v.asIntOperand with
    | some a => match int64? (-a.toInt) with
      | some n => .ok (.int n)
      | none => .ok (.float (Binary64.ofInt a.toInt).neg)
    | none => match v.asFloat with
      | some x => ofFloat x.neg
      | none => .error .incompatibleTypes

def not (v : Literal) : Except FailureKind Literal :=
  match v.propagated? with
  | some kind => .error kind
  | none => match v.asBool with
    | some b => .ok (.bool !b)
    | none => .error .incompatibleTypes

def unary : UnaryOp → Literal → Except FailureKind Literal
  | .neg => negate
  | .not => not

/-- Whether two values are equal: truth values only ever equal truth values; others are compared as
integers, else as floats, else as texts. -/
def equal (v w : Literal) : Except FailureKind Bool :=
  match propagatedOf? v w with
  | some kind => .error kind
  | none => .ok <|
    match v, w with
    | .bool a, .bool b => a = b
    | .bool _, _ | _, .bool _ => false
    | v, w =>
      match v.asInt, w.asInt with
      | some a, some b => a = b
      | _, _ => match v.asFloat, w.asFloat with
        | some x, some y => x.same y
        | _, _ => v.text = w.text

def orderInt (a b : Int) : Ordering := if a < b then .lt else if b < a then .gt else .eq

def order (v w : Literal) : Except FailureKind Ordering :=
  match propagatedOf? v w with
  | some kind => .error kind
  | none =>
    match v.asInt, w.asInt with
    | some a, some b => .ok (orderInt a.toInt b.toInt)
    | _, _ => match v.asFloat, w.asFloat with
      | some x, some y => match x.order? y with
        | some o => .ok o
        | none => .error .incompatibleTypes
      | _, _ => .error .incompatibleTypes

def compare (op : CompareOp) (v w : Literal) : Except FailureKind Bool :=
  match op with
  | .eq => equal v w
  | .ne => (equal v w).map fun b => !b
  | .lt => (order v w).map fun o => o = .lt
  | .le => (order v w).map fun o => o ≠ .gt
  | .gt => (order v w).map fun o => o = .gt
  | .ge => (order v w).map fun o => o ≠ .lt

def truth (v : Literal) : Except FailureKind Bool :=
  match v.propagated? with
  | some kind => .error kind
  | none => match v.asBool with
    | some b => .ok b
    | none => .error .incompatibleTypes

end Literal

end Formula
