import Formula.Binary64.Shortest

namespace Formula

inductive Literal
  | int (n : Int64)
  | float (x : Binary64)
  | str (s : String)
  | bool (b : Bool)
  | err (message : String)
deriving DecidableEq

def Binary64.toInt64? (x : Binary64) : Option Int64 := x.toInt?.bind int64?

def Binary64.finite? (cs : List Char) : Option Binary64 :=
  ((Decimal.read cs).map ofDecimal).filter isFinite

namespace Literal

/-- The integer that the value is: a whole float and a text that holds an integer or a whole
float count. -/
def asInt : Literal → Option Int64
  | int n => some n
  | float x => x.toInt64?
  | str s => ((readInt s.toList).bind int64?).or ((Binary64.finite? s.toList).bind (·.toInt64?))
  | bool _ | err _ => none

/-- The integer that an operand of arithmetic is. A float stays a float, whole or not. -/
def asIntOperand : Literal → Option Int64
  | float _ => none
  | other => other.asInt

def below? (length : Nat) (v : Literal) : Option Nat :=
  match v.asInt with
  | some i => if 0 ≤ i.toInt ∧ i.toInt < length then some i.toInt.toNat else none
  | none => none

def asFloat : Literal → Option Binary64
  | int n => some (.ofInt n.toInt)
  | float x => some x
  | str s => Binary64.finite? s.toList
  | bool _ | err _ => none

def asBool : Literal → Option Bool
  | bool b => some b
  | _ => none

def errorState : Literal → Option String
  | err message => some message
  | _ => none

def text : Literal → String
  | int n => Int.repr n.toInt
  | float x => String.ofList x.text
  | str s => s
  | bool b => if b then "true" else "false"
  | err message => message

def asString : Literal → Option String
  | err _ => none
  | other => some other.text

/-- The same kind and the same value: floats as numbers, errors by their text. -/
def same : Literal → Literal → Bool
  | int m, int n => m = n
  | float x, float y => x.same y
  | str s, str t => s = t
  | bool a, bool b => a = b
  | err m, err n => m = n
  | _, _ => false

end Literal

end Formula
