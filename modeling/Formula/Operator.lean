namespace Formula

/-- Operators between two operands, in the order in which they are tried. -/
inductive InfixOp
  | lor | land | andNot | eq | ne | arrow | shl | le | lt | shr | ge | gt
  | inc | dec | add | sub | bor | bxor | mul | div | rem | band
deriving DecidableEq

inductive PrefixOp
  | inc | dec | neg | not | pos | bitNot | deref | addrOf | recv
deriving DecidableEq

inductive UnaryOp
  | neg | not
deriving DecidableEq

inductive ArithOp
  | add | sub | mul | div
deriving DecidableEq

inductive CompareOp
  | eq | ne | lt | le | gt | ge
deriving DecidableEq

inductive LogicOp
  | and | or
deriving DecidableEq

namespace InfixOp

def all : List InfixOp :=
  [lor, land, andNot, eq, ne, arrow, shl, le, lt, shr, ge, gt,
   inc, dec, add, sub, bor, bxor, mul, div, rem, band]

def text : InfixOp → String
  | lor => "||" | land => "&&" | andNot => "&^" | eq => "==" | ne => "!=" | arrow => "<-"
  | shl => "<<" | le => "<=" | lt => "<" | shr => ">>" | ge => ">=" | gt => ">"
  | inc => "++" | dec => "--" | add => "+" | sub => "-" | bor => "|" | bxor => "^"
  | mul => "*" | div => "/" | rem => "%" | band => "&"

/-- How tightly the operator binds; all of them associate to the left. -/
def precedence : InfixOp → Nat
  | lor => 1
  | land => 2
  | eq | ne | lt | le | gt | ge | arrow => 3
  | add | sub | bor | bxor | inc | dec => 4
  | mul | div | rem | shl | shr | band | andNot => 5

inductive Meaning
  | arith (op : ArithOp)
  | compare (op : CompareOp)
  | logic (op : LogicOp)
deriving DecidableEq

def meaning? : InfixOp → Option Meaning
  | add => some (.arith .add)
  | sub => some (.arith .sub)
  | mul => some (.arith .mul)
  | div => some (.arith .div)
  | eq => some (.compare .eq)
  | ne => some (.compare .ne)
  | lt => some (.compare .lt)
  | le => some (.compare .le)
  | gt => some (.compare .gt)
  | ge => some (.compare .ge)
  | land => some (.logic .and)
  | lor => some (.logic .or)
  | _ => none

end InfixOp

namespace PrefixOp

def all : List PrefixOp := [inc, dec, neg, not, pos, bitNot, deref, addrOf, recv]

def text : PrefixOp → String
  | inc => "++" | dec => "--" | neg => "-" | not => "!" | pos => "+" | bitNot => "^"
  | deref => "*" | addrOf => "&" | recv => "<-"

def meaning? : PrefixOp → Option UnaryOp
  | neg => some .neg
  | not => some .not
  | _ => none

end PrefixOp

def UnaryOp.text : UnaryOp → String
  | neg => "-" | not => "!"

def ArithOp.text : ArithOp → String
  | add => "+" | sub => "-" | mul => "*" | div => "/"

def CompareOp.text : CompareOp → String
  | eq => "==" | ne => "!=" | lt => "<" | le => "<=" | gt => ">" | ge => ">="

def LogicOp.text : LogicOp → String
  | and => "&&" | or => "||"

end Formula
