import Formula.Literal
import Formula.Operator
import Formula.Span

namespace Formula

/-- An expression. Character literals are texts of one character. -/
inductive Expr
  | constant (span : Span) (value : Literal)
  | ident (span : Span) (name : String)
  | unary (span : Span) (op : UnaryOp) (operand : Expr)
  | arith (span : Span) (op : ArithOp) (left right : Expr)
  | compare (span : Span) (op : CompareOp) (left right : Expr)
  | logic (span : Span) (op : LogicOp) (left right : Expr)
  | index (span : Span) (base position : Expr)
  | call (span : Span) (name : String) (args : List Expr)
  | composite (span : Span) (elements : List Expr)
  | group (span : Span) (inner : Expr)

namespace Expr

def span : Expr → Span
  | constant span _ | ident span _ | unary span _ _ | arith span _ _ _ | compare span _ _ _
  | logic span _ _ _ | index span _ _ | call span _ _ | composite span _ | group span _ => span

def ungrouped : Expr → Expr
  | group _ inner => inner.ungrouped
  | e => e

mutual

/-- The same tree: names, operators, spans, and constants as values. -/
def same : Expr → Expr → Bool
  | constant s x, constant t y => s = t && x.same y
  | ident s x, ident t y => s = t && x = y
  | unary s o x, unary t p y => s = t && o = p && same x y
  | arith s o x x', arith t p y y' => s = t && o = p && same x y && same x' y'
  | compare s o x x', compare t p y y' => s = t && o = p && same x y && same x' y'
  | logic s o x x', logic t p y y' => s = t && o = p && same x y && same x' y'
  | index s x x', index t y y' => s = t && same x y && same x' y'
  | call s x xs, call t y ys => s = t && x = y && sameAll xs ys
  | composite s xs, composite t ys => s = t && sameAll xs ys
  | group s x, group t y => s = t && same x y
  | _, _ => false

def sameAll : List Expr → List Expr → Bool
  | [], [] => true
  | x :: xs, y :: ys => same x y && sameAll xs ys
  | _, _ => false

end

end Expr

end Formula
