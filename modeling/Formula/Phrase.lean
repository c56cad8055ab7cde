import Formula.Token

/-!
Phrases: expressions as they are written. A phrase is a row of operands with operators between
them; which operator takes which operands is not decided yet, and any operator may stand in it.
-/

namespace Formula

mutual

/-- Operands joined by operators. The last one also holds the offset at which the phrase stops. -/
inductive Phrase
  | last (operand : Operand) (stop : Nat)
  | join (operand : Operand) (op : Placed InfixOp) (rest : Phrase)

inductive Operand
  | atom (atom : Placed Atom)
  | group (span : Span) (inner : Phrase)
  | call (span : Span) (name : List Char) (args : List Phrase)
  | composite (span : Span) (type : TypeExpr) (elements : List Element)
  | index (base : Operand) (position : Phrase) (stop : Nat)
  | signed (op : Placed PrefixOp) (operand : Operand)

inductive Element
  | plain (value : Phrase)
  | keyed (span : Span) (key value : Phrase)

inductive TypeExpr
  | map (span : Span) (key value : TypeExpr)
  | slice (span : Span) (element : TypeExpr)
  | array (span : Span) (length : Phrase) (element : TypeExpr)
  | openArray (span : Span) (element : TypeExpr)
  | pointer (span : Span) (target : TypeExpr)
  | qualified (span : Span) (package name : List Char)
  | name (span : Span) (text : List Char)

end

namespace Phrase

def ofRow (stop : Nat) : Operand → List (Placed InfixOp × Operand) → Phrase
  | first, [] => last first stop
  | first, (op, second) :: rest => join first op (ofRow stop second rest)

def stop : Phrase → Nat
  | last _ stop => stop
  | join _ _ rest => rest.stop

end Phrase

def Operand.indexStop? : Operand → Option Nat
  | index _ _ stop => some stop
  | signed _ operand => operand.indexStop?
  | _ => none

/-- Where a row stops, given the offset of the token after it. Blanks and comments behind a row
belong to it, except when an operator joins it and its last operand ends with an index. -/
def Phrase.rowStop (next : Nat) (rest : List (Placed InfixOp × Operand)) : Nat :=
  (rest.getLast?.bind fun (_, operand) => operand.indexStop?).getD next

def TypeExpr.span : TypeExpr → Span
  | map span _ _ | slice span _ | array span _ _ | openArray span _ | pointer span _
  | qualified span _ _ | name span _ => span

end Formula
