namespace Formula

inductive Chain (ω α : Type)
  | leaf (operand : α)
  | node (left : Chain ω α) (op : ω) (right : Chain ω α)

namespace Chain

variable {ω α β : Type}

/-- Adds an operator and its right operand behind a tree: the operator goes under those on the
right edge that bind more loosely. -/
def attach (precedence : ω → Nat) (op : ω) (operand : α) : Chain ω α → Chain ω α
  | leaf a => node (leaf a) op (leaf operand)
  | node left o right =>
    if precedence o < precedence op then node left o (attach precedence op operand right)
    else node (node left o right) op (leaf operand)

def ofRow (precedence : ω → Nat) (first : α) (rest : List (ω × α)) : Chain ω α :=
  rest.foldl (fun tree (op, operand) => attach precedence op operand tree) (leaf first)

def toRow : Chain ω α → α × List (ω × α)
  | leaf a => (a, [])
  | node left op right =>
    let (first, rest) := left.toRow
    let (second, more) := right.toRow
    (first, rest ++ (op, second) :: more)

/-- Joins results from the leaves up; the first fault from the left counts. -/
def fold {ε : Type} (join : β → ω → β → Except ε β) : Chain ω (Except ε β) → Except ε β
  | leaf a => a
  | node left op right =>
    match left.fold join with
    | .error e => .error e
    | .ok l => match right.fold join with
      | .error e => .error e
      | .ok r => join l op r

end Chain

end Formula
