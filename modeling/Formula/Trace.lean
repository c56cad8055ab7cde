import Formula.Operator

/-!
What a reader of tokens looked for in vain. Every goal that fails at a place leaves its mark;
from the marks follow the furthest place that was reached and what was expected there.
-/

namespace Formula

inductive Goal
  | finish
  | phrase
  | infixOp (op : InfixOp)
  | prefixOp (op : PrefixOp)
  | index
  | group
  | call
  | composite
  | mapType
  | sliceType
  | arrayType
  | ellipsis
  | type
  | pointerType
  | qualifiedName
  | element
  | name
  | float
  | int
  | string
  | rune
  | raw
deriving DecidableEq

namespace Goal

def rank : Goal → Nat
  | finish => 0 | phrase => 1 | infixOp _ => 2 | prefixOp _ => 3 | index => 4 | group => 5
  | call => 6 | composite => 7 | mapType => 8 | sliceType => 9 | arrayType => 10 | ellipsis => 11
  | type => 12 | pointerType => 13 | qualifiedName => 14 | element => 15 | name => 16
  | float => 17 | int => 18 | string => 19 | rune => 20 | raw => 21

def words : Goal → String
  | finish => "end of input"
  | infixOp _ => "operator"
  | index => "index"
  | mapType | sliceType | arrayType | type | pointerType | qualifiedName => "type"
  | name => "identifier"
  | float | int | string | rune | raw => "literal"
  | phrase | prefixOp _ | group | call | composite | ellipsis | element => "expression"

end Goal

inductive Trace
  | nothing
  | both (first second : Trace)
  | missed (goals : List Goal) (position : Nat)
  | failed (goal : Goal) (position : Nat) (inner : Trace)

structure Furthest where
  position : Nat := 0
  goals : List Goal := []

namespace Furthest

def countAt (f : Furthest) (position : Nat) : Nat :=
  if f.position = position then f.goals.length else 0

def note (f : Furthest) (goals : List Goal) (position : Nat) : Furthest :=
  if f.position < position then ⟨position, goals⟩
  else if f.position = position then ⟨position, f.goals ++ goals⟩
  else f

def keep (f : Furthest) (position n : Nat) : Furthest :=
  if f.position = position then ⟨position, f.goals.take n⟩ else f

end Furthest

/-- Takes in the failures of a trace. A goal that fails stands for the goals that failed inside it
at its own place, except when that was just one, which says more. -/
def Trace.reach : Trace → Furthest → Furthest
  | nothing, f => f
  | both a b, f => b.reach (a.reach f)
  | missed goals position, f => f.note goals position
  | failed goal position inner, f =>
    let before := f.countAt position
    let after := inner.reach f
    if after.countAt position = before + 1 then after
    else (after.keep position before).note [goal] position

def distinct : List String → List String
  | [] => []
  | w :: ws => w :: (distinct ws).filter (· ≠ w)

def orList : List String → String
  | [] => "something else"
  | [w] => w
  | [v, w] => v ++ " or " ++ w
  | w :: ws => w ++ ", " ++ orList ws

def Furthest.expectation (f : Furthest) : String :=
  orList (distinct ((List.range 22).filterMap fun rank =>
    (f.goals.find? (·.rank = rank)).map Goal.words))

end Formula
