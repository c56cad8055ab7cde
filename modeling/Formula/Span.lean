namespace Formula

/-- A byte range of the source: from `start` up to, not including, `stop`. -/
structure Span where
  start : Nat
  stop : Nat
deriving DecidableEq

namespace Span

def cover (a b : Span) : Span := ⟨a.start, b.stop⟩

end Span

structure Placed (α : Type) where
  value : α
  span : Span
deriving DecidableEq

end Formula
