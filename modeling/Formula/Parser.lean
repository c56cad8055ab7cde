import Formula.Token
import Formula.Trace

/-!
Readers of tokens. A reader takes tokens from the front of a list or fails, and keeps a trace of
what failed on the way; the trace never changes the outcome. Choice is ordered: the second reader
is asked only where the first has failed.
-/

namespace Formula

structure Parser (α : Type) where
  parse : List Token → Option (α × List Token) × Trace

namespace Parser

variable {α β : Type}

def run (p : Parser α) (ts : List Token) : Option (α × List Token) := (p.parse ts).1

def trace (p : Parser α) (ts : List Token) : Trace := (p.parse ts).2

def startOf : List Token → Nat
  | [] => 0
  | t :: _ => t.span.start

protected def pure (a : α) : Parser α := ⟨fun ts => (some (a, ts), .nothing)⟩

protected def bind (p : Parser α) (f : α → Parser β) : Parser β :=
  ⟨fun ts => match p.parse ts with
    | (none, trace) => (none, trace)
    | (some (a, rest), trace) =>
      let (result, trace') := (f a).parse rest
      (result, .both trace trace')⟩

instance : Monad Parser where
  pure := Parser.pure
  bind := Parser.bind

def fail : Parser α := ⟨fun _ => (none, .nothing)⟩

protected def orElse (p : Parser α) (q : Unit → Parser α) : Parser α :=
  ⟨fun ts => match p.parse ts with
    | (some result, trace) => (some result, trace)
    | (none, trace) =>
      let (result, trace') := (q ()).parse ts
      (result, .both trace trace')⟩

instance : OrElse (Parser α) := ⟨Parser.orElse⟩

def goal (g : Goal) (p : Parser α) : Parser α :=
  ⟨fun ts => match p.parse ts with
    | (some result, trace) => (some result, trace)
    | (none, trace) => (none, .failed g (startOf ts) trace)⟩

def here : Parser Nat := ⟨fun ts => (some (startOf ts, ts), .nothing)⟩

def expect (goals : List Goal) (f : Token → Option α) : Parser α :=
  ⟨fun ts => match ts with
    | [] => (none, .missed goals 0)
    | t :: rest => match f t with
      | some a => (some (a, rest), .nothing)
      | none => (none, .missed goals t.span.start)⟩

def sign (s : Symbol) : Parser Token :=
  ⟨fun ts => match ts with
    | [] => (none, .nothing)
    | t :: rest => (if t.value = .symbol s then some (t, rest) else none, .nothing)⟩

def optional (p : Parser α) : Parser (Option α) :=
  ⟨fun ts => match p.parse ts with
    | (some (a, rest), trace) => (some (some a, rest), trace)
    | (none, trace) => (some (none, ts), trace)⟩

def manyUpTo : Nat → Parser α → List Token → (List α × List Token) × Trace
  | 0, _, ts => (([], ts), .nothing)
  | n + 1, p, ts => match p.parse ts with
    | (none, trace) => (([], ts), trace)
    | (some (a, rest), trace) =>
      let ((more, rest), trace') := manyUpTo n p rest
      ((a :: more, rest), .both trace trace')

/-- A reader as often as it succeeds. Each turn takes a token, so that their number bounds the
turns. -/
def many (p : Parser α) : Parser (List α) :=
  ⟨fun ts =>
    let (result, trace) := manyUpTo ts.length p ts
    (some result, trace)⟩

def commaList (p : Parser α) : Parser (List α) := do
  let first ← p
  let more ← many do
    let _ ← sign .comma
    p
  let _ ← optional (sign .comma)
  return first :: more

end Parser

end Formula
