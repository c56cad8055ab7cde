import Formula.Expr
import Formula.Function
import Formula.Operation
import Formula.Text.Utf8

/-!
Evaluation of expressions. Operands are evaluated from left to right, the right operand of a logic
operator only if the left one leaves the result open. A fault carries the span of the node that
failed, and every function that was called is on record, in order.
-/

namespace Formula

structure Call where
  span : Span
  name : String
  args : List Literal
  recorded : Bool
deriving DecidableEq

structure Evaluation (α : Type) where
  outcome : Except Flaw α
  calls : List Call

namespace Evaluation

variable {α β : Type}

protected def bind (x : Evaluation α) (f : α → Evaluation β) : Evaluation β :=
  match x.outcome with
  | .error flaw => ⟨.error flaw, x.calls⟩
  | .ok a =>
    let y := f a
    ⟨y.outcome, x.calls ++ y.calls⟩

instance : Monad Evaluation where
  pure a := ⟨.ok a, []⟩
  bind := Evaluation.bind

def fault (span : Span) (kind : FailureKind) : Evaluation α := ⟨.error ⟨kind, span, none⟩, []⟩

def operation (span : Span) : Except FailureKind α → Evaluation α
  | .ok a => ⟨.ok a, []⟩
  | .error kind => fault span kind

/-- The call of a function at a place. An error that it returns as a value counts as its failure. -/
def invoke (span : Span) (name : String) (f : Function) (args : List Literal) :
    Evaluation Literal :=
  ⟨match f.call args with
    | .ok (.err cause) | .error cause => .error ⟨.functionFailed name cause, span, none⟩
    | .ok v => .ok v,
   [⟨span, name, args, f.recorded⟩]⟩

end Evaluation

abbrev Bindings := NameMap Literal

structure Scope where
  bindings : Bindings
  functions : Registry

/-- Where a node stands: composites have a value only where they are indexed. -/
inductive Role
  | value
  | base

inductive Base
  | plain (v : Literal)
  | items (vs : List Literal)

def Role.Result : Role → Type
  | value => Literal
  | base => Base

def Role.ofLiteral : (role : Role) → Literal → role.Result
  | value, v => v
  | base, v => .plain v

namespace Expr

def lookup (scope : Scope) (span : Span) (name : String) : Evaluation Literal :=
  match scope.bindings.get? name with
  | none => .fault span (.unknownVariable name)
  | some (.err cause) => .fault span (.propagated cause)
  | some v => pure v

def item (span positionSpan : Span) (base : Base) (position : Literal) : Evaluation Literal :=
  match base with
  | .plain (.str s) =>
    let bytes := utf8Bytes s.toList
    match (position.below? bytes.length).bind (bytes[·]?) with
    | some b => pure (.str (String.ofList [Char.ofNat b.toNat]))
    | none => .fault positionSpan .invalidIndex
  | .plain _ => .fault span .typeNotIndexable
  | .items vs =>
    match (position.below? vs.length).bind (vs[·]?) with
    | some v => pure v
    | none => .fault positionSpan .invalidIndex

def indexable (span : Span) : Base → Evaluation Base
  | .plain (.str s) => pure (.plain (.str s))
  | .plain _ => .fault span .typeNotIndexable
  | .items vs => pure (.items vs)

mutual

def evaluate (scope : Scope) (role : Role) : Expr → Evaluation role.Result
  | constant _ v => pure (role.ofLiteral v)
  | ident span name => do
    let v ← lookup scope span name
    return role.ofLiteral v
  | unary span op operand => do
    let v ← evaluate scope .value operand
    let w ← Evaluation.operation span (Literal.unary op v)
    return role.ofLiteral w
  | arith span op left right => do
    let v ← evaluate scope .value left
    let w ← evaluate scope .value right
    let u ← Evaluation.operation span (Literal.arith op v w)
    return role.ofLiteral u
  | compare span op left right => do
    let v ← evaluate scope .value left
    let w ← evaluate scope .value right
    let b ← Evaluation.operation span (Literal.compare op v w)
    return role.ofLiteral (.bool b)
  | logic _ op left right => do
    let v ← evaluate scope .value left
    let a ← Evaluation.operation left.span (Literal.truth v)
    match op, a with
    | .and, false => return role.ofLiteral (.bool false)
    | .or, true => return role.ofLiteral (.bool true)
    | _, _ => do
      let w ← evaluate scope .value right
      let b ← Evaluation.operation right.span (Literal.truth w)
      return role.ofLiteral (.bool b)
  | index span base position => do
    let b ← evaluate scope .base base
    let b ← indexable span b
    let p ← evaluate scope .value position
    let v ← item span position.span b p
    return role.ofLiteral v
  | call span name args =>
    match scope.functions.get? name with
    | none => .fault span (.unknownFunction name)
    | some f => do
      let vs ← evaluateAll scope args
      let v ← Evaluation.invoke span name f vs
      return role.ofLiteral v
  | composite span elements =>
    match role with
    | .value => .fault span .incompatibleTypes
    | .base => do
      let vs ← evaluateAll scope elements
      return .items vs
  | group _ inner => evaluate scope role inner

def evaluateAll (scope : Scope) : List Expr → Evaluation (List Literal)
  | [] => pure []
  | e :: es => do
    let v ← evaluate scope .value e
    let vs ← evaluateAll scope es
    return v :: vs

end

def value (scope : Scope) (e : Expr) : Evaluation Literal := e.evaluate scope .value

end Expr

end Formula
