import Formula.Expr
import Formula.Expr.Chain
import Formula.Expr.Constant
import Formula.Failure
import Formula.Phrase

namespace Formula

/-- An expression with its height: the number of nodes on its longest path. -/
structure Built where
  expr : Expr
  height : Nat

namespace Built

def tooDeep (limit : Nat) (span : Span) : Flaw :=
  .malformed span
    ("expression nesting depth exceeds maximum of " ++ Nat.repr limit ++ " levels")

def above (limit : Nat) (expr : Expr) (below : Nat) : Except Flaw Built :=
  if limit < below + 1 then .error (tooDeep limit expr.span) else .ok ⟨expr, below + 1⟩

def highest : List Built → Nat
  | [] => 0
  | b :: bs => if b.height ≤ highest bs then highest bs else b.height

def join (limit : Nat) (left : Built) (op : Placed InfixOp) (right : Built) :
    Except Flaw Built :=
  let span := left.expr.span.cover right.expr.span
  let below := highest [left, right]
  match op.value.meaning? with
  | some (.arith o) => above limit (.arith span o left.expr right.expr) below
  | some (.compare o) => above limit (.compare span o left.expr right.expr) below
  | some (.logic o) => above limit (.logic span o left.expr right.expr) below
  | none => .error ⟨.invalidOperator op.value.text, op.span, none⟩

/-- Puts an operator before an operand. A minus before the decimal literal one beyond the greatest
integer makes the least integer. -/
def sign (limit : Nat) (op : Placed PrefixOp) (operand : Operand) (built : Built) :
    Except Flaw Built :=
  let span := op.span.cover built.expr.span
  match op.value.meaning? with
  | none => .error ⟨.invalidOperator op.value.text, op.span, none⟩
  | some o =>
    let least := match o, operand with
      | .neg, .atom ⟨.int text, _⟩ => negatedInt? text
      | _, _ => none
    match least with
    | some n => above limit (.constant span (.int n)) 0
    | none => above limit (.unary span o built.expr) built.height

/-- The number of positions of a constant base: bytes of a text, elements of a composite. Other
constants have none; of other expressions it is not known. -/
def constantLength? : Expr → Option (Option Nat)
  | .constant _ (.str s) => some (some (byteSize s.toList))
  | .constant _ _ => some none
  | .composite _ elements => some (some elements.length)
  | _ => none

/-- The fault of an index that fails whatever the variables hold. -/
def indexFault? (span : Span) (base position : Expr) : Option Flaw :=
  match constantLength? base.ungrouped with
  | none => none
  | some none => some ⟨.typeNotIndexable, span, none⟩
  | some (some length) =>
    match position.ungrouped with
    | .constant _ value =>
      if (value.below? length).isSome then none
      else some ⟨.invalidIndex, position.span, none⟩
    | _ => none

def index (limit : Nat) (base : Built) (position : Built) (stop : Nat) : Except Flaw Built :=
  let span : Span := ⟨base.expr.span.start, stop⟩
  match indexFault? span base.expr position.expr with
  | some flaw => .error flaw
  | none => above limit (.index span base.expr position.expr) (highest [base, position])

def atom (limit : Nat) (a : Placed Atom) : Except Flaw Built :=
  match a.value with
  | .name text => above limit (.ident a.span (String.ofList text)) 0
  | literal => match literal.value? with
    | .ok v => above limit (.constant a.span v) 0
    | .error detail => .error (.malformed a.span detail)

/-- The fault of a composite literal's type: its elements must be of type `lit`. -/
def typeFault? : TypeExpr → Option Flaw
  | .slice _ element | .array _ _ element | .openArray _ element => match element with
    | .name span text =>
      if text = "lit".toList then none else some ⟨.invalidCompositeType, span, none⟩
    | other => some ⟨.invalidCompositeType, other.span, none⟩
  | other => some (.malformed other.span "map literals are not supported")

end Built

def Operand.signCount : Operand → Nat
  | .signed _ operand => operand.signCount + 1
  | _ => 0

def Operand.signStart : Operand → Nat
  | .signed op _ => op.span.start
  | _ => 0

/-- The fault of a run of operators before one operand that is too long for the limit; it reaches to
the end of the phrase. -/
def Phrase.runFault? (limit : Nat) : Phrase → Option Flaw
  | last o stop => check o stop
  | join o _ rest => (check o rest.stop).or (rest.runFault? limit)
where
  /-- The fault of one operand's run. -/
  check (o : Operand) (stop : Nat) : Option Flaw :=
    if 0 < o.signCount ∧ limit < o.signCount + 1 then some (Built.tooDeep limit ⟨o.signStart, stop⟩)
    else none

/-- The expression of a phrase whose operands are built: runs of operators are checked first, then
precedence gives each operator its operands. -/
def Phrase.assemble (limit : Nat) (p : Phrase)
    (row : Except Flaw Built × List (Placed InfixOp × Except Flaw Built)) : Except Flaw Built :=
  match p.runFault? limit with
  | some flaw => .error flaw
  | none => (Chain.ofRow (fun op => op.value.precedence) row.1 row.2).fold (Built.join limit)

mutual

def Phrase.row (limit : Nat) : Phrase →
    Except Flaw Built × List (Placed InfixOp × Except Flaw Built)
  | .last o _ => (o.build limit, [])
  | .join o op rest =>
    let (second, more) := rest.row limit
    (o.build limit, (op, second) :: more)

def Operand.build (limit : Nat) : Operand → Except Flaw Built
  | .atom a => Built.atom limit a
  | .group span inner => do
    let b ← inner.assemble limit (inner.row limit)
    Built.above limit (.group span b.expr) b.height
  | .call span name args => do
    let bs ← Phrase.buildAll limit args
    Built.above limit (.call span (String.ofList name) (bs.map (·.expr))) (Built.highest bs)
  | .composite span type elements =>
    match Built.typeFault? type with
    | some flaw => .error flaw
    | none => do
      let bs ← Element.buildAll limit elements
      Built.above limit (.composite span (bs.map (·.expr))) (Built.highest bs)
  | .index base position stop => do
    let b ← base.build limit
    let p ← position.assemble limit (position.row limit)
    Built.index limit b p stop
  | .signed op operand => do
    let b ← operand.build limit
    Built.sign limit op operand b

def Phrase.buildAll (limit : Nat) : List Phrase → Except Flaw (List Built)
  | [] => .ok []
  | p :: ps => do
    let b ← p.assemble limit (p.row limit)
    let bs ← Phrase.buildAll limit ps
    return b :: bs

def Element.buildAll (limit : Nat) : List Element → Except Flaw (List Built)
  | [] => .ok []
  | e :: es => do
    let b ← e.build limit
    let bs ← Element.buildAll limit es
    return b :: bs

def Element.build (limit : Nat) : Element → Except Flaw Built
  | .plain value => value.assemble limit (value.row limit)
  | .keyed span _ _ => .error (.malformed span "keyed elements are not supported")

end

def Phrase.build (limit : Nat) (p : Phrase) : Except Flaw Built := p.assemble limit (p.row limit)

end Formula
