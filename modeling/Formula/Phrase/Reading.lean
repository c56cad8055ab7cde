import Formula.Parser
import Formula.Phrase

/-!
The grammar of phrases. Readers for phrases and types are built level by level: those of one level
nest in brackets, or behind a pointer mark, only readers of the level below. Nesting takes a token,
so that a level for each token is enough.
-/

namespace Formula

open Formula.Parser

def PrefixOp.ofSymbol? : Symbol → Option PrefixOp
  | .op .inc => some .inc
  | .op .dec => some .dec
  | .op .sub => some .neg
  | .bang => some .not
  | .op .add => some .pos
  | .op .bxor => some .bitNot
  | .op .mul => some .deref
  | .op .band => some .addrOf
  | .op .arrow => some .recv
  | _ => none

namespace Phrase

def prefixOp : Parser (Placed PrefixOp) :=
  expect (PrefixOp.all.map .prefixOp) fun t => match t.value with
    | .symbol s => (PrefixOp.ofSymbol? s).map (⟨·, t.span⟩)
    | _ => none

/-- An operator between operands. The signs `&` and `^` without a gap are one operator. -/
def infixOp : Parser (Placed InfixOp) :=
  ⟨fun ts => match ts with
    | [] => (none, .missed (InfixOp.all.map .infixOp) 0)
    | t :: rest => match t.value with
      | .symbol (.op .band) => match rest with
        | u :: rest' =>
          if u.value = .symbol (.op .bxor) ∧ t.span.stop = u.span.start then
            (some (⟨.andNot, t.span.cover u.span⟩, rest'), .nothing)
          else (some (⟨.band, t.span⟩, rest), .nothing)
        | [] => (some (⟨.band, t.span⟩, rest), .nothing)
      | .symbol (.op op) => (some (⟨op, t.span⟩, rest), .nothing)
      | _ => (none, .missed (InfixOp.all.map .infixOp) t.span.start)⟩

def name : Parser (Placed (List Char)) :=
  expect [.name] fun t => match t.value with
    | .atom (.name text) => some ⟨text, t.span⟩
    | _ => none

def atom : Parser Operand :=
  expect [.float, .int, .rune, .string, .raw, .name] fun t => match t.value with
    | .atom a => some (.atom ⟨a, t.span⟩)
    | _ => none

def mapWord : Parser Token :=
  expect [] fun t => if t.value = .atom (.name "map".toList) then some t else none

def qualifiedName : Parser TypeExpr :=
  goal .qualifiedName ⟨fun ts => match ts with
    | t :: d :: u :: rest => match t.value, u.value with
      | .atom (.name package), .atom (.name text) =>
        if d.value = .symbol .dot ∧ t.span.stop = d.span.start ∧ d.span.stop = u.span.start then
          (some (.qualified (t.span.cover u.span) package text, rest), .nothing)
        else (none, .nothing)
      | _, _ => (none, .nothing)
    | _ => (none, .nothing)⟩

structure Level where
  phrase : Parser Phrase
  type : Parser TypeExpr

namespace Level

variable (below : Level)

def mapType : Parser TypeExpr := goal .mapType do
  let word ← mapWord
  let _ ← sign (.opening .square)
  let key ← below.type
  let _ ← sign (.closing .square)
  let value ← below.type
  return .map (word.span.cover value.span) key value

def sliceType : Parser TypeExpr := goal .sliceType do
  let bracket ← sign (.opening .square)
  let _ ← sign (.closing .square)
  let element ← below.type
  return .slice (bracket.span.cover element.span) element

def arrayType : Parser TypeExpr := goal .arrayType do
  let bracket ← sign (.opening .square)
  let length ← (do
    let _ ← goal .ellipsis (sign .ellipsis)
    return none) <|> (do
    let length ← below.phrase
    return some length)
  let _ ← sign (.closing .square)
  let element ← below.type
  let span := bracket.span.cover element.span
  return match length with
    | some length => .array span length element
    | none => .openArray span element

def pointerType : Parser TypeExpr := goal .pointerType do
  let mark ← sign (.op .mul)
  let target ← below.type
  return .pointer (mark.span.cover target.span) target

def namedType : Parser TypeExpr := do
  let text ← name
  return .name text.span text.value

def compositeType : Parser TypeExpr :=
  mapType below <|> sliceType below <|> arrayType below

def anyType : Parser TypeExpr := goal .type
  (compositeType below <|> pointerType below <|> qualifiedName <|> namedType)

def element : Parser Element := goal .element do
  let start ← here
  let first ← below.phrase
  let second ← optional do
    let _ ← sign .colon
    below.phrase
  return match second with
    | some value => .keyed ⟨start, value.stop⟩ first value
    | none => .plain first

def composite : Parser Operand := goal .composite do
  let start ← here
  let type ← compositeType below
  let _ ← sign (.opening .curly)
  let elements ← optional (commaList (element below))
  let bracket ← sign (.closing .curly)
  return .composite ⟨start, bracket.span.stop⟩ type (elements.getD [])

def call : Parser Operand := goal .call do
  let function ← name
  let _ ← sign (.opening .round)
  let args ← optional (commaList below.phrase)
  let bracket ← sign (.closing .round)
  return .call (function.span.cover bracket.span) function.value (args.getD [])

def group : Parser Operand := goal .group do
  let opening ← sign (.opening .round)
  let inner ← below.phrase
  let closing ← sign (.closing .round)
  return .group (opening.span.cover closing.span) inner

def index : Parser (Phrase × Nat) := goal .index do
  let _ ← sign (.opening .square)
  let position ← below.phrase
  let bracket ← sign (.closing .square)
  return (position, bracket.span.stop)

def operand : Parser Operand := do
  let signs ← many prefixOp
  let base ← composite below <|> call below <|> group below <|> atom
  let indexes ← many (index below)
  let indexed := indexes.foldl (fun base (position, stop) => .index base position stop) base
  return signs.foldr .signed indexed

def anyPhrase : Parser Phrase := goal .phrase do
  let first ← operand below
  let rest ← many do
    let op ← infixOp
    let second ← operand below
    return (op, second)
  let next ← here
  return ofRow (rowStop next rest) first rest

def next : Level := ⟨anyPhrase below, anyType below⟩

end Level

def level : Nat → Level
  | 0 => ⟨fail, fail⟩
  | n + 1 => (level n).next

def whole (ts : List Token) : Parser Phrase := do
  let phrase ← (level ts.length).phrase
  let _ ← expect [.finish] fun t => if t.value = .finish then some t else none
  return phrase

def ofTokens? (ts : List Token) : Option Phrase := ((whole ts).run ts).map (·.1)

def furthest (ts : List Token) : Furthest := ((whole ts).trace ts).reach {}

end Phrase

end Formula
