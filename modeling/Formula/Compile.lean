import Formula.Expr.OfPhrase
import Formula.Nesting
import Formula.Phrase.Reading

/-!
From source text to expression. Brackets that nest too deep are found first, then text that is no
phrase, then the faults of the phrase.
-/

namespace Formula

def foundAt (source : List Char) (offset : Nat) : String :=
  match dropBytes offset source with
  | [] => "end of input"
  | c :: _ => String.ofList ['\'', c, '\'']

def unreadable (source : List Char) (tokens : List Token) : Flaw :=
  let f := Phrase.furthest tokens
  .malformed ⟨f.position, f.position⟩
    ("expected " ++ f.expectation ++ ", found " ++ foundAt source f.position)

def build (limit : Nat) (source : List Char) : Except Flaw Built :=
  match Nesting.firstDeeper? limit 0 (Nesting.brackets .code 0 source) with
  | some offset => .error (Built.tooDeep limit ⟨offset, offset + 1⟩)
  | none =>
    let tokens := Token.list source
    match Phrase.ofTokens? tokens with
    | none => .error (unreadable source tokens)
    | some phrase => phrase.build limit

def compile (limit : Nat) (source : String) : Except Failure Expr :=
  match build limit source.toList with
  | .error flaw => .error (flaw.inSource source)
  | .ok built => .ok built.expr

end Formula
