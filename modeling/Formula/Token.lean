import Formula.Numeral
import Formula.Operator
import Formula.Span
import Formula.Text.Utf8
import Formula.Unicode.Letter
import Formula.Unicode.Number

/-!
Tokens. A source is cut into the longest tokens that fit, blanks and comments between them left
out. Cutting never fails: what starts no token becomes a stray character, which no expression
accepts, and the last token marks the end of the source.
-/

namespace Formula

inductive Bracket
  | round | square | curly
deriving DecidableEq

inductive Symbol
  | op (op : InfixOp)
  | bang
  | opening (bracket : Bracket)
  | closing (bracket : Bracket)
  | comma
  | colon
  | dot
  | ellipsis
deriving DecidableEq

namespace Symbol

def text : Symbol → List Char
  | op o => o.text.toList
  | bang => ['!']
  | opening .round => ['(']
  | opening .square => ['[']
  | opening .curly => ['\x7b']
  | closing .round => [')']
  | closing .square => [']']
  | closing .curly => ['\x7d']
  | comma => [',']
  | colon => [':']
  | dot => ['.']
  | ellipsis => ['.', '.', '.']

/-- The signs that are cut from a text, each one before those that it starts with. The operator of
two characters `&^` is cut as two signs: before an operand it is two operators. -/
def all : List Symbol :=
  [ellipsis, dot,
   op .lor, op .land, op .eq, op .ne, op .arrow, op .shl, op .le, op .shr, op .ge,
   op .inc, op .dec,
   op .lt, op .gt, op .add, op .sub, op .bor, op .bxor, op .mul, op .div, op .rem, op .band,
   bang, opening .round, closing .round, opening .square, closing .square,
   opening .curly, closing .curly, comma, colon]

end Symbol

/-- Names and literals. Numbers keep their spelling, quoted literals what stands between the
quotes. -/
inductive Atom
  | name (text : List Char)
  | float (text : List Char)
  | int (text : List Char)
  | rune (body : List Char)
  | string (body : List Char)
  | raw (body : List Char)
deriving DecidableEq

def Atom.text : Atom → List Char
  | name text | float text | int text => text
  | rune body => '\'' :: body ++ ['\'']
  | string body => '"' :: body ++ ['"']
  | raw body => '\x60' :: body ++ ['\x60']

inductive Lexeme
  | atom (atom : Atom)
  | symbol (symbol : Symbol)
  | stray (c : Char)
  | finish
deriving DecidableEq

abbrev Token := Placed Lexeme

namespace Lexeme

def text : Lexeme → List Char
  | atom a => a.text
  | symbol s => s.text
  | stray c => [c]
  | finish => []

def endsLine (c : Char) : Bool := c = '\n' ∨ c = '\r'

def startsName (c : Char) : Bool := c = '_' ∨ Unicode.isLetter c

def continuesName (c : Char) : Bool := startsName c || Unicode.isDecimalDigit c

def isDigitOf (radix : Nat) (c : Char) : Bool := digitValue c < radix

def digitRun (isDigit : Char → Bool) : List Char → List Char × List Char
  | '_' :: d :: cs =>
    if isDigit d then
      let (run, rest) := digitRun isDigit cs
      ('_' :: d :: run, rest)
    else ([], '_' :: d :: cs)
  | d :: cs =>
    if isDigit d then
      let (run, rest) := digitRun isDigit cs
      (d :: run, rest)
    else ([], d :: cs)
  | [] => ([], [])

def decimals? : List Char → Option (List Char × List Char)
  | d :: cs =>
    if d.isDigit then
      let (run, rest) := digitRun Char.isDigit cs
      some (d :: run, rest)
    else none
  | [] => none

def exponent? : List Char → Option (List Char × List Char)
  | e :: s :: cs =>
    if e = 'e' ∨ e = 'E' then
      if s = '+' ∨ s = '-' then (decimals? cs).map fun (run, rest) => (e :: s :: run, rest)
      else (decimals? (s :: cs)).map fun (run, rest) => (e :: run, rest)
    else none
  | _ => none

def orNothing (part : List Char → Option (List Char × List Char)) (cs : List Char) :
    List Char × List Char :=
  (part cs).getD ([], cs)

def float? (cs : List Char) : Option (List Char × List Char) :=
  match decimals? cs with
  | some (whole, '.' :: rest) =>
    let (fraction, rest) := orNothing decimals? rest
    let (power, rest) := orNothing exponent? rest
    some (whole ++ '.' :: (fraction ++ power), rest)
  | some (whole, rest) => (exponent? rest).map fun (power, rest) => (whole ++ power, rest)
  | none =>
    match cs with
    | '.' :: rest =>
      (decimals? rest).map fun (fraction, rest) =>
        let (power, rest) := orNothing exponent? rest
        ('.' :: (fraction ++ power), rest)
    | _ => none

def marked? (mark : Char → Bool) (isDigit : Char → Bool) :
    List Char → Option (List Char × List Char)
  | '0' :: x :: cs =>
    if mark x then
      match digitRun isDigit cs with
      | ([], _) => none
      | (run, rest) => some ('0' :: x :: run, rest)
    else none
  | _ => none

def oldOctal? : List Char → Option (List Char × List Char)
  | '0' :: cs =>
    match digitRun (isDigitOf 8) cs with
    | ([], _) => none
    | (run, rest) => some ('0' :: run, rest)
  | _ => none

def plain? : List Char → Option (List Char × List Char)
  | '0' :: cs => some (['0'], cs)
  | cs => decimals? cs

def int? (cs : List Char) : Option (List Char × List Char) :=
  marked? (fun x => x = 'x' ∨ x = 'X') (isDigitOf 16) cs
    <|> marked? (fun x => x = 'b' ∨ x = 'B') (isDigitOf 2) cs
    <|> marked? (fun x => x = 'o' ∨ x = 'O') (isDigitOf 8) cs
    <|> oldOctal? cs
    <|> plain? cs

/-- Where the reader of a quoted literal stands: between characters, after a backslash, or before
the last digits of an escape. -/
inductive QuoteState
  | plain
  | escaped
  | digits (radix remaining : Nat)
deriving DecidableEq

def escapeDigits? (c : Char) : Option QuoteState :=
  if c = 'x' then some (.digits 16 2)
  else if c = 'u' then some (.digits 16 4)
  else if c = 'U' then some (.digits 16 8)
  else if isDigitOf 8 c then some (.digits 8 2)
  else none

def isSimpleEscape (quote c : Char) : Bool :=
  c = quote ∨ c ∈ ['a', 'b', 'f', 'n', 'r', 't', 'v', '\\']

/-- Reads on to the closing quote: how many characters and escapes stand before it, the text they
make up, and the text after the quote. A line end or a wrong escape ends the reading. -/
def closeQuote (quote : Char) : QuoteState → List Char → Option (Nat × List Char × List Char)
  | _, [] => none
  | .plain, c :: cs =>
    if c = quote then some (0, [], cs)
    else if endsLine c then none
    else if c = '\\' then
      (closeQuote quote .escaped cs).map fun (n, body, rest) => (n, c :: body, rest)
    else (closeQuote quote .plain cs).map fun (n, body, rest) => (n + 1, c :: body, rest)
  | .escaped, c :: cs =>
    if isSimpleEscape quote c then
      (closeQuote quote .plain cs).map fun (n, body, rest) => (n + 1, c :: body, rest)
    else
      match escapeDigits? c with
      | some state => (closeQuote quote state cs).map fun (n, body, rest) => (n, c :: body, rest)
      | none => none
  | .digits radix remaining, c :: cs =>
    if digitValue c < radix then
      if remaining ≤ 1 then
        (closeQuote quote .plain cs).map fun (n, body, rest) => (n + 1, c :: body, rest)
      else
        (closeQuote quote (.digits radix (remaining - 1)) cs).map fun (n, body, rest) =>
          (n, c :: body, rest)
    else none

def closeRaw : List Char → Option (List Char × List Char)
  | [] => none
  | c :: cs =>
    if c = '\x60' then some ([], cs)
    else (closeRaw cs).map fun (body, rest) => (c :: body, rest)

def quoted? : List Char → Option (Atom × List Char)
  | '"' :: cs => (closeQuote '"' .plain cs).map fun (_, body, rest) => (.string body, rest)
  | '\'' :: cs =>
    match closeQuote '\'' .plain cs with
    | some (1, body, rest) => some (.rune body, rest)
    | _ => none
  | '\x60' :: cs => (closeRaw cs).map fun (body, rest) => (.raw body, rest)
  | _ => none

def name? : List Char → Option (List Char × List Char)
  | c :: cs =>
    if startsName c then some (c :: cs.takeWhile continuesName, cs.dropWhile continuesName)
    else none
  | [] => none

def after? : List Char → List Char → Option (List Char)
  | [], cs => some cs
  | _ :: _, [] => none
  | a :: as, c :: cs => if a = c then after? as cs else none

def symbol? (cs : List Char) : Option (Symbol × List Char) :=
  Symbol.all.findSome? fun s => (after? s.text cs).map fun rest => (s, rest)

def atom? (cs : List Char) : Option (Atom × List Char) :=
  (name? cs).map (fun (text, rest) => (.name text, rest))
    <|> (float? cs).map (fun (text, rest) => (.float text, rest))
    <|> (int? cs).map (fun (text, rest) => (.int text, rest))
    <|> quoted? cs

def first? (cs : List Char) : Option (Lexeme × List Char) :=
  (atom? cs).map (fun (a, rest) => (atom a, rest))
    <|> (symbol? cs).map (fun (s, rest) => (symbol s, rest))
    <|> match cs with
      | c :: rest => some (stray c, rest)
      | [] => none

def closeComment : List Char → Option (List Char × List Char)
  | '*' :: '/' :: cs => some (['*', '/'], cs)
  | c :: cs => (closeComment cs).map fun (text, rest) => (c :: text, rest)
  | [] => none

/-- A blank or a comment at the head of a text. A comment that is never closed is none. -/
def trivia? : List Char → Option (List Char × List Char)
  | '/' :: '/' :: cs => some ('/' :: '/' :: cs.takeWhile (!endsLine ·), cs.dropWhile (!endsLine ·))
  | '/' :: '*' :: cs => (closeComment cs).map fun (text, rest) => ('/' :: '*' :: text, rest)
  | c :: cs => if c = ' ' ∨ c = '\t' ∨ c = '\r' ∨ c = '\n' then some ([c], cs) else none
  | [] => none

end Lexeme

namespace Token

def listFrom : Nat → Nat → List Char → List Token
  | 0, offset, _ => [⟨.finish, offset, offset⟩]
  | turns + 1, offset, cs =>
    match Lexeme.trivia? cs with
    | some (text, rest) => listFrom turns (offset + byteSize text) rest
    | none =>
      match Lexeme.first? cs with
      | some (lexeme, rest) =>
        let stop := offset + byteSize lexeme.text
        ⟨lexeme, offset, stop⟩ :: listFrom turns stop rest
      | none => [⟨.finish, offset, offset⟩]

def list (cs : List Char) : List Token := listFrom (cs.length + 1) 0 cs

end Token

end Formula
