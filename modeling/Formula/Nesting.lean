import Formula.Text.Utf8

/-!
How deep brackets nest in a text, before it is read. Brackets inside quotes and comments do not
count. A line comment ends at a line feed, and a backslash hides the character after it in all
quotes but back quotes.
-/

namespace Formula.Nesting

inductive Mode
  | code
  | quoted (quote : Char)
  | escaped (quote : Char)
  | lineComment
  | openingBlock
  | blockComment
  | closingBlock
deriving DecidableEq

def opens (c : Char) : Bool := c ∈ ['(', '[', '\x7b']

def closes (c : Char) : Bool := c ∈ [')', ']', '\x7d']

def isQuote (c : Char) : Bool := c ∈ ['\x22', '\x27', '\x60']

def after (c : Char) (rest : List Char) : Mode → Mode
  | .code =>
    if isQuote c then .quoted c
    else if c = '/' then
      match rest.head? with
      | some '/' => .lineComment
      | some '*' => .openingBlock
      | _ => .code
    else .code
  | .quoted q => if c = q then .code else if c = '\\' ∧ q ≠ '\x60' then .escaped q else .quoted q
  | .escaped q => .quoted q
  | .lineComment => if c = '\n' then .code else .lineComment
  | .openingBlock => .blockComment
  | .blockComment => if c = '*' ∧ rest.head? = some '/' then .closingBlock else .blockComment
  | .closingBlock => .code

/-- The brackets of a text that starts at a byte offset: where each stands, and whether it opens. -/
def brackets : Mode → Nat → List Char → List (Nat × Bool)
  | _, _, [] => []
  | mode, offset, c :: cs =>
    let rest := brackets (after c cs mode) (offset + c.utf8Size) cs
    if mode = .code ∧ opens c then (offset, true) :: rest
    else if mode = .code ∧ closes c then (offset, false) :: rest
    else rest

/-- The first bracket that opens more than `limit` levels, `depth` being open before. A bracket that
closes nothing is passed over. -/
def firstDeeper? (limit : Nat) : Nat → List (Nat × Bool) → Option Nat
  | _, [] => none
  | depth, (offset, true) :: rest =>
    if limit < depth + 1 then some offset else firstDeeper? limit (depth + 1) rest
  | depth, (_, false) :: rest => firstDeeper? limit (depth - 1) rest

end Formula.Nesting
