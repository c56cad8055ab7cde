namespace Formula

def consFirst (c : Char) : List (List Char) → List (List Char)
  | [] => [[c]]
  | line :: lines => (c :: line) :: lines

/-- Lines ended by a line feed, which a carriage return may precede; neither is part of the line. A
text that ends with a line feed has no empty line after it. -/
def textLines : List Char → List (List Char)
  | [] => []
  | '\r' :: '\n' :: cs => [] :: textLines cs
  | '\n' :: cs => [] :: textLines cs
  | c :: cs => consFirst c (textLines cs)

def isLineEnd (c : Char) : Bool :=
  c ∈ ['\n', '\x0b', '\x0c', '\r', '\u0085', '\u2028', '\u2029']

/-- Lines with the characters that end them; a carriage return and a line feed end one line
together. -/
def endedLines : List Char → List (List Char)
  | [] => []
  | '\r' :: '\n' :: cs => ['\r', '\n'] :: endedLines cs
  | c :: cs => if isLineEnd c then [c] :: endedLines cs else consFirst c (endedLines cs)

/-- Number and text of the line in which the character at `offset` stands, counted from one, and the
column of the character, counted from zero. What lies beyond the end belongs to the last line. -/
def lineAt (number offset : Nat) : List (List Char) → Nat × List Char × Nat
  | [] => (number, [], offset)
  | [line] => (number, line, offset)
  | line :: lines =>
    if offset < line.length then (number, line, offset)
    else lineAt (number + 1) (offset - line.length) lines

end Formula
