import Formula.Failure
import Formula.Text.Lines
import Formula.Unicode.Blank
import Formula.Unicode.Width

/-!
Failures shown in their source: the line at fault, a mark under the part at fault, the message, and
the explanation where there is one. Spans are taken as character offsets.
-/

namespace Formula.Report

inductive Paint
  | title | frame | margin | source | mark | help

def Paint.code : Paint → String
  | title => "31"
  | frame => "38;5;246"
  | margin => "38;5;240"
  | source => "38;5;249"
  | mark => "38;5;155"
  | help => "38;5;115"

def paint (color : Bool) (p : Paint) (text : String) : String :=
  if color then "\x1b[" ++ p.code ++ "m" ++ text ++ "\x1b[0m" else text

def times (n : Nat) (c : Char) : String := String.ofList (List.replicate n c)

/-- How a character of a source is drawn, and in how many columns: blanks as spaces, a tab up to the
next column that four divides. -/
def drawn (column : Nat) (c : Char) : Char × Nat :=
  if c = '\t' then (' ', (column / 4 + 1) * 4 - column)
  else if Unicode.isBlank c then (' ', 1)
  else (c, if c.toNat < 32 ∨ 127 ≤ c.toNat ∧ c.toNat < 160 then 1 else Unicode.columns c)

/-- The part of one line that a label marks: columns from `start` up to, not including, `stop`. The
line has `room` columns, its end included. -/
structure Label where
  line : Nat
  text : List Char
  room : Nat
  start : Nat
  stop : Nat

namespace Label

def ofSpan? (source : List Char) (span : Span) : Option Label :=
  let size := source.length
  if size < span.start ∨ span.start < span.stop ∧ size < span.stop - 1 then none
  else
    let (line, text, column) := lineAt 1 span.start (endedLines source)
    some ⟨line, Unicode.trimEnd text, text.length, column, column + (span.stop - span.start)⟩

def middle (l : Label) : Nat := (l.start + l.stop) / 2

def columnsAt (l : Label) (column : Nat) : Nat :=
  match l.text[column]? with
  | some c => (drawn column c).2
  | none => 1

def sourceRow (l : Label) (color : Bool) : String :=
  String.join (l.text.mapIdx fun column c =>
    let tint := if l.start ≤ column ∧ column < l.stop then Paint.mark else Paint.source
    let (shown, width) := drawn column c
    let piece := paint color tint (String.singleton shown)
    if Unicode.isBlank c then String.join (List.replicate width piece) else piece)

/-- What a row under the line has in a column: nothing, or a character of the mark and what fills the
further places of a wide column. -/
inductive Cell
  | empty
  | mark (first filler : Char)

def row (l : Label) (color : Bool) (cell : Nat → Cell) : String :=
  let shown (c : Char) := paint color .mark (String.singleton c)
  String.join ((List.range (l.stop + 2)).map fun column =>
    match l.columnsAt column, cell column with
    | 0, _ => ""
    | width, .empty => times width ' '
    | width + 1, .mark first filler =>
      shown first ++ String.join (List.replicate width (shown filler)))

def underline (l : Label) (color : Bool) : String :=
  l.row color fun column =>
    if l.start = l.stop then (if column = l.start then .mark '│' ' ' else .empty)
    else if column = l.middle then .mark '┬' '─'
    else if l.start ≤ column ∧ column < l.stop then .mark '─' '─'
    else .empty

def arrow (l : Label) (color : Bool) : String :=
  l.row color fun column =>
    if column < l.middle then .empty
    else if column = l.middle then .mark '╰' '─'
    else .mark '─' '─'

end Label

def helpLines (color : Bool) (detail : String) : List String :=
  match textLines detail.toList with
  | [] => []
  | first :: rest =>
    (paint color .help "Help" ++ ": " ++ String.ofList first) ::
      rest.map fun line => times 6 ' ' ++ String.ofList line

def title (color : Bool) : String := paint color .title "Error:" ++ " invalid expression"

/-- The lines of a report on a label. A label that reaches beyond its line is not drawn: an empty row
stands for the line and the message. -/
def labelled (color : Bool) (l : Label) (message : String) (detail : Option String) :
    List String :=
  let number := Nat.repr l.line
  let gap := times (number.length + 2) ' '
  let frame := paint color .frame
  let margin := " " ++ paint color .margin (times (number.length + 1) ' ' ++ "│") ++ " "
  let place := " <expr>:" ++ number ++ ":" ++ Nat.repr (l.start + 1) ++ " "
  [title color,
   gap ++ frame "╭" ++ frame "─" ++ frame "[" ++ place ++ frame "]",
   gap ++ frame "│"]
  ++ (if l.stop ≤ l.room then
      [" " ++ frame (number ++ " │") ++ " " ++ l.sourceRow color,
       margin ++ l.underline color,
       margin ++ l.arrow color ++ " " ++ message]
    else [margin])
  ++ (match detail with
    | some text => margin :: (helpLines color text).map (margin ++ ·)
    | none => [])
  ++ [frame (times (number.length + 2) '─' ++ "╯")]

def rows (color : Bool) (f : Failure) : List String :=
  let source := f.source.toList
  let span := f.span.getD ⟨0, f.source.utf8ByteSize⟩
  match Label.ofSpan? source span with
  | some l => labelled color l f.kind.message f.detail
  | none => [title color]

def text (color : Bool) (f : Failure) : String := String.join ((rows color f).map (· ++ "\n"))

end Formula.Report
