import Formula.Expr
import Formula.Unicode.Graphic

namespace Formula

inductive Listed
  | word (text : String)
  | tuple (name : String) (parts : List Listed)
  | record (name : String) (fields : List (String × Listed))
  | row (parts : List Listed)

namespace Listed

def part : List String → List String
  | [] => []
  | [line] => ["    " ++ line ++ ","]
  | line :: lines => ("    " ++ line) :: part lines

def onFirst (text : String) : List String → List String
  | [] => [text]
  | line :: lines => (text ++ line) :: lines

mutual

def lines : Listed → List String
  | word text => [text]
  | tuple name parts => (name ++ "(") :: (partLines parts ++ [")"])
  | record name fields => (name ++ " \x7b") :: (fieldLines fields ++ ["\x7d"])
  | row [] => ["[]"]
  | row parts => "[" :: (partLines parts ++ ["]"])

def partLines : List Listed → List String
  | [] => []
  | p :: ps => part p.lines ++ partLines ps

def fieldLines : List (String × Listed) → List String
  | [] => []
  | (name, p) :: rest => part (onFirst (name ++ ": ") p.lines) ++ fieldLines rest

end

def quotedChar (c : Char) : List Char :=
  if c = '\x00' then ['\\', '0']
  else if c = '\t' then ['\\', 't']
  else if c = '\r' then ['\\', 'r']
  else if c = '\n' then ['\\', 'n']
  else if c = '\\' ∨ c = '\x22' then ['\\', c]
  else if Unicode.isExtending c || !Unicode.isPrintable c then
    "\\u\x7b".toList ++ Nat.toDigits 16 c.toNat ++ ['\x7d']
  else [c]

def quoted (s : String) : Listed :=
  word (String.ofList ('\x22' :: s.toList.flatMap quotedChar ++ ['\x22']))

def ofLiteral : Literal → Listed
  | .int n => tuple "Int" [word (Int.repr n.toInt)]
  | .float x => tuple "Float" [word (String.ofList x.listing)]
  | .str s => tuple "Str" [quoted s]
  | .bool b => tuple "Bool" [word (if b then "true" else "false")]
  | .err message => tuple "Err" [quoted message]

def ofSpan (s : Span) : Listed :=
  tuple "Span" [word (Nat.repr s.start ++ ".." ++ Nat.repr s.stop)]

def unaryName : UnaryOp → String
  | .neg => "Neg" | .not => "Not"

def arithName : ArithOp → String
  | .add => "Add" | .sub => "Sub" | .mul => "Mul" | .div => "Div"

def compareName : CompareOp → String
  | .eq => "Eq" | .ne => "Neq" | .lt => "Lt" | .le => "Le" | .gt => "Gt" | .ge => "Ge"

def logicName : LogicOp → String
  | .and => "And" | .or => "Or"

def operation (name op : String) (left right : Listed) : Listed :=
  record name [("op", word op), ("left", left), ("right", right)]

def node (span : Span) (what : Listed) : Listed := tuple "Expr" [ofSpan span, what]

mutual

def ofExpr : Expr → Listed
  | .constant s v => node s (tuple "Constant" [ofLiteral v])
  | .ident s name => node s (tuple "Ident" [quoted name])
  | .unary s op e => node s (record "Unary" [("op", word (unaryName op)), ("expr", ofExpr e)])
  | .arith s op l r => node s (operation "Binary" (arithName op) (ofExpr l) (ofExpr r))
  | .compare s op l r => node s (operation "Comparison" (compareName op) (ofExpr l) (ofExpr r))
  | .logic s op l r => node s (operation "Boolean" (logicName op) (ofExpr l) (ofExpr r))
  | .index s b p => node s (record "Index" [("value", ofExpr b), ("index", ofExpr p)])
  | .call s name args =>
    node s (record "Call" [("name", quoted name), ("args", row (ofExprs args))])
  | .composite s elements => node s (tuple "Composite" [row (ofExprs elements)])
  | .group s e => node s (tuple "Grouped" [ofExpr e])

def ofExprs : List Expr → List Listed
  | [] => []
  | e :: es => ofExpr e :: ofExprs es

end

end Listed

end Formula
