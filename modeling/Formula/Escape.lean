import Formula.Numeral
import Formula.Text.Utf8

/-!
What is written between quotes. A text is decoded one character at a time: a backslash opens an
escape, an escape by digits ends with its last digit, and byte escapes are put together as UTF-8 at
the end.
-/

namespace Formula

/-- Why a quoted text has no value. Positions are byte offsets of the backslash. -/
inductive EscapeError
  | invalidEscape (position : Nat) (escape : List Char)
  | incompleteEscape (position expected got : Nat)
  | octalOutOfRange (position value : Nat)
  | invalidUnicodeScalar (position value : Nat)
  | invalidUtf8
  | notSingleChar (count : Nat)
deriving DecidableEq

def EscapeError.message : EscapeError → String
  | invalidEscape p escape =>
    "invalid escape sequence '" ++ String.ofList escape ++ "' at position " ++ Nat.repr p
  | incompleteEscape p expected got =>
    "incomplete escape at position " ++ Nat.repr p ++ ": expected " ++ Nat.repr expected ++
      " digits, got " ++ Nat.repr got
  | octalOutOfRange p value =>
    "octal escape value " ++ Nat.repr value ++ " > 255 at position " ++ Nat.repr p
  | invalidUnicodeScalar p value =>
    "invalid Unicode scalar value U+" ++ String.ofList ((Nat.toDigits 16 value).map Char.toUpper) ++
      " at position " ++ Nat.repr p
  | invalidUtf8 => "escaped bytes are not valid UTF-8"
  | notSingleChar count =>
    "character literal holds " ++ Nat.repr count ++ " characters, expected 1"

namespace Escape

inductive Piece
  | char (c : Char)
  | byte (b : UInt8)
deriving DecidableEq

def Piece.bytes : Piece → List UInt8
  | char c => String.utf8EncodeChar c
  | byte b => [b]

/-- The character of a piece, a byte standing for the code point of its value. -/
def Piece.toChar : Piece → Char
  | char c => c
  | byte b => Char.ofNat b.toNat

inductive Form
  | hexByte
  | octalByte
  | shortPoint
  | longPoint
deriving DecidableEq

def Form.radix : Form → Nat
  | octalByte => 8
  | _ => 16

def Form.width : Form → Nat
  | hexByte | octalByte => 2
  | shortPoint => 4
  | longPoint => 8

inductive State
  | plain
  | opened (position : Nat)
  | digits (position : Nat) (form : Form) (got value : Nat)
deriving DecidableEq

def finish (position : Nat) (form : Form) (value : Nat) : Except EscapeError Piece :=
  match form with
  | .hexByte => .ok (.byte (UInt8.ofNat value))
  | .octalByte =>
    if 255 < value then .error (.octalOutOfRange position value)
    else .ok (.byte (UInt8.ofNat value))
  | .shortPoint | .longPoint =>
    match scalar? 0 value with
    | some c => .ok (.char c)
    | none => .error (.invalidUnicodeScalar position value)

def letter? : Char → Option Char
  | 'a' => some '\x07'
  | 'b' => some '\x08'
  | 'f' => some '\x0c'
  | 'n' => some '\n'
  | 'r' => some '\r'
  | 't' => some '\t'
  | 'v' => some '\x0b'
  | '\\' => some '\\'
  | _ => none

def digits? (position : Nat) (c : Char) : Option State :=
  if c = 'x' then some (.digits position .hexByte 0 0)
  else if c = 'u' then some (.digits position .shortPoint 0 0)
  else if c = 'U' then some (.digits position .longPoint 0 0)
  else if digitValue c < 8 then some (.digits position .octalByte 0 (digitValue c))
  else none

/-- Reads the character `c` at `position`: the next state, and a piece if one is complete. -/
def step (quote : Char) (position : Nat) (state : State) (c : Char) :
    Except EscapeError (State × Option Piece) :=
  match state with
  | .plain => .ok (if c = '\\' then (.opened position, none) else (.plain, some (.char c)))
  | .opened start =>
    match letter? c, digits? start c with
    | some d, _ => .ok (.plain, some (.char d))
    | none, some next => .ok (next, none)
    | none, none =>
      if c = quote then .ok (.plain, some (.char c))
      else .error (.invalidEscape start ['\\', c])
  | .digits start form got value =>
    if digitValue c < form.radix then
      let value := value * form.radix + digitValue c
      if got + 1 = form.width then (finish start form value).map fun piece => (.plain, some piece)
      else .ok (.digits start form (got + 1) value, none)
    else .error (.incompleteEscape start form.width got)

def pieces (quote : Char) : Nat → State → List Char → Except EscapeError (List Piece)
  | _, .plain, [] => .ok []
  | _, .opened start, [] => .error (.invalidEscape start ['\\'])
  | _, .digits start form got _, [] => .error (.incompleteEscape start form.width got)
  | position, state, c :: cs =>
    match step quote position state c with
    | .error e => .error e
    | .ok (next, piece) =>
      (pieces quote (position + c.utf8Size) next cs).map (piece.toList ++ ·)

end Escape

open Escape

def decodeString (cs : List Char) : Except EscapeError (List Char) :=
  match pieces '"' 0 .plain cs with
  | .error e => .error e
  | .ok ps =>
    match decodeUtf8 (ps.flatMap Piece.bytes) with
    | some text => .ok text
    | none => .error .invalidUtf8

def decodeRune (cs : List Char) : Except EscapeError Char :=
  match pieces '\'' 0 .plain cs with
  | .error e => .error e
  | .ok [p] => .ok p.toChar
  | .ok ps => .error (.notSingleChar ps.length)

def decodeRaw (cs : List Char) : List Char := cs.filter (· ≠ '\r')

end Formula
