namespace Formula

def byteSize : List Char → Nat
  | [] => 0
  | c :: cs => c.utf8Size + byteSize cs

def utf8Bytes : List Char → List UInt8
  | [] => []
  | c :: cs => String.utf8EncodeChar c ++ utf8Bytes cs

/-- The text from byte offset `n` on; an offset inside a character counts as the end of it. -/
def dropBytes : Nat → List Char → List Char
  | 0, cs => cs
  | _, [] => []
  | n + 1, c :: cs => dropBytes (n + 1 - c.utf8Size) cs

def takeBytes : Nat → List Char → List Char
  | 0, _ => []
  | _, [] => []
  | n + 1, c :: cs => c :: takeBytes (n + 1 - c.utf8Size) cs

def continuation? (b : UInt8) : Option Nat :=
  let n := b.toNat
  if 128 ≤ n ∧ n < 192 then some (n - 128) else none

/-- The character of a code point that `lo` bounds below, the least one of its encoded length;
surrogates and code points past the last plane are none. -/
def scalar? (lo n : Nat) : Option Char :=
  if lo ≤ n then (if h : n.isValidChar then some (Char.ofNatAux n h) else none) else none

/-- The text that bytes encode, if they are well formed: no overlong form, no surrogate, nothing
cut short. -/
def decodeUtf8 : List UInt8 → Option (List Char)
  | [] => some []
  | a :: rest =>
    let n := a.toNat
    if n < 128 then (decodeUtf8 rest).map (Char.ofNat n :: ·)
    else if n < 192 then none
    else if n < 224 then
      match rest with
      | b :: rest => do
        let x ← continuation? b
        let c ← scalar? 128 ((n - 192) * 64 + x)
        (decodeUtf8 rest).map (c :: ·)
      | _ => none
    else if n < 240 then
      match rest with
      | b :: d :: rest => do
        let x ← continuation? b
        let y ← continuation? d
        let c ← scalar? 2048 (((n - 224) * 64 + x) * 64 + y)
        (decodeUtf8 rest).map (c :: ·)
      | _ => none
    else if n < 248 then
      match rest with
      | b :: d :: e :: rest => do
        let x ← continuation? b
        let y ← continuation? d
        let z ← continuation? e
        let c ← scalar? 65536 ((((n - 240) * 64 + x) * 64 + y) * 64 + z)
        (decodeUtf8 rest).map (c :: ·)
      | _ => none
    else none

end Formula
