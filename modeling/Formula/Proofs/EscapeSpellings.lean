import Formula.Escape
import Formula.Proofs.TokenText

namespace Formula

def WritesDigit (d : Nat) (c : Char) : Prop :=
  d < 16 ∧ (c = Nat.digitChar d ∨ c = (Nat.digitChar d).toUpper)

instance (d : Nat) (c : Char) : Decidable (WritesDigit d c) := inferInstanceAs (Decidable (_ ∧ _))

inductive WritesNumber (radix : Nat) : Nat → List Char → Prop
  | nil : WritesNumber radix 0 []
  | digit {n d : Nat} {c : Char} {cs : List Char} (front : WritesNumber radix n cs) (hd : d < radix)
      (hc : WritesDigit d c) : WritesNumber radix (n * radix + d) (cs ++ [c])

def letterEscapes : List (Char × Char) :=
  [('\x07', 'a'), ('\x08', 'b'), ('\x0c', 'f'), ('\n', 'n'), ('\r', 'r'), ('\t', 't'), ('\x0b', 'v'),
   ('\\', '\\')]

inductive CharSpelling (quote : Char) : Char → List Char → Prop
  | itself {c : Char} (h : c ≠ '\\') : CharSpelling quote c [c]
  | letter {c l : Char} (h : (c, l) ∈ letterEscapes) : CharSpelling quote c ['\\', l]
  | quote : CharSpelling quote quote ['\\', quote]
  | short {c : Char} {cs : List Char} (h : WritesNumber 16 c.toNat cs) (hwidth : cs.length = 4) :
      CharSpelling quote c ('\\' :: 'u' :: cs)
  | long {c : Char} {cs : List Char} (h : WritesNumber 16 c.toNat cs) (hwidth : cs.length = 8) :
      CharSpelling quote c ('\\' :: 'U' :: cs)

inductive ByteSpelling (b : UInt8) : List Char → Prop
  | hexadecimal {cs : List Char} (h : WritesNumber 16 b.toNat cs) (hwidth : cs.length = 2) :
      ByteSpelling b ('\\' :: 'x' :: cs)
  | octal {cs : List Char} (h : WritesNumber 8 b.toNat cs) (hwidth : cs.length = 3) :
      ByteSpelling b ('\\' :: cs)

/-- A character as it may be written between double quotes: on its own, or the bytes of its UTF-8 form. -/
inductive StringSpelling (c : Char) : List Char → Prop
  | char {w : List Char} (h : CharSpelling '"' c w) : StringSpelling c w
  | bytes {ws : List (List Char)} (h : List.Forall₂ ByteSpelling (String.utf8EncodeChar c) ws) :
      StringSpelling c ws.flatten

/-- A character as it may be written between single quotes: on its own, or a byte that is its code point. -/
inductive RuneSpelling (c : Char) : List Char → Prop
  | char {w : List Char} (h : CharSpelling '\'' c w) : RuneSpelling c w
  | byte {b : UInt8} {w : List Char} (h : ByteSpelling b w) (hb : b.toNat = c.toNat) : RuneSpelling c w

section Utf8

theorem byte_value {n : Nat} (h : n < 256) : (UInt8.ofNat n).toNat = n := UInt8.toNat_ofNat_of_lt' h

theorem continuation_of_lt {n : Nat} (h : n < 64) :
    continuation? (UInt8.ofNat (n + 128)) = some n := by
  rw [continuation?, byte_value (by omega), if_pos (by omega), Nat.add_sub_cancel]

theorem scalar_of_le {lo : Nat} {c : Char} (h : lo ≤ c.toNat) : scalar? lo c.toNat = some c := by
  have hvalid : c.toNat.isValidChar := c.valid
  rw [scalar?, if_pos h, dif_pos hvalid]
  exact congrArg some (Char.ext rfl)

theorem code_point_lt (c : Char) : c.toNat < 1114112 := by
  have hvalid : c.toNat.isValidChar := c.valid
  simp only [Nat.isValidChar] at hvalid
  omega

/-- The bytes of a character are decoded to it. -/
theorem decodeUtf8_char (c : Char) (bytes : List UInt8) :
    decodeUtf8 (String.utf8EncodeChar c ++ bytes) = (decodeUtf8 bytes).map (c :: ·) := by
  obtain ⟨n, hn⟩ : ∃ n, c.toNat = n := ⟨_, rfl⟩
  have hbound : n < 1114112 := hn ▸ code_point_lt c
  have hvalue : c.val.toNat = n := hn
  have hchar : Char.ofNat n = c := by rw [← hn, Char.ofNat_toNat]
  have hscalar (lo : Nat) (h : lo ≤ n) : scalar? lo n = some c := hn ▸ scalar_of_le (hn ▸ h)
  have hlast := continuation_of_lt (n := n % 64) (Nat.mod_lt _ (by decide))
  have hmiddle := continuation_of_lt (n := n / 64 % 64) (Nat.mod_lt _ (by decide))
  have hupper := continuation_of_lt (n := n / 4096 % 64) (Nat.mod_lt _ (by decide))
  -- One, two, three and four bytes: the lead byte says how many, and the rest give six bits each.
  simp only [String.utf8EncodeChar, hvalue]
  split_ifs with h1 h2 h3
  · have hlead := byte_value (n := n) (by omega)
    rw [List.singleton_append, decodeUtf8.eq_def]
    simp only [hlead, if_pos (show n < 128 by omega), hchar]
  · have hbits : n / 64 % 32 = n / 64 := by omega
    have hlead := byte_value (n := n / 64 + 192) (by omega)
    have hsum : (n / 64 + 192 - 192) * 64 + n % 64 = n := by omega
    rw [List.cons_append, List.singleton_append, decodeUtf8.eq_def]
    simp only [hbits, hlead, if_neg (show ¬ n / 64 + 192 < 128 by omega),
      if_neg (show ¬ n / 64 + 192 < 192 by omega), if_pos (show n / 64 + 192 < 224 by omega),
      hlast, Option.bind_eq_bind, Option.bind_some, hsum, hscalar 128 (by omega)]
  · have hbits : n / 4096 % 16 = n / 4096 := by omega
    have hlead := byte_value (n := n / 4096 + 224) (by omega)
    have hsum : ((n / 4096 + 224 - 224) * 64 + n / 64 % 64) * 64 + n % 64 = n := by omega
    rw [List.cons_append, List.cons_append, List.singleton_append, decodeUtf8.eq_def]
    simp only [hbits, hlead, if_neg (show ¬ n / 4096 + 224 < 128 by omega),
      if_neg (show ¬ n / 4096 + 224 < 192 by omega), if_neg (show ¬ n / 4096 + 224 < 224 by omega),
      if_pos (show n / 4096 + 224 < 240 by omega), hmiddle, hlast, Option.bind_eq_bind,
      Option.bind_some, hsum, hscalar 2048 (by omega)]
  · have hbits : n / 262144 % 8 = n / 262144 := by omega
    have hlead := byte_value (n := n / 262144 + 240) (by omega)
    have hsum : (((n / 262144 + 240 - 240) * 64 + n / 4096 % 64) * 64 + n / 64 % 64) * 64 + n % 64 =
        n := by omega
    rw [List.cons_append, List.cons_append, List.cons_append, List.singleton_append,
      decodeUtf8.eq_def]
    simp only [hbits, hlead, if_neg (show ¬ n / 262144 + 240 < 128 by omega),
      if_neg (show ¬ n / 262144 + 240 < 192 by omega), if_neg (show ¬ n / 262144 + 240 < 224 by omega),
      if_neg (show ¬ n / 262144 + 240 < 240 by omega), if_pos (show n / 262144 + 240 < 248 by omega),
      hupper, hmiddle, hlast, Option.bind_eq_bind, Option.bind_some, hsum, hscalar 65536 (by omega)]

theorem decodeUtf8_text (cs : List Char) :
    decodeUtf8 (cs.flatMap String.utf8EncodeChar) = some cs := by
  induction cs with
  | nil => rfl
  | cons c cs ih => rw [List.flatMap_cons, decodeUtf8_char, ih, Option.map_some]

end Utf8

section Digits

variable {radix n d : Nat} {c : Char} {cs : List Char}

theorem digitValue_of_writes (h : WritesDigit d c) : digitValue c = d := by
  have hall : ∀ d < 16, digitValue (Nat.digitChar d) = d ∧ digitValue (Nat.digitChar d).toUpper = d := by
    decide +kernel
  obtain ⟨hd, rfl | rfl⟩ := h
  · exact (hall d hd).1
  · exact (hall d hd).2

/-- Digits that write a number are digits of the radix and have that value. -/
theorem radixValue_of_writes (h : WritesNumber radix n cs) :
    (∀ c ∈ cs, digitValue c < radix) ∧ radixValue radix cs = n := by
  induction h with
  | nil => exact ⟨List.forall_mem_nil _, rfl⟩
  | @digit n d c cs _ hd hc ih =>
    have hvalue := digitValue_of_writes hc
    constructor
    · intro c' hc'
      rcases List.mem_append.mp hc' with hfront | hlast
      · exact ih.1 c' hfront
      · rw [List.mem_singleton.mp hlast, hvalue]
        exact hd
    · rw [radixValue, List.foldl_append, ← radixValue, ih.2, List.foldl_cons, List.foldl_nil, hvalue]

end Digits

open Escape

variable {quote : Char}

/-- A text whose first part is decoded on its own is decoded part by part. -/
theorem pieces_append {position : Nat} {state : State} {as : List Char} {ps : List Piece} (bs : List Char)
    (h : pieces quote position state as = .ok ps) :
    pieces quote position state (as ++ bs) =
      (pieces quote (position + byteSize as) .plain bs).map (ps ++ ·) := by
  induction as generalizing position state ps with
  | nil =>
    cases state with
    | opened | digits => cases h
    | plain =>
      obtain rfl := Except.ok.inj h
      cases hbs : pieces quote position .plain bs <;> simp [byteSize, hbs, Except.map]
  | cons c as ih =>
    rw [pieces] at h
    rw [List.cons_append, pieces]
    cases hstep : step quote position state c with
    | error e =>
      rw [hstep] at h
      cases h
    | ok result =>
      obtain ⟨next, piece⟩ := result
      rw [hstep] at h
      dsimp only at h ⊢
      cases hrest : pieces quote (position + c.utf8Size) next as with
      | error e =>
        rw [hrest] at h
        cases h
      | ok ps' =>
        rw [hrest] at h
        obtain rfl := Except.ok.inj h
        rw [ih hrest, byteSize, Nat.add_assoc]
        cases pieces quote (position + (c.utf8Size + byteSize as)) .plain bs <;>
          simp [Except.map]

/-- The digits of an escape are read to the last one, and then stand for their value. -/
theorem pieces_digits {position start got value : Nat} {form : Escape.Form} {cs : List Char} (hne : cs ≠ [])
    (hdigits : ∀ c ∈ cs, digitValue c < form.radix) (hwidth : got + cs.length = form.width) :
    pieces quote position (.digits start form got value) cs =
      (finish start form (cs.foldl (fun n c => n * form.radix + digitValue c) value)).map ([·]) := by
  induction cs generalizing position got value with
  | nil => exact absurd rfl hne
  | cons c cs ih =>
    obtain ⟨hc, hcs⟩ := List.forall_mem_cons.mp hdigits
    rw [pieces, step, if_pos hc]
    rw [List.length_cons] at hwidth
    by_cases hlast : cs = []
    · subst hlast
      simp only [List.length_nil, Nat.zero_add] at hwidth
      simp only [if_pos hwidth, List.foldl_cons, List.foldl_nil]
      cases finish start form (value * form.radix + digitValue c) <;> rfl
    · have hmore := List.length_pos_iff.mpr hlast
      simp only [if_neg (show ¬ got + 1 = form.width by omega), List.foldl_cons]
      rw [ih hlast hcs (by omega)]
      cases finish start form (cs.foldl (fun n c => n * form.radix + digitValue c)
        (value * form.radix + digitValue c)) <;> rfl

/-- An escape by digits stands for their value. -/
theorem pieces_opened (form : Escape.Form) {position first : Nat} {mark : Char} {cs : List Char}
    (hletter : letter? mark = none)
    (hmark : ∀ start, digits? start mark = some (.digits start form 0 first))
    (hdigits : ∀ c ∈ cs, digitValue c < form.radix) (hwidth : cs.length = form.width) :
    pieces quote position .plain ('\\' :: mark :: cs) =
      (finish position form (cs.foldl (fun n c => n * form.radix + digitValue c) first)).map ([·]) := by
  have hne : cs ≠ [] := by
    rintro rfl
    cases form <;> cases hwidth
  rw [pieces, step, if_pos rfl]
  dsimp only
  rw [pieces, step, hletter, hmark]
  dsimp only
  rw [pieces_digits hne hdigits (by rw [hwidth, Nat.zero_add])]
  cases finish position form (cs.foldl (fun n c => n * form.radix + digitValue c) first) <;> rfl

/-- The escapes that a letter opens stand for the number that their digits write. -/
theorem pieces_number (form : Escape.Form) {position value : Nat} {mark : Char} {cs : List Char}
    (hletter : letter? mark = none)
    (hmark : ∀ start, digits? start mark = some (.digits start form 0 0))
    (h : WritesNumber form.radix value cs) (hwidth : cs.length = form.width) :
    pieces quote position .plain ('\\' :: mark :: cs) = (finish position form value).map ([·]) := by
  obtain ⟨hdigits, hvalue⟩ := radixValue_of_writes h
  rw [pieces_opened form hletter hmark hdigits hwidth, ← hvalue, radixValue]

theorem letter_none_iff {c : Char} :
    letter? c = none ↔ c ∉ ['a', 'b', 'f', 'n', 'r', 't', 'v', '\\'] := by
  rw [letter?.eq_def]
  split <;> simp_all

/-- The digit that opens an octal escape opens no other one. -/
theorem octal_opens {c : Char} (h : digitValue c < 8) : letter? c = none ∧
    ∀ start, digits? start c = some (.digits start .octalByte 0 (digitValue c)) := by
  have hletters : ['a', 'b', 'f', 'n', 'r', 't', 'v', '\\'].all (fun l => !decide (digitValue l < 8)) =
      true := by decide +kernel
  have hmarks : ['x', 'u', 'U'].all (fun l => !decide (digitValue l < 8)) = true := by decide +kernel
  refine ⟨letter_none_iff.mpr (Lexeme.not_mem_of_kind hletters (decide_eq_true h)), fun start => ?_⟩
  have hmark := Lexeme.not_mem_of_kind hmarks (decide_eq_true h)
  simp only [List.mem_cons, List.not_mem_nil, or_false, not_or] at hmark
  rw [digits?, if_neg hmark.1, if_neg hmark.2.1, if_neg hmark.2.2, if_pos h]

theorem pieces_char {position : Nat} {c : Char} {w : List Char} (hquote : quote = '"' ∨ quote = '\'')
    (h : CharSpelling quote c w) : pieces quote position .plain w = .ok [.char c] := by
  have hpoint : scalar? 0 c.toNat = some c := scalar_of_le (Nat.zero_le _)
  cases h with
  | itself hslash => simp [pieces, step, hslash, Except.map]
  | letter hmem =>
    have hall : ∀ entry ∈ letterEscapes, letter? entry.2 = some entry.1 := by decide
    simp [pieces, step, hall _ hmem, Except.map]
  | quote => rcases hquote with rfl | rfl <;> rfl
  | short hnumber hwidth =>
    rw [pieces_number .shortPoint rfl (fun _ => rfl) hnumber hwidth, finish, hpoint]
    rfl
  | long hnumber hwidth =>
    rw [pieces_number .longPoint rfl (fun _ => rfl) hnumber hwidth, finish, hpoint]
    rfl

theorem pieces_byte {position : Nat} {b : UInt8} {w : List Char} (h : ByteSpelling b w) :
    pieces quote position .plain w = .ok [.byte b] := by
  have hbyte : UInt8.ofNat b.toNat = b := UInt8.ofNat_toNat
  cases h with
  | hexadecimal hnumber hwidth =>
    rw [pieces_number .hexByte rfl (fun _ => rfl) hnumber hwidth, finish, hbyte]
    rfl
  | @octal cs hnumber hwidth =>
    obtain ⟨hdigits, hvalue⟩ := radixValue_of_writes hnumber
    cases cs with
    | nil => cases hwidth
    | cons d cs =>
      obtain ⟨hd, hcs⟩ := List.forall_mem_cons.mp hdigits
      obtain ⟨hletter, hmark⟩ := octal_opens hd
      have hrest : cs.foldl (fun n c => n * 8 + digitValue c) (digitValue d) = b.toNat := by
        rw [← hvalue, radixValue, List.foldl_cons, Nat.zero_mul, Nat.zero_add]
      rw [pieces_opened .octalByte hletter hmark hcs (Nat.succ.inj hwidth), Escape.Form.radix, hrest,
        finish, if_neg (Nat.not_lt.mpr (Nat.le_of_lt_succ b.toNat_lt)), hbyte]
      rfl

theorem pieces_bytes {position : Nat} {bs : List UInt8} {ws : List (List Char)}
    (h : List.Forall₂ ByteSpelling bs ws) :
    pieces quote position .plain ws.flatten = .ok (bs.map .byte) := by
  induction h generalizing position with
  | nil => rfl
  | cons hb _ ih =>
    rw [List.flatten_cons, pieces_append _ (pieces_byte hb), ih]
    rfl

/-- However a character of a string is written, its pieces have the bytes of its UTF-8 form. -/
theorem pieces_string_char {c : Char} {w : List Char} (h : StringSpelling c w) :
    ∃ ps, (∀ position, pieces '"' position .plain w = .ok ps) ∧
      ps.flatMap Piece.bytes = String.utf8EncodeChar c := by
  cases h with
  | char h => exact ⟨[.char c], fun _ => pieces_char (.inl rfl) h, List.append_nil _⟩
  | bytes h =>
    refine ⟨_, fun _ => pieces_bytes h, ?_⟩
    rw [List.flatMap_map]
    exact List.flatMap_singleton' _

theorem pieces_string {cs : List Char} {ws : List (List Char)} (h : List.Forall₂ StringSpelling cs ws) :
    ∃ ps, (∀ position, pieces '"' position .plain ws.flatten = .ok ps) ∧
      ps.flatMap Piece.bytes = cs.flatMap String.utf8EncodeChar := by
  induction h with
  | nil => exact ⟨[], fun _ => rfl, rfl⟩
  | cons hc _ ih =>
    obtain ⟨ps, hps, hbytes⟩ := pieces_string_char hc
    obtain ⟨ps', hps', hbytes'⟩ := ih
    refine ⟨ps ++ ps', fun position => ?_, ?_⟩
    · rw [List.flatten_cons, pieces_append _ (hps position), hps']
      rfl
    · rw [List.flatMap_append, hbytes, hbytes', List.flatMap_cons]

theorem runeSpelling_decoded {c : Char} {w : List Char} (h : RuneSpelling c w) : decodeRune w = .ok c := by
  cases h with
  | char h =>
    rw [decodeRune, pieces_char (.inr rfl) h]
    rfl
  | byte h hb =>
    rw [decodeRune, pieces_byte h]
    exact congrArg Except.ok (by rw [Piece.toChar, hb, Char.ofNat_toNat])

theorem stringSpelling_decoded {cs : List Char} {ws : List (List Char)}
    (h : List.Forall₂ StringSpelling cs ws) : decodeString ws.flatten = .ok cs := by
  obtain ⟨ps, hps, hbytes⟩ := pieces_string h
  rw [decodeString, hps]
  simp only [hbytes, decodeUtf8_text]

/-- Every way to write a string between double quotes decodes to the string, and every way to write a
character between single quotes to the character. -/
theorem spellings_decode :
    (∀ cs ws, List.Forall₂ StringSpelling cs ws → decodeString ws.flatten = .ok cs) ∧
      ∀ c w, RuneSpelling c w → decodeRune w = .ok c :=
  ⟨fun _ _ => stringSpelling_decoded, fun _ _ => runeSpelling_decoded⟩

/-- A character byte by byte, in hexadecimal and octal digits, then one as a code point and an escaped quote;
and a rune that is a byte. -/
theorem spellings_decode_mixed :
    List.Forall₂ StringSpelling ['日', 'é', '"']
        [['\\', 'x', 'e', '6', '\\', '2', '2', '7', '\\', 'x', 'A', '5'],
          ['\\', 'u', '0', '0', 'E', '9'], ['\\', '"']] ∧
      decodeString ['\\', 'x', 'e', '6', '\\', '2', '2', '7', '\\', 'x', 'A', '5',
        '\\', 'u', '0', '0', 'E', '9', '\\', '"'] = .ok ['日', 'é', '"'] ∧
      RuneSpelling 'ÿ' ['\\', '3', '7', '7'] ∧ decodeRune ['\\', '3', '7', '7'] = .ok 'ÿ' := by
  have hfirst : WritesNumber 16 230 ['e', '6'] :=
    .digit (d := 6) (.digit (d := 14) .nil (by decide) (by decide)) (by decide) (by decide)
  have hmiddle : WritesNumber 8 151 ['2', '2', '7'] :=
    .digit (d := 7) (.digit (d := 2) (.digit (d := 2) .nil (by decide) (by decide)) (by decide) (by decide))
      (by decide) (by decide)
  have hlast : WritesNumber 16 165 ['A', '5'] :=
    .digit (d := 5) (.digit (d := 10) .nil (by decide) (by decide)) (by decide) (by decide)
  have hpoint : WritesNumber 16 233 ['0', '0', 'E', '9'] :=
    .digit (d := 9) (.digit (d := 14) (.digit (d := 0) (.digit (d := 0) .nil (by decide) (by decide))
      (by decide) (by decide)) (by decide) (by decide)) (by decide) (by decide)
  have hrune : WritesNumber 8 255 ['3', '7', '7'] :=
    .digit (d := 7) (.digit (d := 7) (.digit (d := 3) .nil (by decide) (by decide)) (by decide) (by decide))
      (by decide) (by decide)
  have hutf8 : String.utf8EncodeChar '日' = [230, 151, 165] := by decide
  have hbytes : List.Forall₂ ByteSpelling (String.utf8EncodeChar '日')
      [['\\', 'x', 'e', '6'], ['\\', '2', '2', '7'], ['\\', 'x', 'A', '5']] := by
    rw [hutf8]
    exact .cons (.hexadecimal hfirst rfl) (.cons (.octal hmiddle rfl) (.cons (.hexadecimal hlast rfl) .nil))
  have hstring : List.Forall₂ StringSpelling ['日', 'é', '"']
      [['\\', 'x', 'e', '6', '\\', '2', '2', '7', '\\', 'x', 'A', '5'],
        ['\\', 'u', '0', '0', 'E', '9'], ['\\', '"']] :=
    .cons (.bytes hbytes) (.cons (.char (.short hpoint rfl)) (.cons (.char .quote) .nil))
  have hsingle : RuneSpelling 'ÿ' ['\\', '3', '7', '7'] := .byte (b := 255) (.octal hrune rfl) rfl
  exact ⟨hstring, spellings_decode.1 _ _ hstring, hsingle, spellings_decode.2 _ _ hsingle⟩

end Formula
