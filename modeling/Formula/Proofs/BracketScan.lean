import Formula.Proofs.BracketTokens
import Formula.Proofs.TokenText

/-!
The scan of brackets against the tokens. Both cut a text at quotes and comments, each in its own way.
They part at two kinds of comments only: a line comment that a carriage return ends, and an opening
mark of a block comment that nothing closes.
-/

namespace Formula.Nesting

open Lexeme

variable {mode : Mode} {offset : Nat} {c : Char} {cs rest : List Char}

theorem length_brackets_le (mode : Mode) (offset : Nat) (cs : List Char) :
    (brackets mode offset cs).length ≤ cs.length := by
  induction cs generalizing mode offset with
  | nil => exact Nat.le_refl 0
  | cons c cs ih =>
    have hle := ih (after c cs mode) (offset + c.utf8Size)
    rw [brackets]
    split_ifs <;> simp only [List.length_cons] <;> omega

theorem brackets_skip (h : mode ≠ .code) :
    brackets mode offset (c :: cs) = brackets (after c cs mode) (offset + c.utf8Size) cs := by
  rw [brackets, if_neg (fun hc => h hc.1), if_neg (fun hc => h hc.1)]

theorem brackets_quiet_cons (h : IsQuiet c) :
    brackets .code offset (c :: cs) = brackets .code (offset + c.utf8Size) cs := by
  simp only [IsQuiet, loud, List.mem_cons, List.not_mem_nil, or_false, not_or] at h
  simp [brackets, opens, closes, after, isQuote, h]

theorem brackets_quiet {text : List Char} (h : ∀ c ∈ text, IsQuiet c) :
    brackets .code offset (text ++ rest) = brackets .code (offset + byteSize text) rest := by
  induction text generalizing offset with
  | nil => rfl
  | cons c text ih =>
    obtain ⟨hc, htext⟩ := List.forall_mem_cons.mp h
    rw [List.cons_append, brackets_quiet_cons hc, ih htext, byteSize, Nat.add_assoc]

theorem brackets_lineComment_start :
    brackets .code offset ('/' :: '/' :: cs) = brackets .lineComment (offset + 2) cs := rfl

theorem brackets_lineComment {text : List Char} (h : '\n' ∉ text) :
    brackets .lineComment offset (text ++ rest) =
      brackets .lineComment (offset + byteSize text) rest := by
  induction text generalizing offset with
  | nil => rfl
  | cons c text ih =>
    simp only [List.mem_cons, not_or] at h
    have hafter : after c (text ++ rest) .lineComment = .lineComment := if_neg (Ne.symm h.1)
    rw [List.cons_append, brackets_skip (by decide), hafter, ih h.2, byteSize, Nat.add_assoc]

theorem brackets_line_feed :
    brackets .lineComment offset ('\n' :: cs) = brackets .code offset ('\n' :: cs) := rfl

theorem brackets_blockComment_start :
    brackets .code offset ('/' :: '*' :: cs) = brackets .blockComment (offset + 2) cs := rfl

theorem after_blockComment {c : Char} (hnot : ∀ tail, c = '*' → cs = '/' :: tail → False) :
    after c cs .blockComment = .blockComment := by
  refine if_neg fun hc => ?_
  obtain ⟨tail, rfl⟩ := List.head?_eq_some_iff.mp hc.2
  exact hnot tail hc.1 rfl

theorem brackets_blockComment {text : List Char} (h : closeComment cs = some (text, rest)) :
    brackets .blockComment offset cs = brackets .code (offset + byteSize text) rest := by
  fun_induction closeComment cs generalizing text rest offset with
  | case1 cs =>
    obtain ⟨rfl, rfl⟩ := Prod.mk.inj (Option.some.inj h)
    rfl
  | case2 c cs hnot ih =>
    obtain ⟨⟨text', rest'⟩, hclose, he⟩ := Option.map_eq_some_iff.mp h
    obtain ⟨rfl, rfl⟩ := Prod.mk.inj he
    rw [brackets_skip (by decide), after_blockComment hnot, ih hclose, byteSize, Nat.add_assoc]
  | case3 => cases h

theorem brackets_unclosed (h : closeComment cs = none) : brackets .blockComment offset cs = [] := by
  fun_induction closeComment cs generalizing offset with
  | case1 cs => cases h
  | case2 c cs hnot ih =>
    rw [brackets_skip (by decide), after_blockComment hnot, ih (Option.map_eq_none_iff.mp h)]
  | case3 => rfl

def modeOf (quote : Char) : QuoteState → Mode
  | .plain | .digits _ _ => .quoted quote
  | .escaped => .escaped quote

def HasRadix : QuoteState → Prop
  | .digits radix _ => radix ≤ 16
  | _ => True

theorem not_digit {quote d : Char} (hq : quote = '"' ∨ quote = '\x27') {radix : Nat}
    (hr : radix ≤ 16) (hd : digitValue d < radix) : d ≠ quote ∧ d ≠ '\\' := by
  have hquiet := quiet_of_digitValue (Nat.lt_of_lt_of_le hd hr)
  have hslash : ¬ digitValue '\\' < 16 := by decide
  refine ⟨?_, fun h => hslash (h ▸ Nat.lt_of_lt_of_le hd hr)⟩
  rintro rfl
  rcases hq with rfl | rfl <;> exact absurd hquiet (by decide)

/-- A character of a quoted literal that does not close it leaves the scan in the literal. -/
theorem after_quoteStep {quote : Char} (hq : quote = '"' ∨ quote = '\x27')
    {state next : QuoteState} (hr : HasRadix state) (h : QuoteStep quote state c next)
    (cs : List Char) : after c cs (modeOf quote state) = modeOf quote next ∧ HasRadix next := by
  have hraw : quote ≠ '\x60' := by rcases hq with rfl | rfl <;> decide
  cases h with
  | char hne hb => simp [after, modeOf, hne, hb, HasRadix]
  | backslash hne => simp [after, modeOf, hne, hraw, HasRadix]
  | escape => exact ⟨rfl, trivial⟩
  | escapeDigits hradix => exact ⟨rfl, hradix⟩
  | digit hd =>
    obtain ⟨hne, hb⟩ := not_digit hq hr hd
    exact ⟨by simp [after, modeOf, hne, hb], hr⟩
  | lastDigit hd =>
    obtain ⟨hne, hb⟩ := not_digit hq hr hd
    exact ⟨by simp [after, modeOf, hne, hb], trivial⟩

theorem modeOf_ne_code (quote : Char) (state : QuoteState) : modeOf quote state ≠ .code := by
  cases state <;> simp [modeOf]

/-- The scan leaves a quoted literal where its reader does. -/
theorem brackets_closeQuote {quote : Char} (hq : quote = '"' ∨ quote = '\x27')
    {state : QuoteState} (hr : HasRadix state) {n : Nat} {body : List Char}
    (h : closeQuote quote state cs = some (n, body, rest)) :
    brackets (modeOf quote state) offset cs = brackets .code (offset + byteSize body + 1) rest := by
  induction cs generalizing offset state n body with
  | nil => simp [closeQuote] at h
  | cons c cs ih =>
    -- The character either closes the literal or takes its reader a step, and the scan with it.
    rw [brackets_skip (modeOf_ne_code quote state)]
    rcases closeQuote_cons h with ⟨rfl, rfl, rfl, rfl⟩ | ⟨next, m, body', hstep, rfl, hrest⟩
    · have hafter : after c rest (modeOf c .plain) = .code := if_pos rfl
      have hsize : c.utf8Size = 1 := by rcases hq with rfl | rfl <;> decide
      rw [hafter, hsize, byteSize, Nat.add_zero]
    · obtain ⟨hafter, hnext⟩ := after_quoteStep hq hr hstep cs
      rw [hafter, ih hnext hrest, byteSize]
      simp only [Nat.add_assoc]

theorem brackets_closeRaw {body : List Char} (h : closeRaw cs = some (body, rest)) :
    brackets (.quoted '\x60') offset cs = brackets .code (offset + byteSize body + 1) rest := by
  induction cs generalizing offset body with
  | nil => simp [closeRaw] at h
  | cons c cs ih =>
    rw [brackets_skip (by decide)]
    rcases closeRaw_cons h with ⟨rfl, rfl, rfl⟩ | ⟨body', hc, rfl, hrest⟩
    · rfl
    · have hafter : after c cs (.quoted '\x60') = .quoted '\x60' := by simp [after, hc]
      rw [hafter, ih hrest, byteSize]
      simp only [Nat.add_assoc]

theorem byteSize_quoted {quote : Char} (h : quote.utf8Size = 1) (body : List Char) :
    byteSize (quote :: body ++ [quote]) = 1 + (byteSize body + 1) := by
  simp only [List.cons_append, byteSize, byteSize_append, h]

/-- No bracket of a quoted literal counts. -/
theorem brackets_quoted {a : Atom} (h : quoted? cs = some (a, rest)) :
    brackets .code offset cs = brackets .code (offset + byteSize a.text) rest := by
  have hplain : HasRadix .plain := trivial
  simp only [quoted?] at h
  split at h
  · next cs =>
    obtain ⟨⟨n, body, rest'⟩, hclose, he⟩ := Option.map_eq_some_iff.mp h
    obtain ⟨rfl, rfl⟩ := Prod.mk.inj he
    change brackets (modeOf '"' .plain) (offset + 1) cs = _
    rw [brackets_closeQuote (.inl rfl) hplain hclose, Atom.text, byteSize_quoted rfl]
    simp only [Nat.add_assoc]
  · next cs =>
    split at h
    · next body rest' hclose =>
      obtain ⟨rfl, rfl⟩ := Prod.mk.inj (Option.some.inj h)
      change brackets (modeOf '\x27' .plain) (offset + 1) cs = _
      rw [brackets_closeQuote (.inr rfl) hplain hclose, Atom.text, byteSize_quoted rfl]
      simp only [Nat.add_assoc]
    · cases h
  · next cs =>
    obtain ⟨⟨body, rest'⟩, hclose, he⟩ := Option.map_eq_some_iff.mp h
    obtain ⟨rfl, rfl⟩ := Prod.mk.inj he
    change brackets (.quoted '\x60') (offset + 1) cs = _
    rw [brackets_closeRaw hclose, Atom.text, byteSize_quoted rfl]
    simp only [Nat.add_assoc]
  · cases h

def comment : List Char → List Char × List Char
  | '/' :: '/' :: cs => ('/' :: '/' :: cs.takeWhile (· ≠ '\n'), cs.dropWhile (· ≠ '\n'))
  | cs => (cs, [])

/-- A text starts with a comment that the scan reads on beyond its end: a line comment that a carriage
return ends, other than one before a line feed, or a block comment that nothing closes. -/
def misreads : List Char → Bool
  | '/' :: '/' :: cs => match cs.dropWhile (!endsLine ·) with
    | '\r' :: c :: _ => c ≠ '\n'
    | _ => false
  | '/' :: '*' :: cs => (closeComment cs).isNone
  | _ => false

theorem byteSize_mark {a b : Char} (ha : a.utf8Size = 1) (hb : b.utf8Size = 1) (text : List Char) :
    byteSize (a :: b :: text) = 2 + byteSize text := by
  simp only [byteSize, ha, hb]
  omega

/-- Where a line comment ends that the scan does not misread, the scan is back in code at the next
character. -/
theorem brackets_line_end (hm : misreads ('/' :: '/' :: cs) = false) :
    brackets .lineComment offset (cs.dropWhile (!endsLine ·)) =
      brackets .code offset (cs.dropWhile (!endsLine ·)) := by
  simp only [misreads] at hm
  rcases hd : cs.dropWhile (!endsLine ·) with _ | ⟨c, tail⟩
  · rfl
  · have hend := List.head?_dropWhile_not (!endsLine ·) cs
    rw [hd] at hm hend
    have hc : endsLine c = true := by simpa using hend
    rcases of_decide_eq_true hc with rfl | rfl
    · exact brackets_line_feed
    · rcases tail with _ | ⟨d, tail⟩
      · rfl
      · obtain rfl : d = '\n' := by simpa using hm
        rfl

theorem brackets_trivia {text : List Char} (hm : misreads cs = false)
    (h : trivia? cs = some (text, rest)) :
    brackets .code offset cs = brackets .code (offset + byteSize text) rest := by
  simp only [trivia?] at h
  split at h
  · next cs =>
    obtain ⟨rfl, rfl⟩ := Prod.mk.inj (Option.some.inj h)
    have hline : '\n' ∉ cs.takeWhile (!endsLine ·) := by
      intro hmem
      have hend := List.mem_takeWhile_imp hmem
      simp [endsLine] at hend
    calc
      brackets .code offset ('/' :: '/' :: cs)
        = brackets .lineComment (offset + 2)
            (cs.takeWhile (!endsLine ·) ++ cs.dropWhile (!endsLine ·)) := by
          rw [brackets_lineComment_start, List.takeWhile_append_dropWhile]
      _ = brackets .code (offset + 2 + byteSize (cs.takeWhile (!endsLine ·)))
            (cs.dropWhile (!endsLine ·)) := by rw [brackets_lineComment hline, brackets_line_end hm]
      _ = _ := by rw [byteSize_mark rfl rfl, Nat.add_assoc]
  · next cs =>
    obtain ⟨⟨text', rest'⟩, hclose, he⟩ := Option.map_eq_some_iff.mp h
    obtain ⟨rfl, rfl⟩ := Prod.mk.inj he
    rw [brackets_blockComment_start, brackets_blockComment hclose, byteSize_mark rfl rfl,
      Nat.add_assoc]
  · next c cs _ _ =>
    split_ifs at h with hc
    obtain ⟨rfl, rfl⟩ := Prod.mk.inj (Option.some.inj h)
    have hquiet : ∀ d ∈ [c], IsQuiet d := by
      rcases hc with rfl | rfl | rfl | rfl <;> exact quiet_of_all (by decide)
    exact brackets_quiet hquiet
  · cases h

/-- The scan reads on through a comment that it misreads. -/
theorem brackets_misread (h : misreads cs = true) :
    brackets .code offset cs =
      brackets .code (offset + byteSize (comment cs).1) (comment cs).2 := by
  simp only [misreads] at h
  split at h
  · next cs =>
    have hline : '\n' ∉ cs.takeWhile (· ≠ '\n') := by
      intro hmem
      have hne := List.mem_takeWhile_imp hmem
      simp at hne
    have hresume (n : Nat) : brackets .lineComment n (cs.dropWhile (· ≠ '\n')) =
        brackets .code n (cs.dropWhile (· ≠ '\n')) := by
      rcases hd : cs.dropWhile (· ≠ '\n') with _ | ⟨c, tail⟩
      · rfl
      · have hend := List.head?_dropWhile_not (· ≠ '\n') cs
        rw [hd] at hend
        obtain rfl : c = '\n' := by simpa using hend
        exact brackets_line_feed
    calc
      brackets .code offset ('/' :: '/' :: cs)
        = brackets .lineComment (offset + 2)
            (cs.takeWhile (· ≠ '\n') ++ cs.dropWhile (· ≠ '\n')) := by
          rw [brackets_lineComment_start, List.takeWhile_append_dropWhile]
      _ = brackets .code (offset + 2 + byteSize (cs.takeWhile (· ≠ '\n')))
            (cs.dropWhile (· ≠ '\n')) := by rw [brackets_lineComment hline, hresume]
      _ = _ := by rw [comment, byteSize_mark rfl rfl, Nat.add_assoc]
  · next cs =>
    rw [brackets_blockComment_start, brackets_unclosed (Option.isNone_iff_eq_none.mp h)]
    rfl
  · cases h

theorem brackets_slash (h₁ : rest.head? ≠ some '/') (h₂ : rest.head? ≠ some '*') :
    brackets .code offset ('/' :: rest) = brackets .code (offset + 1) rest := by
  have hafter : after '/' rest .code = .code := by
    rcases rest with _ | ⟨c, rest⟩
    · rfl
    · have hc₁ : c ≠ '/' := by simpa using h₁
      have hc₂ : c ≠ '*' := by simpa using h₂
      simp [after, isQuote, hc₁, hc₂]
  simp [brackets, opens, closes, hafter]
  rfl

/-- A sign that is no bracket is passed over, a slash where no comment starts. -/
theorem brackets_plain_sign {s : Symbol} (hs : s.IsPlain) (hm : misreads (s.text ++ rest) = false)
    (ht : trivia? (s.text ++ rest) = none) :
    brackets .code offset (s.text ++ rest) = brackets .code (offset + byteSize s.text) rest := by
  -- A slash alone may start a comment, so what follows it decides.
  by_cases hslash : s = .op .div
  · subst hslash
    change brackets .code offset ('/' :: rest) = _
    change misreads ('/' :: rest) = false at hm
    change trivia? ('/' :: rest) = none at ht
    refine brackets_slash (fun h => ?_) fun h => ?_
    · obtain ⟨tail, rfl⟩ := List.head?_eq_some_iff.mp h
      cases ht
    · obtain ⟨tail, rfl⟩ := List.head?_eq_some_iff.mp h
      simp only [trivia?, Option.map_eq_none_iff] at ht
      simp [misreads, ht] at hm
  · refine brackets_quiet ?_
    cases s with
    | op o => cases o <;> first | exact absurd rfl hslash | exact quiet_of_all (by decide)
    | opening b | closing b => cases hs
    | _ => exact quiet_of_all (by decide)

theorem bracket_plain {s : Symbol} {span : Span} (hs : s.IsPlain) :
    Token.bracket? ⟨.symbol s, span⟩ = none := by
  cases s with
  | opening b | closing b => cases hs
  | _ => rfl

/-- A lexeme at the head of a text is a bracket of the scan exactly when it is a bracket. -/
theorem brackets_first {l : Lexeme} {stop : Nat} (hm : misreads cs = false) (ht : trivia? cs = none)
    (h : first? cs = some (l, rest)) (hcode : Token.IsCode ⟨l, offset, stop⟩) :
    brackets .code offset cs =
      (Token.bracket? ⟨l, offset, stop⟩).toList ++ brackets .code (offset + byteSize l.text) rest := by
  obtain ⟨rfl, -, hhead⟩ := first_head h
  cases hhead with
  | quiet a hquiet => exact brackets_quiet hquiet
  | quoted a hquoted => exact brackets_quoted hquoted
  | symbol s =>
    by_cases hs : s.IsPlain
    · rw [bracket_plain hs]
      exact brackets_plain_sign hs hm ht
    · cases s with
      | opening b | closing b => cases b <;> rfl
      | _ => exact absurd trivial hs
  | stray c => rcases hcode with ⟨a, ha⟩ | ⟨s, hs⟩ <;> cases ‹_›

end Formula.Nesting
