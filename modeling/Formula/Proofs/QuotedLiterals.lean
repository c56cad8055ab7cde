import Formula.Proofs.EscapeSpellings

/-!
The reader of quoted literals and the decoder of what stands between the quotes. Both go through a text one
character at a time, and wherever the reader goes on the decoder does, unless an escape has no value. So a
literal that is read fails to decode only for the value of an escape, or because its bytes are no text; and
what decodes is read, if no quote and no line end stands outside its escapes.
-/

namespace Formula

open Lexeme Escape

inductive EscapeError.OfValue : EscapeError → Prop
  | octal (position value : Nat) : OfValue (octalOutOfRange position value)
  | scalar (position value : Nat) : OfValue (invalidUnicodeScalar position value)

inductive EscapeError.OfForm : EscapeError → Prop
  | unknown (position : Nat) (escape : List Char) : OfForm (invalidEscape position escape)
  | short (position expected got : Nat) : OfForm (incompleteEscape position expected got)

/-- No quote and no line end stands in a text outside its escapes; the flag says whether a backslash stands
before it. -/
def Tidy (quote : Char) : Bool → List Char → Prop
  | _, [] => True
  | true, _ :: cs => Tidy quote false cs
  | false, c :: cs => c ≠ quote ∧ endsLine c = false ∧ Tidy quote (c = '\\') cs

instance Tidy.decidable (quote : Char) :
    (escaped : Bool) → (w : List Char) → Decidable (Tidy quote escaped w)
  | _, [] => inferInstanceAs (Decidable True)
  | true, _ :: cs => Tidy.decidable quote false cs
  | false, c :: cs =>
    have := Tidy.decidable quote (c = '\\') cs
    inferInstanceAs (Decidable (c ≠ quote ∧ endsLine c = false ∧ Tidy quote (c = '\\') cs))

namespace Lexeme.QuoteState

inductive Matches : QuoteState → State → Prop
  | plain : Matches plain .plain
  | escaped (position : Nat) : Matches escaped (.opened position)
  | digits {position got value remaining : Nat} {form : Escape.Form} (hwidth : got + remaining = form.width)
      (hpos : 0 < remaining) :
      Matches (digits form.radix remaining) (.digits position form got value)

def next? (quote : Char) : QuoteState → Char → Option (QuoteState × Bool)
  | plain, c =>
    if endsLine c then none else if c = '\\' then some (escaped, false) else some (plain, true)
  | escaped, c =>
    if isSimpleEscape quote c then some (plain, true) else (escapeDigits? c).map fun next => (next, false)
  | digits radix remaining, c =>
    if digitValue c < radix then
      if remaining ≤ 1 then some (plain, true) else some (digits radix (remaining - 1), false)
    else none

variable {quote c : Char} {state : QuoteState} {cs : List Char}

theorem closeQuote_next (h : ¬ (state = plain ∧ c = quote)) : closeQuote quote state (c :: cs) =
    (state.next? quote c).bind fun (next, ends) =>
      (closeQuote quote next cs).map fun (n, body, rest) => (n + ends.toNat, c :: body, rest) := by
  cases state with
  | plain =>
    rw [closeQuote, if_neg fun hc => h ⟨rfl, hc⟩, next?]
    split_ifs <;> rfl
  | escaped =>
    rw [closeQuote, next?]
    split_ifs
    · rfl
    · cases escapeDigits? c <;> rfl
  | digits radix remaining =>
    rw [closeQuote, next?]
    split_ifs <;> rfl

theorem line_of_plain {result : QuoteState × Bool} (h : plain.next? quote c = some result) :
    endsLine c = false := by
  rw [next?] at h
  split_ifs at h <;> simpa using ‹¬ endsLine c›

theorem escaped_next {next : QuoteState} {ends : Bool} (h : state.next? quote c = some (next, ends)) :
    next = escaped ↔ state = plain ∧ c = '\\' := by
  cases state with
  | plain =>
    rw [next?] at h
    split_ifs at h with _ hslash
    · obtain ⟨rfl, -⟩ := Prod.mk.inj (Option.some.inj h)
      simp [hslash]
    · obtain ⟨rfl, -⟩ := Prod.mk.inj (Option.some.inj h)
      simp [hslash]
  | escaped =>
    rw [next?] at h
    split_ifs at h
    · obtain ⟨rfl, -⟩ := Prod.mk.inj (Option.some.inj h)
      simp
    · obtain ⟨digitState, hdigits, he⟩ := Option.map_eq_some_iff.mp h
      obtain ⟨rfl, -⟩ := Prod.mk.inj he
      obtain ⟨radix, remaining, rfl, -⟩ := escapeDigits_radix hdigits
      simp
  | digits radix remaining =>
    rw [next?] at h
    split_ifs at h
    · obtain ⟨rfl, -⟩ := Prod.mk.inj (Option.some.inj h)
      simp
    · obtain ⟨rfl, -⟩ := Prod.mk.inj (Option.some.inj h)
      simp

end Lexeme.QuoteState

open QuoteState

/-- How the reader and the decoder take one character: both go on to the same place, within an escape or at
the end of a piece; or an escape ends for the reader and has no value for the decoder; or neither takes it. -/
inductive StepsAgree : Option (QuoteState × Bool) → Except EscapeError (State × Option Piece) → Prop
  | within {state : QuoteState} {next : State} (h : state.Matches next) :
      StepsAgree (some (state, false)) (.ok (next, none))
  | ends (piece : Piece) : StepsAgree (some (plain, true)) (.ok (.plain, some piece))
  | value {e : EscapeError} (h : e.OfValue) : StepsAgree (some (plain, true)) (.error e)
  | form {e : EscapeError} (h : e.OfForm) : StepsAgree none (.error e)

theorem StepsAgree.next_matches {next : QuoteState} {ends : Bool}
    {taken : Except EscapeError (State × Option Piece)} (h : StepsAgree (some (next, ends)) taken) :
    ∃ next', next.Matches next' := by
  cases h with
  | within h => exact ⟨_, h⟩
  | ends | value => exact ⟨.plain, .plain⟩

/-- How the reader and the decoder take a whole text: both come to its end, with as many pieces; or the
decoder finds an escape that has no value, or one that is none, which the reader does not go on over. -/
inductive RunsAgree (w : List Char) :
    Option (Nat × List Char × List Char) → Except EscapeError (List Piece) → Prop
  | done (ps : List Piece) : RunsAgree w (some (ps.length, w, [])) (.ok ps)
  | value {found : Option (Nat × List Char × List Char)} {e : EscapeError} (h : e.OfValue) :
      RunsAgree w found (.error e)
  | form {found : Option (Nat × List Char × List Char)} {e : EscapeError} (h : e.OfForm)
      (hfound : ∀ n, found ≠ some (n, w, [])) : RunsAgree w found (.error e)

/-- A character before a text adds to both what it completes. -/
theorem RunsAgree.cons {w : List Char} {found : Option (Nat × List Char × List Char)}
    {decoded : Except EscapeError (List Piece)} (h : RunsAgree w found decoded) (c : Char)
    (piece : Option Piece) :
    RunsAgree (c :: w)
      (found.map fun (n, body, rest) => (n + piece.isSome.toNat, c :: body, rest))
      (decoded.map (piece.toList ++ ·)) := by
  cases h with
  | done ps =>
    have hlength : ps.length + piece.isSome.toNat = (piece.toList ++ ps).length := by
      cases piece <;> simp
    simp only [Option.map_some, hlength]
    exact .done _
  | value h => exact .value h
  | form h hfound =>
    refine .form h fun n hn => ?_
    obtain ⟨⟨m, body, rest⟩, rfl, he⟩ := Option.map_eq_some_iff.mp hn
    simp only [Prod.mk.injEq, List.cons.injEq, true_and] at he
    obtain ⟨-, rfl, rfl⟩ := he
    exact hfound m rfl

/-- What is read on to the end decodes, but for an escape without a value. -/
theorem RunsAgree.of_read {w : List Char} {n : Nat} {decoded : Except EscapeError (List Piece)}
    (h : RunsAgree w (some (n, w, [])) decoded) :
    (∃ ps, decoded = .ok ps ∧ ps.length = n) ∨ ∃ e, decoded = .error e ∧ e.OfValue := by
  cases h with
  | done ps => exact .inl ⟨ps, rfl, rfl⟩
  | value h => exact .inr ⟨_, rfl, h⟩
  | form _ hfound => exact (hfound n rfl).elim

/-- What decodes is read on to the end. -/
theorem RunsAgree.of_decoded {w : List Char} {found : Option (Nat × List Char × List Char)}
    {ps : List Piece} (h : RunsAgree w found (.ok ps)) : found = some (ps.length, w, []) := by
  cases h with
  | done => rfl

theorem RunsAgree.utf8_ne {w : List Char} {found : Option (Nat × List Char × List Char)}
    {e : EscapeError} (h : RunsAgree w found (.error e)) : e ≠ .invalidUtf8 := by
  rintro rfl
  cases h with
  | value h => cases h
  | form h => cases h

section Steps

variable {quote c : Char} {position start : Nat}

/-- The last digit completes an escape, which has a value or none. -/
theorem finish_agrees (form : Escape.Form) (value : Nat) : StepsAgree (some (plain, true))
    ((Escape.finish start form value).map fun piece => (.plain, some piece)) := by
  cases form with
  | hexByte => exact .ends _
  | octalByte =>
    rw [Escape.finish]
    split_ifs
    · exact .value (.octal start value)
    · exact .ends _
  | shortPoint | longPoint =>
    rw [Escape.finish]
    cases scalar? 0 value with
    | some c => exact .ends _
    | none => exact .value (.scalar start value)

/-- A character after a backslash makes the same escape for both. -/
theorem opened_agrees (hquote : quote = '"' ∨ quote = '\'') :
    StepsAgree (escaped.next? quote c) (step quote position (.opened start) c) := by
  rw [next?, step]
  rcases hletter : letter? c with _ | d
  · have hmem := letter_none_iff.mp hletter
    by_cases hc : c = quote
    · have hdigits : digits? start c = none := by
        subst hc
        rcases hquote with rfl | rfl <;> rfl
      rw [hdigits, if_pos (by simp [isSimpleEscape, hc])]
      dsimp only
      rw [if_pos hc]
      exact .ends _
    · have hsimple : ¬ isSimpleEscape quote c := by simpa [isSimpleEscape, hc] using hmem
      have digits (form : Escape.Form) (remaining got value : Nat) (hwidth : got + remaining = form.width)
          (hpos : 0 < remaining) : StepsAgree (some (.digits form.radix remaining, false))
            (.ok (.digits start form got value, none)) := .within (.digits hwidth hpos)
      rw [if_neg hsimple, escapeDigits?, digits?, isDigitOf]
      simp only [decide_eq_true_eq]
      split_ifs
      · exact digits .hexByte 2 0 0 rfl (by decide)
      · exact digits .shortPoint 4 0 0 rfl (by decide)
      · exact digits .longPoint 8 0 0 rfl (by decide)
      · exact digits .octalByte 2 0 _ rfl (by decide)
      · exact .form (.unknown start _)
  · have hmem : c ∈ ['a', 'b', 'f', 'n', 'r', 't', 'v', '\\'] := by
      by_contra hmem
      rw [letter_none_iff.mpr hmem] at hletter
      cases hletter
    rw [if_pos (show isSimpleEscape quote c = true from decide_eq_true (.inr hmem))]
    exact .ends _

variable (c position) in
/-- One character keeps reader and decoder together. -/
theorem stepsAgree {state : QuoteState} {state' : State} (hquote : quote = '"' ∨ quote = '\'')
    (h : state.Matches state') (hline : state = plain → endsLine c = false) :
    StepsAgree (state.next? quote c) (step quote position state' c) := by
  cases h with
  | plain =>
    rw [next?, step, if_neg (by simp [hline rfl])]
    split_ifs
    · exact .within (.escaped position)
    · exact .ends _
  | escaped start => exact opened_agrees hquote
  | digits hwidth hpos =>
    rw [next?, step]
    -- A digit is the last one for both or for neither, since they wait for as many.
    split_ifs with hdigit hone hlast hlast
    · exact finish_agrees _ _
    · omega
    · omega
    · exact .within (.digits (by omega) (by omega))
    · exact .form (.short _ _ _)

theorem digit_not_mem (h : digitValue c < 16) : c ∉ ['"', '\'', '\n', '\r', '\\'] := by
  have hall : ['"', '\'', '\n', '\r', '\\'].all (fun d => !decide (digitValue d < 16)) = true := by
    decide +kernel
  exact not_mem_of_kind hall (decide_eq_true h)

/-- Where the reader goes on, a text is tidy if the rest of it is, and no quote has been passed by. -/
theorem tidy_cons_iff {state next : QuoteState} {state' : State} {ends : Bool} {w : List Char}
    (hquote : quote = '"' ∨ quote = '\'') (h : state.Matches state')
    (hnext : state.next? quote c = some (next, ends)) :
    Tidy quote (state = .escaped) (c :: w) ↔
      (state = plain → c ≠ quote) ∧ Tidy quote (next = .escaped) w := by
  have hescaped := escaped_next hnext
  cases h with
  | plain => simp [Tidy, hescaped, line_of_plain hnext]
  | escaped => simp [Tidy, hescaped]
  | @digits _ got value remaining form hwidth hpos =>
    have hdigit : digitValue c < 16 := by
      have hradix : form.radix ≤ 16 := by cases form <;> decide
      rw [next?] at hnext
      split_ifs at hnext <;> omega
    have hmem := digit_not_mem hdigit
    have hne : c ≠ quote := by
      rintro rfl
      rcases hquote with rfl | rfl <;> simp at hmem
    simp only [List.mem_cons, List.not_mem_nil, or_false, not_or] at hmem
    simp [Tidy, hescaped, hne, endsLine, hmem]

end Steps

section Runs

variable {quote : Char} {state : QuoteState} {state' : State} {w : List Char}

/-- A quote ends a literal only between its characters. -/
theorem plain_of_closed {n : Nat} (h : closeQuote quote state [quote] = some (n, [], [])) :
    state = plain := by
  rcases closeQuote_cons h with ⟨hplain, -⟩ | ⟨next, m, body, -, hbody, -⟩
  · exact hplain
  · cases hbody

/-- What is read on to the end is tidy. -/
theorem tidy_of_read (hquote : quote = '"' ∨ quote = '\'') (h : state.Matches state') {n : Nat}
    (hread : closeQuote quote state (w ++ [quote]) = some (n, w, [])) :
    Tidy quote (state = .escaped) w := by
  induction w generalizing state state' n with
  | nil => trivial
  | cons c w ih =>
    have hopen : ¬ (state = plain ∧ c = quote) := by
      rintro ⟨rfl, rfl⟩
      simp [closeQuote] at hread
    rw [List.cons_append, closeQuote_next hopen] at hread
    obtain ⟨⟨next, ends⟩, hnext, hread⟩ := Option.bind_eq_some_iff.mp hread
    obtain ⟨⟨m, body, rest⟩, hrest, he⟩ := Option.map_eq_some_iff.mp hread
    simp only [Prod.mk.injEq, List.cons.injEq, true_and] at he
    obtain ⟨-, rfl, rfl⟩ := he
    have hline : state = plain → endsLine c = false := by
      rintro rfl
      exact line_of_plain hnext
    have hstep := stepsAgree c 0 hquote h hline
    rw [hnext] at hstep
    obtain ⟨next', hmatches⟩ := hstep.next_matches
    exact (tidy_cons_iff hquote h hnext).mpr ⟨fun hp hc => hopen ⟨hp, hc⟩, ih hmatches hrest⟩

/-- Over a tidy text reader and decoder stay together to its end. -/
theorem runsAgree (hquote : quote = '"' ∨ quote = '\'') (h : state.Matches state')
    (hw : Tidy quote (state = .escaped) w) (position : Nat) :
    RunsAgree w (closeQuote quote state (w ++ [quote])) (pieces quote position state' w) := by
  induction w generalizing state state' position with
  | nil =>
    cases h with
    | plain =>
      rw [List.nil_append, closeQuote, if_pos rfl]
      exact .done []
    | escaped start =>
      refine .form (.unknown start _) fun n hn => ?_
      cases plain_of_closed hn
    | digits =>
      refine .form (.short _ _ _) fun n hn => ?_
      cases plain_of_closed hn
  | cons c w ih =>
    have hopen : ¬ (state = plain ∧ c = quote) := by
      rintro ⟨rfl, rfl⟩
      exact hw.1 rfl
    have hline : state = plain → endsLine c = false := by
      rintro rfl
      exact hw.2.1
    have hstep := stepsAgree c position hquote h hline
    rw [List.cons_append, closeQuote_next hopen, pieces]
    -- Each way to take the character comes before the rest, which the two take as the induction says.
    generalize hnext : state.next? quote c = result at hstep
    generalize step quote position state' c = result' at hstep
    cases hstep with
    | @within next next' hmatches =>
      have hw' := ((tidy_cons_iff hquote h hnext).mp hw).2
      exact (ih hmatches hw' _).cons c none
    | ends piece =>
      have hw' := ((tidy_cons_iff hquote h hnext).mp hw).2
      exact (ih .plain hw' _).cons c (some piece)
    | value he => exact .value he
    | form he => exact .form he fun n hn => Option.some_ne_none _ hn.symm

end Runs

section Literals

variable {w : List Char}

theorem quoted_string_iff : quoted? (Atom.string w).text = some (.string w, []) ↔
    ∃ n, closeQuote '"' .plain (w ++ ['"']) = some (n, w, []) := by
  simp [Atom.text, quoted?]

theorem quoted_rune_iff : quoted? (Atom.rune w).text = some (.rune w, []) ↔
    closeQuote '\'' .plain (w ++ ['\'']) = some (1, w, []) := by
  simp only [Atom.text, quoted?, List.cons_append]
  split <;> simp_all

/-- A string that is read is tidy, and fails to decode only for the value of an escape or for its bytes. -/
theorem string_of_read (hread : quoted? (Atom.string w).text = some (.string w, [])) :
    Tidy '"' false w ∧ ∀ e, decodeString w = .error e → e.OfValue ∨ e = .invalidUtf8 := by
  obtain ⟨n, hread⟩ := quoted_string_iff.mp hread
  have hw := tidy_of_read (.inl rfl) .plain hread
  have hrun := runsAgree (.inl rfl) .plain hw 0
  rw [hread] at hrun
  refine ⟨hw, fun e he => ?_⟩
  rw [decodeString] at he
  obtain ⟨ps, hps, -⟩ | ⟨e', hps, hvalue⟩ := hrun.of_read
  · rw [hps] at he
    dsimp only at he
    split at he <;> cases he
    exact .inr rfl
  · rw [hps] at he
    cases he
    exact .inl hvalue

/-- A tidy text is read as a string if it decodes or fails only for its bytes. -/
theorem read_of_string (hw : Tidy '"' false w)
    (hdecode : ∀ e, decodeString w = .error e → e = .invalidUtf8) :
    quoted? (Atom.string w).text = some (.string w, []) := by
  have hrun := runsAgree (.inl rfl) .plain hw 0
  rcases hps : pieces '"' 0 .plain w with e | ps
  · rw [hps] at hrun
    exact (hrun.utf8_ne (hdecode e (by rw [decodeString, hps]))).elim
  · rw [hps] at hrun
    exact quoted_string_iff.mpr ⟨_, hrun.of_decoded⟩

/-- A rune that is read is tidy, and fails to decode only for the value of an escape. -/
theorem rune_of_read (hread : quoted? (Atom.rune w).text = some (.rune w, [])) :
    Tidy '\'' false w ∧ ∀ e, decodeRune w = .error e → e.OfValue := by
  have hread := quoted_rune_iff.mp hread
  have hw := tidy_of_read (.inr rfl) .plain hread
  have hrun := runsAgree (.inr rfl) .plain hw 0
  rw [hread] at hrun
  refine ⟨hw, fun e he => ?_⟩
  rw [decodeRune] at he
  obtain ⟨ps, hps, hlength⟩ | ⟨e', hps, hvalue⟩ := hrun.of_read
  · obtain ⟨p, rfl⟩ := List.length_eq_one_iff.mp hlength
    rw [hps] at he
    cases he
  · rw [hps] at he
    cases he
    exact hvalue

/-- A tidy text is read as a rune if it decodes to a character. -/
theorem read_of_rune (hw : Tidy '\'' false w) {c : Char} (hdecode : decodeRune w = .ok c) :
    quoted? (Atom.rune w).text = some (.rune w, []) := by
  have hrun := runsAgree (.inr rfl) .plain hw 0
  rw [decodeRune] at hdecode
  split at hdecode
  · cases hdecode
  · next p hps =>
    rw [hps] at hrun
    exact quoted_rune_iff.mpr hrun.of_decoded
  · cases hdecode

end Literals

/-- The reader of literals and the decoder take the same texts: a text is read as a string only if it decodes
or fails for the value of an escape or for its bytes, and a tidy text is read as one if it decodes or fails
only for its bytes; and likewise for a rune, which holds one character. -/
theorem literals_agree (w : List Char) :
    (quoted? (Atom.string w).text = some (.string w, []) →
      Tidy '"' false w ∧ ∀ e, decodeString w = .error e → e.OfValue ∨ e = .invalidUtf8) ∧
    (Tidy '"' false w → (∀ e, decodeString w = .error e → e = .invalidUtf8) →
      quoted? (Atom.string w).text = some (.string w, [])) ∧
    (quoted? (Atom.rune w).text = some (.rune w, []) →
      Tidy '\'' false w ∧ ∀ e, decodeRune w = .error e → e.OfValue) ∧
    (Tidy '\'' false w → ∀ c, decodeRune w = .ok c →
      quoted? (Atom.rune w).text = some (.rune w, [])) :=
  ⟨string_of_read, read_of_string, rune_of_read, fun hw _ => read_of_rune hw⟩

/-- An escaped quote is read in a string and in a rune, in the string beside a byte that is no text; and an
octal escape that is read in both has no value. -/
theorem literals_agree_quotes :
    quoted? (Atom.string ['\\', '"', '\\', 'x', 'f', 'F']).text =
      some (.string ['\\', '"', '\\', 'x', 'f', 'F'], []) ∧
    quoted? (Atom.rune ['\\', '\'']).text = some (.rune ['\\', '\''], []) ∧
    (Tidy '"' false ['\\', '7', '7', '7'] ∧ Tidy '\'' false ['\\', '7', '7', '7'] ∧
      EscapeError.OfValue (.octalOutOfRange 0 511)) := by
  have hbytes : decodeString ['\\', '"', '\\', 'x', 'f', 'F'] = .error .invalidUtf8 := by decide +kernel
  have hstring := (literals_agree ['\\', '"', '\\', 'x', 'f', 'F']).2.1 (by decide)
    fun e he => Except.error.inj (he.symm.trans hbytes)
  have hrune := (literals_agree ['\\', '\'']).2.2.2 (by decide) '\'' rfl
  obtain ⟨ofString, -, ofRune, -⟩ := literals_agree ['\\', '7', '7', '7']
  exact ⟨hstring, hrune, (ofString (by decide)).1, (ofRune (by decide)).1, (ofRune (by decide)).2 _ rfl⟩

end Formula
