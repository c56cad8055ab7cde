import Formula.Proofs.BracketScan

namespace Formula.Nesting

open Lexeme

variable {mode : Mode} {offset : Nat} {c : Char} {cs rest : List Char}

/-- The first comment that the scan misreads, among what a text is cut into: where it starts, and the
text from there on. -/
def misreadFrom? : Nat → Nat → List Char → Option (Nat × List Char)
  | 0, _, _ => none
  | turns + 1, offset, cs =>
    if misreads cs then some (offset, cs)
    else match trivia? cs with
      | some (text, rest) => misreadFrom? turns (offset + byteSize text) rest
      | none => match first? cs with
        | some (lexeme, rest) => misreadFrom? turns (offset + byteSize lexeme.text) rest
        | none => none

theorem le_misread {turns offset k : Nat} {cs text : List Char}
    (h : misreadFrom? turns offset cs = some (k, text)) : offset ≤ k ∧ misreads text = true := by
  induction turns generalizing offset cs with
  | zero => cases h
  | succ turns ih =>
    rw [misreadFrom?] at h
    split_ifs at h with hm
    · obtain ⟨rfl, rfl⟩ := Prod.mk.inj (Option.some.inj h)
      exact ⟨Nat.le_refl _, hm⟩
    · split at h
      · obtain ⟨hle, htext⟩ := ih h
        exact ⟨by omega, htext⟩
      · split at h
        · obtain ⟨hle, htext⟩ := ih h
          exact ⟨by omega, htext⟩
        · cases h

theorem le_start {turns offset : Nat} {cs : List Char} {t : Token}
    (h : t ∈ Token.listFrom turns offset cs) : offset ≤ t.span.start := by
  induction turns generalizing offset cs with
  | zero =>
    obtain rfl := List.mem_singleton.mp h
    exact Nat.le_refl _
  | succ turns ih =>
    rw [Token.listFrom] at h
    split at h
    · have hle := ih h
      omega
    · split at h
      · rcases List.mem_cons.mp h with rfl | h
        · exact Nat.le_refl _
        · have hle := ih h
          omega
      · obtain rfl := List.mem_singleton.mp h
        exact Nat.le_refl _

theorem brackets_cons (t : Token) (ts : List Token) :
    Token.brackets (t :: ts) = t.bracket?.toList ++ Token.brackets ts := by
  rcases h : t.bracket? with _ | b <;> simp [Token.brackets, h]

/-- Up to the first comment that it misreads, the scan finds the brackets among the tokens. -/
theorem scan_until_misread {turns offset : Nat} {cs : List Char} (hturns : cs.length < turns)
    (hcode : ∀ t ∈ Token.listFrom turns offset cs, t.IsCode ∨ t.value = .finish) :
    ∃ pre post, Token.listFrom turns offset cs = pre ++ post ∧
      match misreadFrom? turns offset cs with
      | none => post = [] ∧ brackets .code offset cs = Token.brackets pre
      | some (k, text) => brackets .code offset cs = Token.brackets pre ++ brackets .code k text ∧
          (∀ t ∈ pre, t.span.start < k) ∧ ∀ t ∈ post, k ≤ t.span.start := by
  induction turns generalizing offset cs with
  | zero => omega
  | succ turns ih =>
    rcases hm : misreads cs with _ | _
    · rcases ht : trivia? cs with _ | ⟨text, rest⟩
      · rcases hf : first? cs with _ | ⟨l, rest⟩
        · obtain rfl := first_eq_none hf
          exact ⟨[⟨.finish, offset, offset⟩], [], rfl, rfl, rfl⟩
        · have hlist : Token.listFrom (turns + 1) offset cs =
              ⟨l, offset, offset + byteSize l.text⟩ ::
                Token.listFrom turns (offset + byteSize l.text) rest := by
            simp only [Token.listFrom, ht, hf]
          have hmisread : misreadFrom? (turns + 1) offset cs =
              misreadFrom? turns (offset + byteSize l.text) rest := by
            simp [misreadFrom?, hm, ht, hf]
          obtain ⟨hcs, hne, -⟩ := first_head hf
          have hpos := byteSize_pos hne
          have hlt := List.length_pos_iff.mpr hne
          rw [hcs, List.length_append] at hturns
          rw [hlist, List.forall_mem_cons] at hcode
          obtain ⟨pre, post, hsplit, hscan⟩ := ih (by omega) hcode.2
          have hl : Token.IsCode ⟨l, offset, offset + byteSize l.text⟩ :=
            hcode.1.resolve_right (first_ne_finish hf)
          refine ⟨⟨l, offset, offset + byteSize l.text⟩ :: pre, post, by rw [hlist, hsplit]; rfl, ?_⟩
          rw [hmisread, brackets_first hm ht hf hl, brackets_cons]
          rcases hk : misreadFrom? turns (offset + byteSize l.text) rest with _ | ⟨k, text⟩
          · simp only [hk] at hscan
            exact ⟨hscan.1, by rw [hscan.2]⟩
          · simp only [hk] at hscan
            obtain ⟨hbrackets, hpre, hpost⟩ := hscan
            have hle := (le_misread hk).1
            refine ⟨by rw [hbrackets, List.append_assoc], List.forall_mem_cons.mpr ⟨?_, hpre⟩, hpost⟩
            change offset < k
            omega
      · have hlist : Token.listFrom (turns + 1) offset cs =
            Token.listFrom turns (offset + byteSize text) rest := by
          simp only [Token.listFrom, ht]
        have hmisread : misreadFrom? (turns + 1) offset cs =
            misreadFrom? turns (offset + byteSize text) rest := by
          simp [misreadFrom?, hm, ht]
        obtain ⟨rfl, hne⟩ := trivia_text ht
        have hpos := List.length_pos_iff.mpr hne
        rw [List.length_append] at hturns
        rw [hlist] at hcode
        rw [hlist, hmisread, brackets_trivia hm ht]
        exact ih (by omega) hcode
    -- A comment that the scan misreads: all tokens from here on are behind it.
    · refine ⟨[], Token.listFrom (turns + 1) offset cs, rfl, ?_⟩
      rw [misreadFrom?, if_pos hm]
      exact ⟨rfl, by simp, fun t => le_start⟩

theorem le_bracket {b : Nat × Bool} (h : b ∈ brackets mode offset cs) : offset ≤ b.1 := by
  induction cs generalizing mode offset with
  | nil => simp [brackets] at h
  | cons c cs ih =>
    rw [brackets] at h
    split_ifs at h
    · rcases List.mem_cons.mp h with rfl | h
      · exact Nat.le_refl _
      · exact Nat.le_trans (Nat.le_add_right _ _) (ih h)
    · rcases List.mem_cons.mp h with rfl | h
      · exact Nat.le_refl _
      · exact Nat.le_trans (Nat.le_add_right _ _) (ih h)
    · exact Nat.le_trans (Nat.le_add_right _ _) (ih h)

theorem mem_token_brackets {ts : List Token} {b : Nat × Bool} (h : b ∈ Token.brackets ts) :
    ∃ t ∈ ts, t.span.start = b.1 := by
  obtain ⟨t, ht, hb⟩ := List.mem_filterMap.mp h
  refine ⟨t, ht, ?_⟩
  simp only [Token.bracket?] at hb
  split at hb
  · rw [← Option.some.inj hb]
  · rw [← Option.some.inj hb]
  · cases hb

/-- The mark of the end is the last token. -/
theorem finish_last {turns offset : Nat} {us rest' : List Token} {e : Token}
    (h : Token.listFrom turns offset cs = us ++ e :: rest') (he : e.value = .finish) :
    rest' = [] := by
  have alone {t : Token} {us : List Token} (h : [t] = us ++ e :: rest') : rest' = [] := by
    rcases List.singleton_eq_append_iff.mp h with ⟨-, h⟩ | ⟨-, h⟩
    · exact (List.cons.inj h).2
    · cases h
  induction turns generalizing offset cs us with
  | zero => exact alone h
  | succ turns ih =>
    rw [Token.listFrom] at h
    split at h
    · exact ih h
    · split at h
      · next l rest hf =>
        cases us with
        | nil =>
          obtain ⟨rfl, -⟩ := List.cons.inj h
          exact absurd he (first_ne_finish hf)
        | cons u us => exact ih (List.cons.inj h).2
      · exact alone h

def misread? (source : List Char) : Option (Nat × List Char) :=
  misreadFrom? (source.length + 1) 0 source

/-- The tokens of a source that is a phrase are code up to the mark of the end, and their brackets stand
in pairs. -/
theorem tokens_of_phrase {source : List Char} {p : Phrase}
    (h : Phrase.ofTokens? (Token.list source) = some p) :
    (∀ t ∈ Token.list source, t.IsCode ∨ t.value = .finish) ∧
      ∃ us e, Token.list source = us ++ [e] ∧ e.value = .finish ∧
        Spells e.span.start us (.phrase false p) := by
  obtain ⟨us, e, rest, hlist, he, hspells⟩ := Phrase.ofTokens_sound h
  obtain rfl := finish_last hlist he
  refine ⟨fun t ht => ?_, us, e, hlist, he, hspells⟩
  rw [hlist] at ht
  rcases List.mem_append.mp ht with ht | ht
  · exact .inl (spells_code hspells t ht)
  · obtain rfl := List.mem_singleton.mp ht
    exact .inr he

theorem brackets_finish {us : List Token} {e : Token} (he : e.value = .finish) :
    Token.brackets (us ++ [e]) = Token.brackets us := by
  simp [Token.brackets, Token.bracket?, he]

/-- No bracket of the source stands in the first comment that the scan misreads, as far as it reads it,
and behind the comment the scan finds the brackets that are left. -/
def HidesNone (source : List Char) : Prop :=
  ∀ k text, misread? source = some (k, text) →
    (∀ b ∈ Token.brackets (Token.list source), k ≤ b.1 → k + byteSize (comment text).1 ≤ b.1) ∧
    brackets .code (k + byteSize (comment text).1) (comment text).2 =
      (Token.brackets (Token.list source)).filter (k ≤ ·.1)

theorem scan_eq_iff {source : List Char}
    (hcode : ∀ t ∈ Token.list source, t.IsCode ∨ t.value = .finish) :
    brackets .code 0 source = Token.brackets (Token.list source) ↔ HidesNone source := by
  obtain ⟨pre, post, hlist, hscan⟩ := scan_until_misread (Nat.lt_succ_self source.length) hcode
  change Token.list source = pre ++ post at hlist
  rw [HidesNone, hlist, misread?]
  rcases hk : misreadFrom? (source.length + 1) 0 source with _ | ⟨k, text⟩
  · simp only [hk] at hscan
    obtain ⟨rfl, hbrackets⟩ := hscan
    simp [hbrackets]
  · simp only [hk] at hscan
    obtain ⟨hbrackets, hpre, hpost⟩ := hscan
    -- The tokens part at the comment, so that their offsets tell on which side a bracket stands.
    rw [brackets_misread (le_misread hk).2] at hbrackets
    have hbefore : ∀ b ∈ Token.brackets pre, b.1 < k := by
      intro b hb
      obtain ⟨t, ht, hstart⟩ := mem_token_brackets hb
      exact hstart ▸ hpre t ht
    have hbehind : ∀ b ∈ Token.brackets post, k ≤ b.1 := by
      intro b hb
      obtain ⟨t, ht, hstart⟩ := mem_token_brackets hb
      exact hstart ▸ hpost t ht
    have hfilter : (Token.brackets (pre ++ post)).filter (k ≤ ·.1) = Token.brackets post := by
      rw [Token.brackets_append, List.filter_append, List.filter_eq_nil_iff.mpr, List.filter_eq_self.mpr,
        List.nil_append]
      · exact fun b hb => decide_eq_true (hbehind b hb)
      · intro b hb
        have hlt := hbefore b hb
        simpa using hlt
    rw [hbrackets]
    constructor
    · intro hagree k' text' he
      obtain ⟨rfl, rfl⟩ := Prod.mk.inj (Option.some.inj he)
      rw [Token.brackets_append, List.append_cancel_left_eq] at hagree
      refine ⟨fun b hb hle => ?_, hagree.trans hfilter.symm⟩
      rw [Token.brackets_append] at hb
      rcases List.mem_append.mp hb with hb | hb
      · exact absurd hle (Nat.not_le.mpr (hbefore b hb))
      · exact le_bracket (hagree ▸ hb)
    · intro hall
      rw [(hall k text rfl).2, hfilter, Token.brackets_append]

def bracketChars : Nat → List Char → List (Nat × Bool)
  | _, [] => []
  | offset, c :: cs =>
    let rest := bracketChars (offset + c.utf8Size) cs
    if opens c then (offset, true) :: rest
    else if closes c then (offset, false) :: rest
    else rest

def isQuoted : Lexeme → Bool
  | .atom (.rune _) | .atom (.string _) | .atom (.raw _) => true
  | _ => false

theorem bracketChars_quiet {text : List Char} (h : ∀ c ∈ text, IsQuiet c) :
    bracketChars offset text = [] := by
  induction text generalizing offset with
  | nil => rfl
  | cons c text ih =>
    obtain ⟨hc, htext⟩ := List.forall_mem_cons.mp h
    simp only [IsQuiet, loud, List.mem_cons, List.not_mem_nil, or_false, not_or] at hc
    simp [bracketChars, opens, closes, hc, ih htext]

theorem mem_listFrom {turns : Nat} {t : Token} (h : t ∈ Token.listFrom turns offset cs) :
    t.value = .finish ∨ ∃ cs rest, first? cs = some (t.value, rest) := by
  induction turns generalizing offset cs with
  | zero =>
    obtain rfl := List.mem_singleton.mp h
    exact .inl rfl
  | succ turns ih =>
    rw [Token.listFrom] at h
    split at h
    · exact ih h
    · split at h
      · next l rest hf =>
        rcases List.mem_cons.mp h with rfl | h
        · exact .inr ⟨cs, rest, hf⟩
        · exact ih h
      · obtain rfl := List.mem_singleton.mp h
        exact .inl rfl

theorem quoted_isQuoted {a : Atom} (h : quoted? cs = some (a, rest)) : isQuoted (.atom a) = true := by
  simp only [quoted?] at h
  split at h
  · obtain ⟨⟨n, body, rest'⟩, -, he⟩ := Option.map_eq_some_iff.mp h
    obtain ⟨rfl, -⟩ := Prod.mk.inj he
    rfl
  · split at h
    · obtain ⟨rfl, -⟩ := Prod.mk.inj (Option.some.inj h)
      rfl
    · cases h
  · obtain ⟨⟨body, rest'⟩, -, he⟩ := Option.map_eq_some_iff.mp h
    obtain ⟨rfl, -⟩ := Prod.mk.inj he
    rfl
  · cases h

theorem symbol_bracketChars (s : Symbol) (span : Span) :
    (Token.bracket? ⟨.symbol s, span⟩).toList = bracketChars span.start s.text := by
  cases s with
  | op o => cases o <;> rfl
  | opening b | closing b => cases b <;> rfl
  | _ => rfl

/-- The brackets among the tokens of a phrase are all bracket characters outside of comments and quoted
literals. -/
theorem token_brackets_eq {source : List Char}
    (hcode : ∀ t ∈ Token.list source, t.IsCode ∨ t.value = .finish) :
    Token.brackets (Token.list source) = (Token.list source).flatMap fun t =>
      if isQuoted t.value then [] else bracketChars t.span.start t.value.text := by
  rw [Token.brackets, List.filterMap_eq_flatMap_toList]
  refine List.flatMap_congr fun t ht => ?_
  rcases mem_listFrom ht with hfinish | ⟨cs, rest, hf⟩
  · simp [Token.bracket?, hfinish, isQuoted, Lexeme.text, bracketChars]
  · have ht := (hcode t ht).resolve_right (first_ne_finish hf)
    obtain ⟨l, span⟩ := t
    obtain ⟨-, -, hhead⟩ := first_head hf
    cases hhead with
    | quiet a hquiet => simp [Token.bracket?, Lexeme.text, bracketChars_quiet hquiet]
    | quoted a hquoted => simp [Token.bracket?, quoted_isQuoted hquoted]
    | symbol s => exact symbol_bracketChars s span
    | stray c => rcases ht with ⟨a, ha⟩ | ⟨s, hs⟩ <;> cases ‹_›

/-- The scan and the grammar agree on the brackets of a source, and so on the one that opens too deep,
if there is one. -/
def AgreesOn (source : List Char) : Prop :=
  brackets .code 0 source = Token.brackets (Token.list source) ∧
  ∀ limit,
    ((firstDeeper? limit 0 (brackets .code 0 source)).isSome ↔
      limit < Token.bracketDepth (Token.list source)) ∧
    ∀ offset, firstDeeper? limit 0 (brackets .code 0 source) = some offset ↔
      OpensFirst limit 0 (Token.brackets (Token.list source)) offset

/-- Where the two agree on the brackets, they agree on the one that opens too deep. -/
theorem agreesOn_of_eq {source : List Char} {p : Phrase}
    (h : Phrase.ofTokens? (Token.list source) = some p)
    (heq : brackets .code 0 source = Token.brackets (Token.list source)) : AgreesOn source := by
  obtain ⟨-, us, e, hlist, he, hspells⟩ := tokens_of_phrase h
  have hpaired : Paired (Token.brackets (Token.list source)) := by
    rw [hlist, brackets_finish he]
    exact spells_paired hspells
  refine ⟨heq, fun limit => ⟨?_, fun offset => ?_⟩⟩
  · have hnone := firstDeeper_eq_none_iff (Token.brackets (Token.list source)) (Nat.zero_le limit)
    rw [heq, Option.isSome_iff_ne_none, ne_eq, hnone, Nat.not_le]
    rfl
  · rw [heq]
    exact firstDeeper_eq_some_iff (hpaired.fed 0) (Nat.zero_le limit)

/-- The scan counts the brackets of a phrase, which are all bracket characters outside of comments and
quoted literals, exactly when the first comment that it misreads hides none of them and it finds those that
are left behind that comment. -/
theorem agrees_on_iff {source : List Char} {p : Phrase}
    (h : Phrase.ofTokens? (Token.list source) = some p) :
    (Token.brackets (Token.list source) = (Token.list source).flatMap fun t =>
      if isQuoted t.value then [] else bracketChars t.span.start t.value.text) ∧
    (AgreesOn source ↔ HidesNone source) := by
  have hcode := (tokens_of_phrase h).1
  refine ⟨token_brackets_eq hcode, ?_⟩
  rw [← scan_eq_iff hcode]
  exact ⟨fun hagree => hagree.1, agreesOn_of_eq h⟩

theorem hidesNone_of_no_misread {source : List Char} (h : misread? source = none) :
    HidesNone source := by
  intro k text hk
  rw [h] at hk
  cases hk

/-- A line comment that a carriage return and a line feed end hides nothing. -/
theorem agrees_behind_line_comment :
    ∃ p, Phrase.ofTokens? (Token.list "a[0] // (\r\n * (b)".toList) = some p ∧
      AgreesOn "a[0] // (\r\n * (b)".toList := by
  obtain ⟨p, hp⟩ : ∃ p, Phrase.ofTokens? (Token.list "a[0] // (\r\n * (b)".toList) = some p :=
    Option.isSome_iff_exists.mp (by decide +kernel)
  exact ⟨p, hp, (agrees_on_iff hp).2.mpr (hidesNone_of_no_misread (by decide +kernel))⟩

/-- A line comment that a carriage return alone ends hides the brackets behind it, and so does an
opening mark that nothing closes, which is a slash and a star to the grammar. -/
theorem misread_comments_hide_brackets :
    (∃ p, Phrase.ofTokens? (Token.list "//\r((1))".toList) = some p ∧
      ¬ AgreesOn "//\r((1))".toList) ∧
    ∃ p, Phrase.ofTokens? (Token.list "1 /*((2))".toList) = some p ∧ ¬ AgreesOn "1 /*((2))".toList := by
  have hides {source : List Char} (h : (Phrase.ofTokens? (Token.list source)).isSome)
      (hne : brackets .code 0 source ≠ Token.brackets (Token.list source)) :
      ∃ p, Phrase.ofTokens? (Token.list source) = some p ∧ ¬ AgreesOn source := by
    obtain ⟨p, hp⟩ := Option.isSome_iff_exists.mp h
    exact ⟨p, hp, fun hagree => hne hagree.1⟩
  exact ⟨hides (by decide +kernel) (by decide +kernel), hides (by decide +kernel) (by decide +kernel)⟩

end Formula.Nesting
