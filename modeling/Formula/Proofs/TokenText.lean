import Formula.Nesting
import Formula.Token
import Mathlib.Data.List.TakeWhile
import Mathlib.Tactic.Common

namespace Formula

theorem byteSize_append (as bs : List Char) : byteSize (as ++ bs) = byteSize as + byteSize bs := by
  induction as with
  | nil => simp [byteSize]
  | cons a as ih => simp only [List.cons_append, byteSize, ih, Nat.add_assoc]

theorem byteSize_pos {cs : List Char} (h : cs ≠ []) : 0 < byteSize cs := by
  obtain ⟨c, cs, rfl⟩ := List.exists_cons_of_ne_nil h
  have hpos := c.utf8Size_pos
  rw [byteSize]
  omega

/-- What is checked at each of the first code points holds of their characters. -/
theorem forall_char_lt {b : Nat} {P : Char → Prop} (h : ∀ n ∈ List.range b, P (Char.ofNat n)) {c : Char}
    (hc : c.toNat < b) : P c := by
  have hn := h c.toNat (List.mem_range.mpr hc)
  rwa [Char.ofNat_toNat] at hn

theorem forall_digit {P : Char → Prop} (h : ∀ n ∈ List.range 58, 48 ≤ n → P (Char.ofNat n)) {c : Char}
    (hc : c.isDigit = true) : P c := by
  have hbounds : 48 ≤ c.toNat ∧ c.toNat ≤ 57 := Char.isDigit_iff_toNat.mp hc
  have hn := h c.toNat (List.mem_range.mpr (by omega)) hbounds.1
  rwa [Char.ofNat_toNat] at hn

namespace Lexeme

def loud : List Char := ['(', ')', '[', ']', '\x7b', '\x7d', '"', '\x27', '\x60', '/']

def IsQuiet (c : Char) : Prop := c ∉ loud

instance : DecidablePred IsQuiet := fun c => inferInstanceAs (Decidable (c ∉ loud))

theorem quiet_of_all {text : List Char} (h : text.all (IsQuiet ·) = true) :
    ∀ c ∈ text, IsQuiet c := by
  simpa using h

/-- A character of a kind that none of the others is of is not among them. -/
theorem not_mem_of_kind {others : List Char} {kind : Char → Bool}
    (h : others.all (!kind ·) = true) {c : Char} (hc : kind c = true) : c ∉ others := by
  intro hmem
  have hkind := List.all_eq_true.mp h c hmem
  rw [hc] at hkind
  cases hkind

theorem quiet_of_continuesName {c : Char} (h : continuesName c = true) : IsQuiet c :=
  not_mem_of_kind (by decide +kernel) h

theorem quiet_of_digitValue {c : Char} (h : digitValue c < 16) : IsQuiet c := by
  have hloud : loud.all (fun d => !decide (digitValue d < 16)) = true := by decide +kernel
  exact not_mem_of_kind hloud (decide_eq_true h)

theorem isDigitOf_iff {radix : Nat} {c : Char} : isDigitOf radix c = true ↔ digitValue c < radix :=
  decide_eq_true_iff

theorem quiet_of_isDigitOf {n : Nat} (h : n ≤ 16) (c : Char) (hc : isDigitOf n c = true) :
    IsQuiet c :=
  quiet_of_digitValue (Nat.lt_of_lt_of_le (isDigitOf_iff.mp hc) h)

theorem quiet_of_isDigit {c : Char} (h : c.isDigit = true) : IsQuiet c :=
  not_mem_of_kind (by decide) h

/-- What a reader cuts from the front of a text is quiet, is not nothing, and is followed in the text
by what is left. -/
def CutsQuiet (part : List Char → Option (List Char × List Char)) : Prop :=
  ∀ cs text rest, part cs = some (text, rest) →
    cs = text ++ rest ∧ text ≠ [] ∧ ∀ c ∈ text, IsQuiet c

theorem digitRun_text (isDigit : Char → Bool) (cs : List Char) :
    (digitRun isDigit cs).1 ++ (digitRun isDigit cs).2 = cs := by
  fun_induction digitRun isDigit cs <;> simp_all

theorem digitRun_quiet {isDigit : Char → Bool} (h : ∀ c, isDigit c = true → IsQuiet c)
    (cs : List Char) : ∀ c ∈ (digitRun isDigit cs).1, IsQuiet c := by
  have hmark : IsQuiet '_' := by decide
  fun_induction digitRun isDigit cs <;> simp_all

theorem cuts_decimals : CutsQuiet decimals? := by
  rintro (_ | ⟨d, cs⟩) text rest h
  · cases h
  · simp only [decimals?] at h
    split_ifs at h with hd
    obtain ⟨rfl, rfl⟩ := Prod.mk.inj (Option.some.inj h)
    refine ⟨?_, List.cons_ne_nil _ _, List.forall_mem_cons.mpr ⟨quiet_of_isDigit hd, ?_⟩⟩
    · rw [List.cons_append, digitRun_text]
    · exact digitRun_quiet (fun _ => quiet_of_isDigit) cs

/-- Quiet characters may go before what a quiet part cuts. -/
theorem CutsQuiet.before {part : List Char → Option (List Char × List Char)} (hp : CutsQuiet part)
    {pre cs text rest : List Char} (hpre : ∀ c ∈ pre, IsQuiet c)
    (h : (part cs).map (fun (run, rest) => (pre ++ run, rest)) = some (text, rest)) :
    pre ++ cs = text ++ rest ∧ text ≠ [] ∧ ∀ c ∈ text, IsQuiet c := by
  obtain ⟨⟨run, rest'⟩, hrun, he⟩ := Option.map_eq_some_iff.mp h
  obtain ⟨rfl, rfl⟩ := Prod.mk.inj he
  obtain ⟨rfl, hne, hquiet⟩ := hp _ _ _ hrun
  refine ⟨(List.append_assoc _ _ _).symm, by simp [hne], ?_⟩
  exact List.forall_mem_append.mpr ⟨hpre, hquiet⟩

theorem cuts_exponent : CutsQuiet exponent? := by
  rintro (_ | ⟨e, _ | ⟨s, cs⟩⟩) text rest h
  · cases h
  · cases h
  · simp only [exponent?] at h
    split_ifs at h with he hs
    · have hpre : ∀ c ∈ [e, s], IsQuiet c := by
        rcases he with rfl | rfl <;> rcases hs with rfl | rfl <;> exact quiet_of_all (by decide)
      exact cuts_decimals.before hpre h
    · have hpre : ∀ c ∈ [e], IsQuiet c := by
        rcases he with rfl | rfl <;> exact quiet_of_all (by decide)
      exact cuts_decimals.before hpre h

/-- An optional part cuts what the part cuts, or nothing. -/
theorem CutsQuiet.orNothing_cuts {part : List Char → Option (List Char × List Char)}
    (hp : CutsQuiet part) (cs : List Char) :
    (orNothing part cs).1 ++ (orNothing part cs).2 = cs ∧ ∀ c ∈ (orNothing part cs).1, IsQuiet c := by
  rw [orNothing]
  rcases h : part cs with _ | ⟨text, rest⟩
  · exact ⟨rfl, fun c hc => by cases hc⟩
  · obtain ⟨rfl, -, hquiet⟩ := hp _ _ _ h
    exact ⟨rfl, hquiet⟩

theorem cuts_float : CutsQuiet float? := by
  intro cs text rest h
  have hpoint : IsQuiet '.' := by decide
  simp only [float?] at h
  split at h
  · next whole rest' hwhole =>
    obtain ⟨rfl, hne, hquiet⟩ := cuts_decimals _ _ _ hwhole
    obtain ⟨hfraction, hfq⟩ := cuts_decimals.orNothing_cuts rest'
    obtain ⟨hpower, hpq⟩ := cuts_exponent.orNothing_cuts (orNothing decimals? rest').2
    obtain ⟨rfl, rfl⟩ := Prod.mk.inj (Option.some.inj h)
    refine ⟨by simp [hfraction, hpower], by simp, ?_⟩
    simp only [List.forall_mem_append, List.forall_mem_cons]
    exact ⟨hquiet, hpoint, hfq, hpq⟩
  · next whole rest' _ hwhole =>
    obtain ⟨rfl, -, hquiet⟩ := cuts_decimals _ _ _ hwhole
    exact cuts_exponent.before hquiet h
  · split at h
    · next rest' =>
      obtain ⟨⟨fraction, rest''⟩, hfraction, he⟩ := Option.map_eq_some_iff.mp h
      obtain ⟨rfl, hne, hfq⟩ := cuts_decimals _ _ _ hfraction
      obtain ⟨hpower, hpq⟩ := cuts_exponent.orNothing_cuts rest''
      obtain ⟨rfl, rfl⟩ := Prod.mk.inj he
      refine ⟨by simp [hpower], by simp, ?_⟩
      simp only [List.forall_mem_append, List.forall_mem_cons]
      exact ⟨hpoint, hfq, hpq⟩
    · cases h

theorem cuts_marked {mark isDigit : Char → Bool} (hmark : ∀ c, mark c = true → IsQuiet c)
    (hdigit : ∀ c, isDigit c = true → IsQuiet c) : CutsQuiet (marked? mark isDigit) := by
  intro cs text rest h
  have hzero : IsQuiet '0' := by decide
  simp only [marked?] at h
  split at h
  · next x cs =>
    have hrun := digitRun_text isDigit cs
    have hquiet := digitRun_quiet hdigit cs
    split_ifs at h with hx
    split at h
    · cases h
    · next run rest' _ heq =>
      rw [heq] at hrun hquiet
      obtain ⟨rfl, rfl⟩ := Prod.mk.inj (Option.some.inj h)
      refine ⟨by simpa using hrun.symm, by simp, ?_⟩
      simp only [List.forall_mem_cons]
      exact ⟨hzero, hmark x hx, hquiet⟩
  · cases h

theorem cuts_oldOctal : CutsQuiet oldOctal? := by
  intro cs text rest h
  have hzero : IsQuiet '0' := by decide
  simp only [oldOctal?] at h
  split at h
  · next cs =>
    have hrun := digitRun_text (isDigitOf 8) cs
    have hquiet := digitRun_quiet (quiet_of_isDigitOf (n := 8) (by decide)) cs
    split at h
    · cases h
    · next run rest' _ heq =>
      rw [heq] at hrun hquiet
      obtain ⟨rfl, rfl⟩ := Prod.mk.inj (Option.some.inj h)
      refine ⟨by simpa using hrun.symm, by simp, ?_⟩
      exact List.forall_mem_cons.mpr ⟨hzero, hquiet⟩
  · cases h

theorem cuts_plain : CutsQuiet plain? := by
  intro cs text rest h
  simp only [plain?] at h
  split at h
  · obtain ⟨rfl, rfl⟩ := Prod.mk.inj (Option.some.inj h)
    exact ⟨rfl, by simp, quiet_of_all (by decide)⟩
  · exact cuts_decimals _ _ _ h

theorem CutsQuiet.or {p q : List Char → Option (List Char × List Char)} (hp : CutsQuiet p)
    (hq : CutsQuiet q) : CutsQuiet fun cs => p cs <|> q cs := by
  intro cs text rest h
  rcases hpc : p cs with _ | result
  · exact hq cs text rest (by simpa [hpc] using h)
  · exact hp cs text rest (by simpa [hpc] using h)

theorem cuts_int : CutsQuiet int? := by
  have mark {a b : Char} (ha : IsQuiet a) (hb : IsQuiet b) (c : Char)
      (hc : decide (c = a ∨ c = b) = true) : IsQuiet c := by
    rcases of_decide_eq_true hc with rfl | rfl
    · exact ha
    · exact hb
  have hexadecimal := cuts_marked (mark (a := 'x') (b := 'X') (by decide) (by decide))
    (quiet_of_isDigitOf (Nat.le_refl 16))
  have binary := cuts_marked (mark (a := 'b') (b := 'B') (by decide) (by decide))
    (quiet_of_isDigitOf (n := 2) (by decide))
  have octal := cuts_marked (mark (a := 'o') (b := 'O') (by decide) (by decide))
    (quiet_of_isDigitOf (n := 8) (by decide))
  exact hexadecimal.or (binary.or (octal.or (cuts_oldOctal.or cuts_plain)))

theorem cuts_name : CutsQuiet name? := by
  rintro (_ | ⟨c, cs⟩) text rest h
  · cases h
  · simp only [name?] at h
    split_ifs at h with hc
    obtain ⟨rfl, rfl⟩ := Prod.mk.inj (Option.some.inj h)
    refine ⟨by simp, by simp, List.forall_mem_cons.mpr ⟨?_, fun d hd => ?_⟩⟩
    · exact quiet_of_continuesName (by simp [continuesName, hc])
    · exact quiet_of_continuesName (List.mem_takeWhile_imp hd)

inductive QuoteStep (quote : Char) : QuoteState → Char → QuoteState → Prop
  | char {c : Char} (hq : c ≠ quote) (hb : c ≠ '\\') : QuoteStep quote .plain c .plain
  | backslash (hq : '\\' ≠ quote) : QuoteStep quote .plain '\\' .escaped
  | escape {c : Char} : QuoteStep quote .escaped c .plain
  | escapeDigits {c : Char} {radix remaining : Nat} (hr : radix ≤ 16) :
      QuoteStep quote .escaped c (.digits radix remaining)
  | digit {c : Char} {radix remaining : Nat} (hd : digitValue c < radix) :
      QuoteStep quote (.digits radix remaining) c (.digits radix (remaining - 1))
  | lastDigit {c : Char} {radix remaining : Nat} (hd : digitValue c < radix) :
      QuoteStep quote (.digits radix remaining) c .plain

theorem escapeDigits_radix {c : Char} {state : QuoteState} (h : escapeDigits? c = some state) :
    ∃ radix remaining, state = .digits radix remaining ∧ radix ≤ 16 := by
  simp only [escapeDigits?] at h
  split_ifs at h <;> obtain rfl := Option.some.inj h <;> exact ⟨_, _, rfl, by decide⟩

/-- A character of a quoted literal closes it, or is followed by the rest of the literal. -/
theorem closeQuote_cons {quote c : Char} {state : QuoteState} {cs body rest : List Char} {n : Nat}
    (h : closeQuote quote state (c :: cs) = some (n, body, rest)) :
    (state = .plain ∧ c = quote ∧ body = [] ∧ rest = cs) ∨
      ∃ next m body', QuoteStep quote state c next ∧ body = c :: body' ∧
        closeQuote quote next cs = some (m, body', rest) := by
  have goOn {next : QuoteState} {k : Nat → Nat} (hstep : QuoteStep quote state c next)
      (hmap : ((closeQuote quote next cs).map fun found => (k found.1, c :: found.2.1, found.2.2)) =
        some (n, body, rest)) :
      ∃ next m body', QuoteStep quote state c next ∧ body = c :: body' ∧
        closeQuote quote next cs = some (m, body', rest) := by
    obtain ⟨⟨m, body', rest'⟩, hfound, he⟩ := Option.map_eq_some_iff.mp hmap
    simp only [Prod.mk.injEq] at he
    obtain ⟨-, rfl, rfl⟩ := he
    exact ⟨next, m, body', hstep, rfl, hfound⟩
  cases state with
  | plain =>
    rw [closeQuote] at h
    split_ifs at h with hq he hb
    · simp only [Option.some.injEq, Prod.mk.injEq] at h
      exact .inl ⟨rfl, hq, h.2.1.symm, h.2.2.symm⟩
    · subst hb
      exact .inr (goOn (k := id) (.backslash hq) h)
    · exact .inr (goOn (.char hq hb) h)
  | escaped =>
    rw [closeQuote] at h
    split_ifs at h with he
    · exact .inr (goOn .escape h)
    · split at h
      · next state hstate =>
        obtain ⟨radix, remaining, rfl, hr⟩ := escapeDigits_radix hstate
        exact .inr (goOn (k := id) (.escapeDigits hr) h)
      · cases h
  | digits radix remaining =>
    rw [closeQuote] at h
    split_ifs at h with hd hlast
    · exact .inr (goOn (.lastDigit hd) h)
    · exact .inr (goOn (k := id) (.digit hd) h)

theorem closeQuote_text {quote : Char} {state : QuoteState} {cs body rest : List Char} {n : Nat}
    (h : closeQuote quote state cs = some (n, body, rest)) : cs = body ++ quote :: rest := by
  induction cs generalizing state n body with
  | nil => simp [closeQuote] at h
  | cons c cs ih =>
    rcases closeQuote_cons h with ⟨-, rfl, rfl, rfl⟩ | ⟨next, m, body', -, rfl, hrest⟩
    · rfl
    · rw [ih hrest, List.cons_append]

/-- A character of a raw string closes it, or is followed by the rest of the string. -/
theorem closeRaw_cons {c : Char} {cs body rest : List Char} (h : closeRaw (c :: cs) = some (body, rest)) :
    (c = '\x60' ∧ body = [] ∧ rest = cs) ∨
      ∃ body', c ≠ '\x60' ∧ body = c :: body' ∧ closeRaw cs = some (body', rest) := by
  rw [closeRaw] at h
  split_ifs at h with hc
  · obtain ⟨rfl, rfl⟩ := Prod.mk.inj (Option.some.inj h)
    exact .inl ⟨hc, rfl, rfl⟩
  · obtain ⟨⟨body', rest'⟩, hfound, he⟩ := Option.map_eq_some_iff.mp h
    obtain ⟨rfl, rfl⟩ := Prod.mk.inj he
    exact .inr ⟨body', hc, rfl, hfound⟩

theorem closeRaw_text {cs body rest : List Char} (h : closeRaw cs = some (body, rest)) :
    cs = body ++ '\x60' :: rest := by
  induction cs generalizing body with
  | nil => cases h
  | cons c cs ih =>
    rcases closeRaw_cons h with ⟨rfl, rfl, rfl⟩ | ⟨body', -, rfl, hrest⟩
    · rfl
    · rw [ih hrest, List.cons_append]

theorem quoted_text {cs rest : List Char} {a : Atom} (h : quoted? cs = some (a, rest)) :
    cs = a.text ++ rest := by
  simp only [quoted?] at h
  split at h
  · obtain ⟨⟨n, body, rest'⟩, hclose, he⟩ := Option.map_eq_some_iff.mp h
    obtain ⟨rfl, rfl⟩ := Prod.mk.inj he
    simp [Atom.text, closeQuote_text hclose]
  · split at h
    · next body rest' hclose =>
      obtain ⟨rfl, rfl⟩ := Prod.mk.inj (Option.some.inj h)
      simp [Atom.text, closeQuote_text hclose]
    · cases h
  · obtain ⟨⟨body, rest'⟩, hclose, he⟩ := Option.map_eq_some_iff.mp h
    obtain ⟨rfl, rfl⟩ := Prod.mk.inj he
    simp [Atom.text, closeRaw_text hclose]
  · cases h

theorem after_text {pre cs rest : List Char} (h : after? pre cs = some rest) : cs = pre ++ rest := by
  induction pre generalizing cs with
  | nil => exact Option.some.inj h
  | cons a pre ih =>
    cases cs with
    | nil => cases h
    | cons c cs =>
      rw [after?] at h
      split_ifs at h with hac
      rw [ih h, hac, List.cons_append]

theorem symbol_text {cs rest : List Char} {s : Symbol} (h : symbol? cs = some (s, rest)) :
    cs = s.text ++ rest := by
  obtain ⟨s', -, hs⟩ := List.exists_of_findSome?_eq_some h
  obtain ⟨rest', hafter, he⟩ := Option.map_eq_some_iff.mp hs
  obtain ⟨rfl, rfl⟩ := Prod.mk.inj he
  exact after_text hafter

inductive Heads (cs rest : List Char) : Lexeme → Prop
  | quiet (a : Atom) (h : ∀ c ∈ a.text, IsQuiet c) : Heads cs rest (.atom a)
  | quoted (a : Atom) (h : quoted? cs = some (a, rest)) : Heads cs rest (.atom a)
  | symbol (s : Symbol) : Heads cs rest (.symbol s)
  | stray (c : Char) : Heads cs rest (.stray c)

theorem atom_text_ne_nil {cs rest : List Char} {a : Atom} (h : quoted? cs = some (a, rest)) :
    a.text ≠ [] := by
  simp only [quoted?] at h
  split at h
  · obtain ⟨⟨n, body, rest'⟩, -, he⟩ := Option.map_eq_some_iff.mp h
    obtain ⟨rfl, rfl⟩ := Prod.mk.inj he
    exact List.cons_ne_nil _ _
  · split at h
    · obtain ⟨rfl, rfl⟩ := Prod.mk.inj (Option.some.inj h)
      exact List.cons_ne_nil _ _
    · cases h
  · obtain ⟨⟨body, rest'⟩, -, he⟩ := Option.map_eq_some_iff.mp h
    obtain ⟨rfl, rfl⟩ := Prod.mk.inj he
    exact List.cons_ne_nil _ _
  · cases h

theorem symbol_text_ne_nil (s : Symbol) : s.text ≠ [] := by
  cases s with
  | op o => cases o <;> decide
  | opening b | closing b => cases b <;> decide
  | _ => decide

theorem atom_head {cs rest : List Char} {a : Atom} (h : atom? cs = some (a, rest)) :
    cs = a.text ++ rest ∧ a.text ≠ [] ∧ Heads cs rest (.atom a) := by
  have cut {part : List Char → Option (List Char × List Char)} (hp : CutsQuiet part)
      {make : List Char → Atom} (hmake : ∀ text, (make text).text = text)
      (hmap : ((part cs).map fun (text, rest) => (make text, rest)) = some (a, rest)) :
      cs = a.text ++ rest ∧ a.text ≠ [] ∧ Heads cs rest (.atom a) := by
    obtain ⟨⟨text, rest'⟩, hpart, he⟩ := Option.map_eq_some_iff.mp hmap
    obtain ⟨rfl, rfl⟩ := Prod.mk.inj he
    obtain ⟨hcs, hne, hquiet⟩ := hp _ _ _ hpart
    have htext := hmake text
    exact ⟨htext.symm ▸ hcs, htext.symm ▸ hne, .quiet _ (htext.symm ▸ hquiet)⟩
  simp only [atom?, Option.orElse_eq_orElse, Option.orElse_eq_or, Option.or_eq_some_iff] at h
  rcases h with h | ⟨-, h | ⟨-, h | ⟨-, h⟩⟩⟩
  · exact cut cuts_name (fun _ => rfl) h
  · exact cut cuts_float (fun _ => rfl) h
  · exact cut cuts_int (fun _ => rfl) h
  · exact ⟨quoted_text h, atom_text_ne_nil h, .quoted a h⟩

/-- The text is the lexeme at its head and what is left. -/
theorem first_head {cs rest : List Char} {l : Lexeme} (h : first? cs = some (l, rest)) :
    cs = l.text ++ rest ∧ l.text ≠ [] ∧ Heads cs rest l := by
  simp only [first?, Option.orElse_eq_orElse, Option.orElse_eq_or, Option.or_eq_some_iff,
    Option.map_eq_some_iff] at h
  rcases h with ⟨⟨a, rest'⟩, ha, he⟩ | ⟨-, ⟨⟨s, rest'⟩, hs, he⟩ | ⟨-, h⟩⟩
  · obtain ⟨rfl, rfl⟩ := Prod.mk.inj he
    exact atom_head ha
  · obtain ⟨rfl, rfl⟩ := Prod.mk.inj he
    exact ⟨symbol_text hs, symbol_text_ne_nil s, .symbol s⟩
  · split at h
    · obtain ⟨rfl, rfl⟩ := Prod.mk.inj (Option.some.inj h)
      exact ⟨rfl, List.cons_ne_nil _ _, .stray _⟩
    · cases h

theorem first_eq_none {cs : List Char} (h : first? cs = none) : cs = [] := by
  cases cs with
  | nil => rfl
  | cons c cs => simp [first?] at h

theorem first_ne_finish {cs rest : List Char} {l : Lexeme} (h : first? cs = some (l, rest)) :
    l ≠ .finish := by
  obtain ⟨-, -, hhead⟩ := first_head h
  cases hhead <;> simp

theorem closeComment_text {cs text rest : List Char} (h : closeComment cs = some (text, rest)) :
    cs = text ++ rest := by
  fun_induction closeComment cs generalizing text rest with
  | case1 cs =>
    obtain ⟨rfl, rfl⟩ := Prod.mk.inj (Option.some.inj h)
    rfl
  | case2 c cs _ ih =>
    obtain ⟨⟨text', rest'⟩, hclose, he⟩ := Option.map_eq_some_iff.mp h
    obtain ⟨rfl, rfl⟩ := Prod.mk.inj he
    rw [ih hclose, List.cons_append]
  | case3 => cases h

theorem trivia_text {cs text rest : List Char} (h : trivia? cs = some (text, rest)) :
    cs = text ++ rest ∧ text ≠ [] := by
  simp only [trivia?] at h
  split at h
  · obtain ⟨rfl, rfl⟩ := Prod.mk.inj (Option.some.inj h)
    simp
  · obtain ⟨⟨text', rest'⟩, hclose, he⟩ := Option.map_eq_some_iff.mp h
    obtain ⟨rfl, rfl⟩ := Prod.mk.inj he
    simp [closeComment_text hclose]
  · split_ifs at h
    obtain ⟨rfl, rfl⟩ := Prod.mk.inj (Option.some.inj h)
    simp
  · cases h

end Lexeme

namespace Token

open Lexeme

/-- Enough turns read a text to its end: more of them change nothing. -/
theorem listFrom_turns {m n offset : Nat} {cs : List Char} (hm : cs.length < m) (hn : cs.length < n) :
    listFrom m offset cs = listFrom n offset cs := by
  induction m generalizing n offset cs with
  | zero => omega
  | succ m ih =>
    obtain ⟨n, rfl⟩ : ∃ k, n = k + 1 := ⟨n - 1, by omega⟩
    rw [listFrom, listFrom]
    rcases ht : trivia? cs with _ | ⟨text, rest⟩
    · rcases hf : first? cs with _ | ⟨lexeme, rest⟩
      · rfl
      · obtain ⟨rfl, hne, -⟩ := first_head hf
        have hpos := List.length_pos_iff.mpr hne
        rw [List.length_append] at hm hn
        have hrest : listFrom m (offset + byteSize lexeme.text) rest =
            listFrom n (offset + byteSize lexeme.text) rest := ih (by omega) (by omega)
        simp only [hrest]
    · obtain ⟨rfl, hne⟩ := trivia_text ht
      have hpos := List.length_pos_iff.mpr hne
      rw [List.length_append] at hm hn
      exact ih (by omega) (by omega)

end Token

end Formula
