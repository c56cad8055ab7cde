import Formula.Assignment
import Formula.Proofs.LoneTokens

/-!
Names of assignments and names of the grammar. An assignment may bind a name of alphabetic and numeric
characters, while an expression takes letters and decimal digits for a name, so that the two readings
agree on a name only where they agree on each of its characters. A name of both is an expression that
evaluates to the value it is bound to; a name that can only be bound is no expression.
-/

namespace Formula

open Lexeme

namespace Assignment

/-- The two kinds of characters that a name may hold agree on a text: its first character is
alphabetic exactly if it is a letter, every other one alphanumeric exactly if it is a letter or a
decimal digit. -/
def Agreed : List Char → Prop
  | [] => True
  | c :: cs => Unicode.isAlphabetic c = Unicode.isLetter c ∧
      ∀ d ∈ cs, Unicode.isAlphanumeric d = (Unicode.isLetter d || Unicode.isDecimalDigit d)

instance : DecidablePred Agreed
  | [] => .isTrue trivial
  | _ :: cs => @instDecidableAnd _ _ _ (List.decidableBAll _ cs)

abbrev Binds (name : List Char) : Prop := isName name = true

theorem binds_cons_iff {c : Char} {cs : List Char} : Binds (c :: cs) ↔
    (Unicode.isAlphabetic c = true ∨ c = '_') ∧
      ∀ d ∈ cs, Unicode.isAlphanumeric d = true ∨ d = '_' := by
  simp [Binds, isName]

theorem startsName_iff {c : Char} : startsName c = true ↔ Unicode.isLetter c = true ∨ c = '_' := by
  rw [startsName, decide_eq_true_iff, or_comm]

theorem continuesName_iff {c : Char} : continuesName c = true ↔
    (Unicode.isLetter c || Unicode.isDecimalDigit c) = true ∨ c = '_' := by
  rw [continuesName, Bool.or_eq_true, startsName_iff, Bool.or_eq_true, or_right_comm]

theorem isName_cons_iff {c : Char} {cs : List Char} : IsName (c :: cs) ↔
    (Unicode.isLetter c = true ∨ c = '_') ∧
      ∀ d ∈ cs, (Unicode.isLetter d || Unicode.isDecimalDigit d) = true ∨ d = '_' := by
  simp only [isName_iff, ← startsName_iff, ← continuesName_iff]
  constructor
  · rintro ⟨_, _, hcs, h⟩
    obtain ⟨rfl, rfl⟩ := List.cons.inj hcs
    exact h
  · exact fun h => ⟨c, cs, rfl, h⟩

/-- Where the characters are agreed on, so is the name. -/
theorem binds_iff_isName {name : List Char} (h : Agreed name) : Binds name ↔ IsName name := by
  cases name with
  | nil => exact ⟨nofun, nofun⟩
  | cons c cs =>
    obtain ⟨hc, hcs⟩ := h
    rw [binds_cons_iff, isName_cons_iff, hc]
    refine and_congr_right fun _ => forall₂_congr fun d hd => ?_
    rw [hcs d hd]

/-- On the characters of a name of both readings the two agree. -/
theorem agreed_of_names {name : List Char} (h : Binds name) (h' : IsName name) : Agreed name := by
  cases name with
  | nil => trivial
  | cons c cs =>
    rw [binds_cons_iff] at h
    rw [isName_cons_iff] at h'
    have agree (first second : Char → Bool) {d : Char} (hmark : first '_' = second '_')
        (h₁ : first d = true ∨ d = '_') (h₂ : second d = true ∨ d = '_') : first d = second d := by
      by_cases hd : d = '_'
      · rw [hd, hmark]
      · rw [h₁.resolve_right hd, h₂.resolve_right hd]
    refine ⟨agree _ _ (by decide +kernel) h.1 h'.1, fun d hd => ?_⟩
    exact agree _ (fun d => Unicode.isLetter d || Unicode.isDecimalDigit d) (by decide +kernel)
      (h.2 d hd) (h'.2 d hd)

/-- An argument with an equals sign is read on its two sides. -/
theorem read_sides {text : String} {before value : List Char}
    (htext : text.toList = before ++ '=' :: value) (hbefore : '=' ∉ before) :
    read text = if Binds (Unicode.trim before)
      then .ok (String.ofList (Unicode.trim before), valueOf (String.ofList value))
      else .error (.invalidName (String.ofList (Unicode.trim before))) := by
  have hkeep : ∀ c ∈ before, decide (c ≠ '=') = true :=
    fun c hc => decide_eq_true fun he => hbefore (he ▸ hc)
  have hname : (before ++ '=' :: value).takeWhile (· ≠ '=') = before := by
    rw [List.takeWhile_append_of_pos hkeep]
    simp
  have hrest : (before ++ '=' :: value).dropWhile (· ≠ '=') = '=' :: value := by
    rw [List.dropWhile_append_of_pos hkeep]
    simp
  simp only [read, htext, hname, hrest]

end Assignment

namespace Lexeme

def signHeads : List Char := Symbol.all.filterMap (·.text.head?)

theorem symbol_missing {c : Char} (h : c ∉ signHeads) (cs : List Char) :
    symbol? (c :: cs) = none := by
  rw [symbol?, List.findSome?_eq_none_iff]
  intro s hs
  obtain ⟨a, as, ha⟩ := List.exists_cons_of_ne_nil (symbol_text_ne_nil s)
  have hne : a ≠ c := by
    rintro rfl
    exact h (List.mem_filterMap.mpr ⟨s, hs, by rw [ha]; rfl⟩)
  rw [ha, after?, if_neg hne]
  rfl

/-- An alphanumeric character that starts neither a name nor a number is stray. -/
theorem stray_read {c : Char} (h : Unicode.isAlphanumeric c = true) (hname : startsName c = false)
    (hdigit : c.isDigit = false) (rest : List Char) : ReadBefore (.stray c) rest := by
  have hblank : c ∉ blanks := not_mem_of_kind (by decide +kernel) h
  have hsign : c ∉ signHeads := not_mem_of_kind (by decide +kernel) h
  have hmark : c ∉ ['.', '"', '\x27', '\x60'] := not_mem_of_kind (by decide +kernel) h
  rw [List.mem_cons, not_or] at hmark
  have hatom := atom_missing ⟨hname, hdigit, hmark⟩ rest
  refine ⟨trivia_missing hblank rest, ?_⟩
  change first? (c :: rest) = some (.stray c, rest)
  simp [first?, hatom, symbol_missing hsign]

end Lexeme

namespace Assignment

def digits : List Char := ['0', '1', '2', '3', '4', '5', '6', '7', '8', '9']

theorem isDigit_eq_false {c : Char} (h : c ∉ digits) : c.isDigit = false := by
  by_contra hc
  exact h (forall_digit (P := (· ∈ digits)) (by decide +kernel) (Bool.not_eq_false _ ▸ hc))

/-- The first character that is not of a kind. -/
theorem exists_first_outside {kind : Char → Bool} {cs : List Char} (h : ¬ ∀ c ∈ cs, kind c = true) :
    ∃ as d bs, cs = as ++ d :: bs ∧ (∀ a ∈ as, kind a = true) ∧ kind d = false := by
  rcases hrest : cs.dropWhile kind with _ | ⟨d, bs⟩
  · exact absurd (List.dropWhile_eq_nil_iff.mp hrest) h
  · refine ⟨cs.takeWhile kind, d, bs, ?_, fun a ha => List.mem_takeWhile_imp ha, ?_⟩
    · rw [← hrest, List.takeWhile_append_dropWhile]
    · have hhead := List.head?_dropWhile_not kind cs
      rw [hrest] at hhead
      simpa using hhead

/-- A text that can be bound only is cut at the first character that no name holds. -/
theorem stray_of_not_isName {name : List Char} (h : Binds name) (h' : ¬ IsName name) :
    ∃ c, .stray c ∈ said name := by
  cases name with
  | nil => cases h
  | cons c cs =>
    obtain ⟨hc, hcs⟩ := binds_cons_iff.mp h
    by_cases hstart : startsName c = true
    · have hout : ¬ ∀ d ∈ cs, continuesName d = true :=
        fun hall => h' (isName_iff.mpr ⟨c, cs, rfl, hstart, hall⟩)
      obtain ⟨as, d, bs, rfl, has, hd⟩ := exists_first_outside hout
      have hname : IsName (c :: as) := isName_iff.mpr ⟨c, as, rfl, hstart, has⟩
      have hmark : d ≠ '_' := by
        rintro rfl
        exact absurd hd (by decide +kernel)
      have hall : digits.all continuesName = true := by decide +kernel
      have hdigit : d ∉ digits := fun hmem => absurd (List.all_eq_true.mp hall d hmem) (by simp [hd])
      have hkind := (hcs d (by simp)).resolve_right hmark
      have hstray := stray_read hkind (Bool.or_eq_false_iff.mp hd).1 (isDigit_eq_false hdigit) bs
      have hread : ReadBefore (.atom (.name (c :: as))) (d :: bs) :=
        name_read hname (by simpa using hd)
      have hsaid : said (c :: (as ++ d :: bs)) = .atom (.name (c :: as)) :: .stray d :: said bs :=
        (said_read hread).trans (congrArg _ (said_read hstray))
      exact ⟨d, by simp [hsaid]⟩
    · rw [Bool.not_eq_true] at hstart
      have hmark : c ≠ '_' := by
        rintro rfl
        exact absurd hstart (by decide +kernel)
      have halpha := hc.resolve_right hmark
      have hdigit : c ∉ digits := not_mem_of_kind (by decide +kernel) halpha
      have hstray := stray_read (by rw [Unicode.isAlphanumeric, halpha, Bool.true_or]) hstart
        (isDigit_eq_false hdigit) cs
      have hsaid : said (c :: cs) = .stray c :: said cs := said_read hstray
      exact ⟨c, by simp [hsaid]⟩

/-- What can be bound holds no brackets, quotes or slashes. -/
theorem binds_quiet {name : List Char} (h : Binds name) : ∀ c ∈ name, IsQuiet c := by
  cases name with
  | nil => exact nofun
  | cons c cs =>
    obtain ⟨hc, hcs⟩ := binds_cons_iff.mp h
    have quiet {d : Char} (hd : Unicode.isAlphanumeric d = true ∨ d = '_') : IsQuiet d := by
      rcases hd with hd | rfl
      · exact not_mem_of_kind (by decide +kernel) hd
      · decide
    refine List.forall_mem_cons.mpr ⟨quiet (hc.imp_left fun hc => ?_), fun d hd => quiet (hcs d hd)⟩
    rw [Unicode.isAlphanumeric, hc, Bool.true_or]

/-- A text that can be bound only is no expression. -/
theorem compile_stray {name : List Char} (h : Binds name) (h' : ¬ IsName name) (limit : Nat) :
    ∃ failure, compile limit (String.ofList name) = .error failure ∧ failure.kind = .malformed := by
  obtain ⟨c, hc⟩ := stray_of_not_isName h h'
  have hnone : Phrase.ofTokens? (Token.list name) = none := by
    rw [Option.eq_none_iff_forall_ne_some]
    intro p hp
    obtain ⟨t, ht, hvalue⟩ := List.mem_map.mp hc
    rcases (Nesting.tokens_of_phrase hp).1 t ht with hcode | hfinish
    · exact hcode.no_stray c hvalue
    · cases hvalue.symm.trans hfinish
  have hbuild : build limit name = .error (unreadable name (Token.list name)) := by
    simp only [build, brackets_of_quiet (binds_quiet h), Nesting.firstDeeper?, hnone]
  exact ⟨_, by rw [compile, String.toList_ofList, hbuild], rfl⟩

/-- A name is an expression by itself. -/
theorem compile_name {name : List Char} (h : IsName name) {limit : Nat} (hlimit : 1 ≤ limit) :
    compile limit (String.ofList name) = .ok (.ident ⟨0, byteSize name⟩ (String.ofList name)) := by
  have hquiet := (cuts_name name name [] h).2.2
  have hlone := compile_lone (a := .name name) hquiet (name_read h (by simp)) limit
  simpa [Built.atom, Built.above, Built.compiled, Nat.not_lt.mpr hlimit, Atom.text] using hlone

/-- No text is bound to an error. -/
theorem valueOf_ne_err (text : String) (cause : String) : valueOf text ≠ .err cause := by
  rw [valueOf]
  split_ifs <;> exact nofun

/-- A name evaluates to the value that it alone is bound to. -/
theorem evaluate_name {name : List Char} (h : IsName name) (value : String) {e : Engine}
    (he : 1 ≤ e.maxDepth) :
    ∃ c, e.compile (String.ofList name) = .ok c ∧
      c.evaluate (NameMap.ofList [(String.ofList name, valueOf value)]) = .ok (valueOf value) := by
  refine ⟨⟨String.ofList name, _, e.functions⟩, by rw [Engine.compile, compile_name h he]; rfl, ?_⟩
  have hget : (NameMap.ofList [(String.ofList name, valueOf value)]).get? (String.ofList name) =
      some (valueOf value) := by
    rw [NameMap.get_ofList]
    simp
  have hlookup : Expr.lookup ⟨NameMap.ofList [(String.ofList name, valueOf value)], e.functions⟩
      ⟨0, byteSize name⟩ (String.ofList name) = pure (valueOf value) := by
    rw [Expr.lookup, hget]
    cases hv : valueOf value with
    | err cause => exact absurd hv (valueOf_ne_err value cause)
    | _ => rfl
  simp only [Compiled.evaluate, Compiled.evaluation, Expr.value, Expr.evaluate, hlookup]
  rfl

/-- An argument with an equals sign binds the trimmed text before the first one, or is refused for it.
For a text that may be bound, and for a name of the grammar, the two readings of names give the same
answer exactly if they agree on its characters. If they do, the name that is bound is an expression,
which evaluates to the value; otherwise it is malformed under every limit. -/
theorem assigned_names_usable {text : String} {before value : List Char} {e : Engine}
    (htext : text.toList = before ++ '=' :: value) (hbefore : '=' ∉ before)
    (he : 1 ≤ e.maxDepth) :
    let name := Unicode.trim before
    ((read text).isOk = true ∨ IsName name →
      (((read text).isOk = true ↔ IsName name) ↔ Agreed name)) ∧
    ((read text).isOk = false → read text = .error (.invalidName (String.ofList name))) ∧
    ∀ bound v, read text = .ok (bound, v) →
      bound = String.ofList name ∧ v = valueOf (String.ofList value) ∧
      (Agreed name → ∃ c, e.compile bound = .ok c ∧ c.evaluate (NameMap.ofList [(bound, v)]) = .ok v) ∧
      (¬ Agreed name → ∃ failure, e.compile bound = .error failure ∧ failure.kind = .malformed) := by
  intro name
  rw [read_sides htext hbefore]
  by_cases hbinds : Binds name
  · rw [if_pos hbinds]
    have hagree : IsName name ↔ Agreed name :=
      ⟨agreed_of_names hbinds, fun hagreed => (binds_iff_isName hagreed).mp hbinds⟩
    refine ⟨fun _ => ?_, nofun, fun bound v hread => ?_⟩
    · simpa [Except.isOk, Except.toBool] using hagree
    · obtain ⟨rfl, rfl⟩ := Prod.mk.inj (Except.ok.inj hread)
      refine ⟨rfl, rfl, fun hagreed => evaluate_name (hagree.mpr hagreed) _ he, fun hnot => ?_⟩
      obtain ⟨failure, hfailure, hkind⟩ := compile_stray hbinds (mt hagree.mp hnot) e.maxDepth
      exact ⟨failure, by rw [Engine.compile, hfailure]; rfl, hkind⟩
  · rw [if_neg hbinds]
    refine ⟨fun hname => ?_, fun _ => rfl, fun bound v hread => by cases hread⟩
    have hname := hname.resolve_left (by simp [Except.isOk, Except.toBool])
    have hnot : ¬ Agreed name := fun hagreed => hbinds ((binds_iff_isName hagreed).mpr hname)
    simp [Except.isOk, Except.toBool, hname, hnot]

/-- A name with blanks around it, and a value with an equals sign of its own. -/
theorem assigned_names_usable_trimmed :
    read " größe2 =a=b" = .ok ("größe2", .str "a=b") ∧
      ∃ c, Engine.standard.compile "größe2" = .ok c ∧
        c.evaluate (NameMap.ofList [("größe2", .str "a=b")]) = .ok (.str "a=b") := by
  have hread : read " größe2 =a=b" = .ok ("größe2", .str "a=b") := by decide +kernel
  have hsides : " größe2 =a=b".toList = " größe2 ".toList ++ '=' :: "a=b".toList := by decide
  obtain ⟨-, -, hbound⟩ :=
    assigned_names_usable (e := Engine.standard) hsides (by decide) (by decide)
  exact ⟨hread, (hbound _ _ hread).2.2.1 (by decide +kernel)⟩

/-- A circled letter is alphabetic but no letter: it can be bound, and is no expression. -/
theorem circled_letter_no_expression :
    read "ⓐ=1" = .ok ("ⓐ", .str "1") ∧ ¬ IsName ['ⓐ'] ∧
      ∃ failure, Engine.standard.compile "ⓐ" = .error failure ∧ failure.kind = .malformed := by
  have hread : read "ⓐ=1" = .ok ("ⓐ", .str "1") := by decide +kernel
  have hbinds : Binds ['ⓐ'] := by decide +kernel
  have hname : ¬ IsName ['ⓐ'] := by decide +kernel
  obtain ⟨failure, hfailure, hkind⟩ := compile_stray hbinds hname Engine.standard.maxDepth
  exact ⟨hread, hname, failure, by rw [Engine.compile, hfailure]; rfl, hkind⟩

end Assignment

end Formula
