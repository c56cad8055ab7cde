import Formula.Proofs.TokenText

namespace Formula

open Lexeme

def said (cs : List Char) : List Lexeme := (Token.list cs).map (·.value)

theorem values_listFrom (turns a b : Nat) (cs : List Char) :
    (Token.listFrom turns a cs).map (·.value) = (Token.listFrom turns b cs).map (·.value) := by
  induction turns generalizing a b cs with
  | zero => rfl
  | succ turns ih =>
    rw [Token.listFrom, Token.listFrom]
    rcases trivia? cs with _ | ⟨text, rest⟩
    · rcases first? cs with _ | ⟨lexeme, rest⟩
      · rfl
      · simp only [List.map_cons, ih _ (b + byteSize lexeme.text) rest]
    · exact ih _ _ rest

/-- The offset of a text and further turns make no difference to what is said. -/
theorem said_eq {turns offset : Nat} {cs : List Char} (h : cs.length < turns) :
    (Token.listFrom turns offset cs).map (·.value) = said cs := by
  rw [said, Token.list, Token.listFrom_turns h (Nat.lt_succ_self cs.length),
    values_listFrom _ offset 0]

/-- A text says no more lexemes than it has characters, but for the mark of the end. -/
theorem length_said_le (cs : List Char) : (said cs).length ≤ cs.length + 1 := by
  -- Every turn takes at least one character, whether it gives a lexeme or not.
  have counted : ∀ turns offset cs,
      (Token.listFrom turns offset cs).length ≤ cs.length + 1 := by
    intro turns
    induction turns with
    | zero => exact fun _ _ => Nat.le_add_left 1 _
    | succ turns ih =>
      intro offset cs
      rw [Token.listFrom]
      rcases ht : trivia? cs with _ | ⟨text, rest⟩
      · rcases hf : first? cs with _ | ⟨lexeme, rest⟩
        · exact Nat.le_add_left 1 _
        · obtain ⟨rfl, hne, -⟩ := first_head hf
          have hpos := List.length_pos_iff.mpr hne
          have hle := ih (offset + byteSize lexeme.text) rest
          simp only [List.length_cons, List.length_append]
          omega
      · obtain ⟨rfl, -⟩ := trivia_text ht
        have hle := ih (offset + byteSize text) rest
        simp only [List.length_append]
        omega
  rw [said, List.length_map]
  exact counted _ _ _

theorem said_nil : said [] = [.finish] := rfl

theorem length_lt_of_cut {cs text rest : List Char} (h : cs = text ++ rest) (hne : text ≠ []) :
    rest.length < cs.length := by
  have hpos := List.length_pos_iff.mpr hne
  rw [h, List.length_append]
  omega

theorem said_trivia {cs text rest : List Char} (h : trivia? cs = some (text, rest)) :
    said cs = said rest := by
  obtain ⟨hcs, hne⟩ := trivia_text h
  rw [said, Token.list, Token.listFrom]
  simp only [h]
  exact said_eq (length_lt_of_cut hcs hne)

theorem said_lexeme {cs rest : List Char} {l : Lexeme} (ht : trivia? cs = none)
    (hf : first? cs = some (l, rest)) : said cs = l :: said rest := by
  obtain ⟨hcs, hne, -⟩ := first_head hf
  rw [said, Token.list, Token.listFrom]
  simp only [ht, hf, List.map_cons, said_eq (length_lt_of_cut hcs hne)]

theorem said_blank (cs : List Char) : said (' ' :: cs) = said cs :=
  said_trivia (by rfl)

def Parted (cs : List Char) : Prop := cs = [] ∨ ∃ tail, cs = ' ' :: tail

/-- A lexeme is read from its own text, whatever stands behind it that may. -/
def ReadBefore (l : Lexeme) (rest : List Char) : Prop :=
  trivia? (l.text ++ rest) = none ∧ first? (l.text ++ rest) = some (l, rest)

theorem said_read {l : Lexeme} {rest : List Char} (h : ReadBefore l rest) :
    said (l.text ++ rest) = l :: said rest :=
  said_lexeme h.1 h.2

def StartsNoAtom (c : Char) : Prop :=
  startsName c = false ∧ c.isDigit = false ∧ c ≠ '.' ∧ c ∉ ['"', '\x27', '\x60']

instance : DecidablePred StartsNoAtom := fun _ => inferInstanceAs (Decidable (_ ∧ _ ∧ _ ∧ _))

theorem atom_missing {c : Char} (h : StartsNoAtom c) (cs : List Char) : atom? (c :: cs) = none := by
  obtain ⟨hname, hdigit, hpoint, hquote⟩ := h
  have hzero : c ≠ '0' := by
    rintro rfl
    exact absurd hdigit (by decide)
  simp only [List.mem_cons, List.not_mem_nil, or_false, not_or] at hquote
  have hfloat : float? (c :: cs) = none := by
    simp [float?, decimals?, hdigit, hpoint]
  have hint : int? (c :: cs) = none := by
    simp [int?, marked?, oldOctal?, plain?, decimals?, hdigit, hzero]
  simp [atom?, name?, hname, hfloat, hint, quoted?, hquote]

theorem first_atom {cs rest : List Char} {a : Atom} (h : atom? cs = some (a, rest)) :
    first? cs = some (.atom a, rest) := by
  simp [first?, h]

theorem first_symbol {c : Char} (h : StartsNoAtom c) {cs rest : List Char} {s : Symbol}
    (hs : symbol? (c :: cs) = some (s, rest)) : first? (c :: cs) = some (.symbol s, rest) := by
  simp [first?, atom_missing h, hs]

/-- A bracket is read whatever stands behind it. -/
theorem opening_read (b : Bracket) (rest : List Char) :
    ReadBefore (.symbol (.opening b)) rest := by
  cases b <;> exact ⟨rfl, first_symbol (by decide +kernel) rfl⟩

theorem closing_read (b : Bracket) (rest : List Char) :
    ReadBefore (.symbol (.closing b)) rest := by
  cases b <;> exact ⟨rfl, first_symbol (by decide +kernel) rfl⟩

theorem comma_read (rest : List Char) : ReadBefore (.symbol .comma) rest :=
  ⟨rfl, first_symbol (by decide +kernel) rfl⟩

theorem star_read (rest : List Char) : ReadBefore (.symbol (.op .mul)) rest :=
  ⟨rfl, first_symbol (by decide +kernel) rfl⟩

/-- An operator is read where a blank or nothing stands behind it. -/
theorem op_read (o : InfixOp) (ho : o ≠ .andNot) {rest : List Char} (h : Parted rest) :
    ReadBefore (.symbol (.op o)) rest := by
  rcases h with rfl | ⟨tail, rfl⟩
  · cases o <;> first | exact absurd rfl ho | exact ⟨rfl, first_symbol (by decide +kernel) rfl⟩
  · cases o <;> first | exact absurd rfl ho | exact ⟨rfl, first_symbol (by decide +kernel) rfl⟩

theorem bang_read {rest : List Char} (h : Parted rest) : ReadBefore (.symbol .bang) rest := by
  rcases h with rfl | ⟨tail, rfl⟩ <;> exact ⟨rfl, first_symbol (by decide +kernel) rfl⟩

end Formula
