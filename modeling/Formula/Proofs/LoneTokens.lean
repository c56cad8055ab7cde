import Formula.Engine
import Formula.Proofs.BracketAgreement
import Formula.Proofs.GrammarComplete
import Formula.Proofs.LaidText
import Formula.Proofs.LiteralText

namespace Formula

open Lexeme

variable {text : List Char} {a : Atom} {limit : Nat}

theorem brackets_of_quiet (h : ∀ c ∈ text, IsQuiet c) : Nesting.brackets .code 0 text = [] := by
  have hquiet : Nesting.brackets .code 0 (text ++ []) = [] := Nesting.brackets_quiet h
  rwa [List.append_nil] at hquiet

def Built.compiled (source : String) : Except Flaw Built → Except Failure Expr
  | .error flaw => .error (flaw.inSource source)
  | .ok b => .ok b.expr

/-- A source without brackets is what its tokens are built to. -/
theorem compile_quiet (hquiet : ∀ c ∈ text, IsQuiet c) {ts : List Token} (hlaid : Laid 0 text ts)
    (hmap : NoMapType ts) {p : Phrase} (hspells : Spells (byteSize text) ts (.phrase false p)) (limit : Nat) :
    compile limit (String.ofList text) = Built.compiled (String.ofList text) (p.build limit) := by
  have hphrase : Phrase.ofTokens? (Token.list text) = some p := by
    rw [hlaid.list_eq]
    exact Phrase.ofTokens_complete rfl hmap hspells
  simp only [compile, String.toList_ofList, build, brackets_of_quiet hquiet, Nesting.firstDeeper?, hphrase]
  cases p.build limit <;> rfl

/-- A phrase of one operand is what the operand is built to, where its run of signs is not too long. -/
theorem build_last {o : Operand} (h : o.signCount = 0 ∨ o.signCount + 1 ≤ limit) (stop : Nat) :
    (Phrase.last o stop).build limit = o.build limit := by
  have hrun : ¬ (0 < o.signCount ∧ limit < o.signCount + 1) := by omega
  simp only [Phrase.build, Phrase.assemble, Phrase.runFault?, Phrase.runFault?.check, if_neg hrun, Phrase.row,
    Chain.ofRow, List.foldl_nil, Chain.fold]

/-- A name or a number that is all of a source is built from its token. -/
theorem compile_lone (hquiet : ∀ c ∈ a.text, IsQuiet c) (hread : ReadBefore (.atom a) []) (limit : Nat) :
    compile limit (String.ofList a.text) =
      Built.compiled (String.ofList a.text) (Built.atom limit ⟨a, ⟨0, byteSize a.text⟩⟩) := by
  have hlaid : Laid 0 a.text [⟨.atom a, 0, byteSize a.text⟩] := by
    have hlaid : Laid 0 _ _ := .token hread.1 hread.2 .done
    simpa only [Lexeme.text, List.append_nil, Nat.zero_add] using hlaid
  have hspells : Spells (byteSize a.text) [⟨.atom a, 0, byteSize a.text⟩]
      (.phrase false (.last (.atom ⟨a, ⟨0, byteSize a.text⟩⟩) (byteSize a.text))) :=
    .last (.unsigned (.base (.atom rfl)))
  rw [compile_quiet hquiet hlaid (List.isChain_singleton _) hspells, build_last (.inl rfl), Operand.build]

def Literal.alone (text : List Char) : Except String Literal → Except Failure Expr
  | .ok v => .ok (.constant ⟨0, byteSize text⟩ v)
  | .error detail => .error ⟨String.ofList text, .malformed, some ⟨0, byteSize text⟩, some detail⟩

/-- A literal that is all of a source is its value, or its fault is that of the source. -/
theorem compile_literal (hname : ∀ name, a ≠ .name name) (hquiet : ∀ c ∈ a.text, IsQuiet c)
    (hread : ReadBefore (.atom a) []) (hlimit : 1 ≤ limit) :
    compile limit (String.ofList a.text) = Literal.alone a.text a.value? := by
  have hatom : Built.atom limit ⟨a, ⟨0, byteSize a.text⟩⟩ =
      match a.value? with
      | .ok v => Built.above limit (.constant ⟨0, byteSize a.text⟩ v) 0
      | .error detail => .error (.malformed ⟨0, byteSize a.text⟩ detail) := by
    cases a with
    | name text => exact absurd rfl (hname text)
    | _ => rfl
  rw [compile_lone hquiet hread, hatom]
  cases a.value? with
  | ok v => simp [Built.above, Built.compiled, Literal.alone, Nat.not_lt.mpr hlimit]
  | error detail => rfl

end Formula
