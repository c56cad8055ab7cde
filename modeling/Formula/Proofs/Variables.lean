import Formula.Proofs.BracketTokens

namespace Formula

mutual

def Phrase.variables : Phrase → List Nat
  | .last o _ => o.variables
  | .join o _ rest => o.variables ++ rest.variables

def Operand.variables : Operand → List Nat
  | .atom ⟨.name _, span⟩ => [span.start]
  | .atom _ => []
  | .group _ inner => inner.variables
  | .call _ _ args => Phrase.variablesOfAll args
  | .composite _ type elements => type.variables ++ Element.variablesOfAll elements
  | .index base position _ => base.variables ++ position.variables
  | .signed _ operand => operand.variables

def Phrase.variablesOfAll : List Phrase → List Nat
  | [] => []
  | p :: ps => p.variables ++ Phrase.variablesOfAll ps

def Element.variables : Element → List Nat
  | .plain value => value.variables
  | .keyed _ key value => key.variables ++ value.variables

def Element.variablesOfAll : List Element → List Nat
  | [] => []
  | e :: es => e.variables ++ Element.variablesOfAll es

def TypeExpr.variables : TypeExpr → List Nat
  | .map _ key value => key.variables ++ value.variables
  | .slice _ element | .openArray _ element | .pointer _ element => element.variables
  | .array _ length element => length.variables ++ element.variables
  | .qualified _ _ _ | .name _ _ => []

end

def Form.variables : Form → List Nat
  | .phrase _ p => p.variables
  | .operand o | .indexed o | .primary o => o.variables
  | .phrases ps => Phrase.variablesOfAll ps
  | .element e => e.variables
  | .elements es => Element.variablesOfAll es
  | .type t => t.variables

theorem Operand.variables_atom {a : Placed Atom} {v : Nat} (h : v ∈ (Operand.atom a).variables) :
    v = a.span.start ∧ ∃ text, a.value = .name text := by
  obtain ⟨value, span⟩ := a
  cases value with
  | name text => exact ⟨List.mem_singleton.mp h, text, rfl⟩
  | _ => cases h

/-- A variable is one of the tokens of the row, and a name. -/
theorem spells_variables {next : Nat} {ts : List Token} {f : Form} (h : Spells next ts f) :
    ∀ v ∈ f.variables, ∃ t ∈ ts, t.span.start = v ∧ ∃ text, t.value = .atom (.name text) := by
  -- Every rule but that of atoms hands on the variables of its parts, whose rows are parts of its row.
  have widen {ts us : List Token} {v : Nat} (hts : ∀ t ∈ ts, t ∈ us)
      (h : ∃ t ∈ ts, t.span.start = v ∧ ∃ text, t.value = .atom (.name text)) :
      ∃ t ∈ us, t.span.start = v ∧ ∃ text, t.value = .atom (.name text) := by
    obtain ⟨t, ht, h⟩ := h
    exact ⟨t, hts t ht, h⟩
  induction h with
  | last _ ih | unsigned _ ih | base _ ih | plain _ ih => exact ih
  | onePhrase _ ih | oneElement _ ih =>
    simpa [Form.variables, Phrase.variablesOfAll, Element.variablesOfAll] using ih
  | noPhrase | noElement => exact fun v hv => by cases hv
  | @atom next a t ht =>
    intro v hv
    obtain ⟨rfl, text, htext⟩ := Operand.variables_atom hv
    exact ⟨t, by simp, rfl, text, by rw [ht, ← htext]⟩
  | signed _ _ _ ih | pointerType _ _ ih | sliceType _ _ _ ih | openArrayType _ _ _ _ ih
  | group _ _ _ ih | call _ _ _ _ ih =>
    intro v hv
    exact widen (by simp +contextual) (ih v hv)
  | qualifiedType | namedType => exact fun v hv => by cases hv
  | join _ _ _ ih ih' | index _ _ _ _ ih ih' | composite _ _ _ _ _ ih ih' | morePhrases _ _ _ ih ih'
  | moreElements _ _ _ ih ih' | keyed _ _ _ ih ih' | mapType _ _ _ _ _ ih ih'
  | arrayType _ _ _ _ ih ih' =>
    intro v hv
    simp only [Form.variables, Phrase.variables, Operand.variables, Phrase.variablesOfAll,
      Element.variables, Element.variablesOfAll, TypeExpr.variables, List.mem_append] at hv
    rcases hv with hv | hv
    · exact widen (by simp +contextual) (ih v hv)
    · exact widen (by simp +contextual) (ih' v hv)

end Formula
