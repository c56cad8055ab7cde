import Formula.Proofs.GrammarSound
import Formula.Proofs.OpenBrackets

namespace Formula

open Formula.Nesting

def Token.bracket? (t : Token) : Option (Nat × Bool) :=
  match t.value with
  | .symbol (.opening _) => some (t.span.start, true)
  | .symbol (.closing _) => some (t.span.start, false)
  | _ => none

def Token.brackets (ts : List Token) : List (Nat × Bool) := ts.filterMap Token.bracket?

def Token.bracketDepth (ts : List Token) : Nat := Nesting.deepest 0 (Token.brackets ts)

def Symbol.IsPlain : Symbol → Prop
  | .opening _ | .closing _ => False
  | _ => True

namespace Token

variable {ts us : List Token} {t : Token}

theorem brackets_append : brackets (ts ++ us) = brackets ts ++ brackets us :=
  List.filterMap_append

theorem brackets_opening {b : Bracket} (h : t.value = .symbol (.opening b)) :
    brackets (t :: ts) = (t.span.start, true) :: brackets ts := by
  simp [brackets, bracket?, h]

theorem brackets_closing {b : Bracket} (h : t.value = .symbol (.closing b)) :
    brackets (t :: ts) = (t.span.start, false) :: brackets ts := by
  simp [brackets, bracket?, h]

theorem brackets_atom {a : Atom} (h : t.value = .atom a) : brackets (t :: ts) = brackets ts := by
  simp [brackets, bracket?, h]

theorem brackets_plain {s : Symbol} (h : t.value = .symbol s) (hs : s.IsPlain) :
    brackets (t :: ts) = brackets ts := by
  cases s <;> simp_all [brackets, bracket?, Symbol.IsPlain]

def IsCode (t : Token) : Prop := (∃ a, t.value = .atom a) ∨ ∃ s, t.value = .symbol s

end Token

open Token

theorem joins_brackets {ots us : List Token} {op : Placed InfixOp} (h : Joins ots us op) :
    brackets ots = [] := by
  cases h with
  | one ht _ => exact brackets_plain ht trivial
  | andNot ht hu _ =>
    rw [brackets_plain ht trivial, brackets_plain hu trivial]
    rfl

theorem joins_code {ots us : List Token} {op : Placed InfixOp} (h : Joins ots us op) :
    ∀ t ∈ ots, t.IsCode := by
  cases h with
  | one ht _ => simpa using .inr ⟨_, ht⟩
  | andNot ht hu _ => simpa using ⟨.inr ⟨_, ht⟩, .inr ⟨_, hu⟩⟩

theorem prefix_sign_plain {s : Symbol} {op : PrefixOp} (h : PrefixOp.ofSymbol? s = some op) :
    s.IsPlain := by
  cases s with
  | opening | closing => cases h
  | _ => trivial

/-- Where a form is spelled, brackets stand in pairs. -/
theorem spells_paired {next : Nat} {ts : List Token} {f : Form} (h : Spells next ts f) :
    Paired (brackets ts) := by
  induction h with
  | last _ ih | unsigned _ ih | base _ ih | onePhrase _ ih | plain _ ih | oneElement _ ih => exact ih
  | join _ hop _ ih ihr =>
    rw [brackets_append, brackets_append, joins_brackets hop]
    exact ih.append ihr
  | signed ht hs _ ih => rwa [brackets_plain ht (prefix_sign_plain hs)]
  -- Whatever stands in brackets is spelled on its own, and so is in pairs by itself.
  | index _ hl _ hr ihb ihp =>
    rw [brackets_append, brackets_opening hl, brackets_append, brackets_closing hr]
    exact ihb.append (.wrap _ _ ihp .nil)
  | atom ht | namedType ht =>
    rw [brackets_atom ht]
    exact .nil
  | group hl _ hr ih =>
    rw [brackets_opening hl, brackets_append, brackets_closing hr]
    exact .wrap _ _ ih .nil
  | call hf hl _ hr ih =>
    rw [brackets_atom hf, brackets_opening hl, brackets_append, brackets_closing hr]
    exact .wrap _ _ ih .nil
  | composite _ _ hl _ hr iht ihes =>
    rw [brackets_append, brackets_opening hl, brackets_append, brackets_closing hr]
    exact iht.append (.wrap _ _ ihes .nil)
  | noPhrase | noElement => exact .nil
  | morePhrases _ hc _ ih ihs | moreElements _ hc _ ih ihs | keyed _ hc _ ih ihs =>
    rw [brackets_append, brackets_plain hc trivial]
    exact ih.append ihs
  | mapType hw hl _ hr _ ihk ihv =>
    rw [brackets_atom hw, brackets_opening hl, brackets_append, brackets_closing hr]
    exact .wrap _ _ ihk ihv
  | sliceType hl hr _ ih =>
    rw [brackets_opening hl, brackets_closing hr]
    exact .wrap _ _ .nil ih
  | arrayType hl _ hr _ ihp ihe =>
    rw [brackets_opening hl, brackets_append, brackets_closing hr]
    exact .wrap _ _ ihp ihe
  | openArrayType hl hd hr _ ih =>
    rw [brackets_opening hl, brackets_plain hd trivial, brackets_closing hr]
    exact .wrap _ _ .nil ih
  | pointerType hm _ ih => rwa [brackets_plain hm trivial]
  | qualifiedType ht hd hu _ _ =>
    rw [brackets_atom ht, brackets_plain hd trivial, brackets_atom hu]
    exact .nil

/-- Where a form is spelled, nothing is stray. -/
theorem spells_code {next : Nat} {ts : List Token} {f : Form} (h : Spells next ts f) :
    ∀ t ∈ ts, t.IsCode := by
  have sign {t : Token} {s : Symbol} (ht : t.value = .symbol s) : t.IsCode := .inr ⟨s, ht⟩
  have atom {t : Token} {a : Atom} (ht : t.value = .atom a) : t.IsCode := .inl ⟨a, ht⟩
  induction h with
  | last _ ih | unsigned _ ih | base _ ih | onePhrase _ ih | plain _ ih | oneElement _ ih => exact ih
  | noPhrase | noElement => simp
  | join _ hop _ ih ihr =>
    have hops := joins_code hop
    grind
  | _ => grind

end Formula
