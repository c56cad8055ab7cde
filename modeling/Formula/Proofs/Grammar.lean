import Formula.Phrase.Reading

/-!
The grammar of phrases as a relation between rows of tokens and what they spell, without an order
of choices and without a limit on nesting. Every rule of it is stated once, and what a phrase stops
at depends on the token after its row alone.
-/

namespace Formula

/-- What a row of tokens may spell. A phrase that is `joined` stands behind an operator. -/
inductive Form
  | phrase (joined : Bool) (p : Phrase)
  | operand (o : Operand)
  | indexed (o : Operand)
  | primary (o : Operand)
  | phrases (ps : List Phrase)
  | element (e : Element)
  | elements (es : List Element)
  | type (t : TypeExpr)

def TypeExpr.IsComposite : TypeExpr → Prop
  | .map _ _ _ | .slice _ _ | .array _ _ _ | .openArray _ _ => True
  | _ => False

def Token.Touches (t u : Token) : Prop := t.span.stop = u.span.start

inductive Joins : List Token → List Token → Placed InfixOp → Prop
  | one {t : Token} {us : List Token} {op : InfixOp} (ht : t.value = .symbol (.op op))
      (hb : op = .band → ∀ u ∈ us.head?, u.value = .symbol (.op .bxor) → ¬ t.Touches u) :
      Joins [t] us ⟨op, t.span⟩
  | andNot {t u : Token} {us : List Token} (ht : t.value = .symbol (.op .band))
      (hu : u.value = .symbol (.op .bxor)) (hs : t.Touches u) :
      Joins [t, u] us ⟨.andNot, t.span.cover u.span⟩

/-- Whether a row is an operator before others depends on the first token of them alone. -/
theorem joins_append_iff {ots us rest : List Token} {op : Placed InfixOp} (hus : us ≠ []) :
    Joins ots (us ++ rest) op ↔ Joins ots us op := by
  obtain ⟨u, us', rfl⟩ := List.exists_cons_of_ne_nil hus
  constructor
  all_goals
    intro h
    cases h with
    | one ht hb => exact .one ht hb
    | andNot ht hu hs => exact .andNot ht hu hs

/-- The last stop of a phrase. Behind an operator an index keeps its end; otherwise what stands
before the next token belongs to the phrase. -/
def Operand.lastStop (o : Operand) (joined : Bool) (next : Nat) : Nat :=
  if joined then o.indexStop?.getD next else next

open Formula.Parser in
/-- A row of tokens spells a form, given the offset of the token after the row. -/
inductive Spells : Nat → List Token → Form → Prop
  | last {next ts joined o} (h : Spells next ts (.operand o)) :
      Spells next ts (.phrase joined (.last o (o.lastStop joined next)))
  | join {next ts ots us joined o op rest} (h : Spells (startOf ots) ts (.operand o))
      (hop : Joins ots us op) (hr : Spells next us (.phrase true rest)) :
      Spells next (ts ++ (ots ++ us)) (.phrase joined (.join o op rest))
  | signed {next ts o op} {t : Token} {s : Symbol} (ht : t.value = .symbol s)
      (hs : PrefixOp.ofSymbol? s = some op) (h : Spells next ts (.operand o)) :
      Spells next (t :: ts) (.operand (.signed ⟨op, t.span⟩ o))
  | unsigned {next ts o} (h : Spells next ts (.indexed o)) : Spells next ts (.operand o)
  | base {next ts o} (h : Spells next ts (.primary o)) : Spells next ts (.indexed o)
  | index {next ts us b p} {l r : Token} (hb : Spells l.span.start ts (.indexed b))
      (hl : l.value = .symbol (.opening .square)) (hp : Spells r.span.start us (.phrase false p))
      (hr : r.value = .symbol (.closing .square)) :
      Spells next (ts ++ l :: (us ++ [r])) (.indexed (.index b p r.span.stop))
  | atom {next a} {t : Token} (ht : t.value = .atom a) :
      Spells next [t] (.primary (.atom ⟨a, t.span⟩))
  | group {next ts p} {l r : Token} (hl : l.value = .symbol (.opening .round))
      (hp : Spells r.span.start ts (.phrase false p)) (hr : r.value = .symbol (.closing .round)) :
      Spells next (l :: (ts ++ [r])) (.primary (.group (l.span.cover r.span) p))
  | call {next ts ps text} {f l r : Token} (hf : f.value = .atom (.name text))
      (hl : l.value = .symbol (.opening .round)) (hps : Spells r.span.start ts (.phrases ps))
      (hr : r.value = .symbol (.closing .round)) :
      Spells next (f :: l :: (ts ++ [r])) (.primary (.call (f.span.cover r.span) text ps))
  | composite {next ts us t es} {l r : Token} (ht : Spells l.span.start ts (.type t))
      (hc : t.IsComposite) (hl : l.value = .symbol (.opening .curly))
      (hes : Spells r.span.start us (.elements es)) (hr : r.value = .symbol (.closing .curly)) :
      Spells next (ts ++ l :: (us ++ [r]))
        (.primary (.composite ⟨startOf ts, r.span.stop⟩ t es))
  | noPhrase {next} : Spells next [] (.phrases [])
  | onePhrase {next ts p} (h : Spells next ts (.phrase false p)) : Spells next ts (.phrases [p])
  | morePhrases {next ts us p ps} {c : Token} (h : Spells c.span.start ts (.phrase false p))
      (hc : c.value = .symbol .comma) (hs : Spells next us (.phrases ps)) :
      Spells next (ts ++ c :: us) (.phrases (p :: ps))
  | plain {next ts p} (h : Spells next ts (.phrase false p)) : Spells next ts (.element (.plain p))
  | keyed {next ts us k v} {c : Token} (hk : Spells c.span.start ts (.phrase false k))
      (hc : c.value = .symbol .colon) (hv : Spells next us (.phrase false v)) :
      Spells next (ts ++ c :: us) (.element (.keyed ⟨startOf ts, v.stop⟩ k v))
  | noElement {next} : Spells next [] (.elements [])
  | oneElement {next ts e} (h : Spells next ts (.element e)) : Spells next ts (.elements [e])
  | moreElements {next ts us e es} {c : Token} (h : Spells c.span.start ts (.element e))
      (hc : c.value = .symbol .comma) (hs : Spells next us (.elements es)) :
      Spells next (ts ++ c :: us) (.elements (e :: es))
  | mapType {next ts us k v} {w l r : Token} (hw : w.value = .atom (.name "map".toList))
      (hl : l.value = .symbol (.opening .square)) (hk : Spells r.span.start ts (.type k))
      (hr : r.value = .symbol (.closing .square)) (hv : Spells next us (.type v)) :
      Spells next (w :: l :: (ts ++ r :: us)) (.type (.map (w.span.cover v.span) k v))
  | sliceType {next ts e} {l r : Token} (hl : l.value = .symbol (.opening .square))
      (hr : r.value = .symbol (.closing .square)) (he : Spells next ts (.type e)) :
      Spells next (l :: r :: ts) (.type (.slice (l.span.cover e.span) e))
  | arrayType {next ts us p e} {l r : Token} (hl : l.value = .symbol (.opening .square))
      (hp : Spells r.span.start ts (.phrase false p)) (hr : r.value = .symbol (.closing .square))
      (he : Spells next us (.type e)) :
      Spells next (l :: (ts ++ r :: us)) (.type (.array (l.span.cover e.span) p e))
  | openArrayType {next ts e} {l d r : Token} (hl : l.value = .symbol (.opening .square))
      (hd : d.value = .symbol .ellipsis) (hr : r.value = .symbol (.closing .square))
      (he : Spells next ts (.type e)) :
      Spells next (l :: d :: r :: ts) (.type (.openArray (l.span.cover e.span) e))
  | pointerType {next ts e} {m : Token} (hm : m.value = .symbol (.op .mul))
      (he : Spells next ts (.type e)) :
      Spells next (m :: ts) (.type (.pointer (m.span.cover e.span) e))
  | qualifiedType {next a b} {t d u : Token} (ht : t.value = .atom (.name a))
      (hd : d.value = .symbol .dot) (hu : u.value = .atom (.name b)) (htd : t.Touches d)
      (hdu : d.Touches u) :
      Spells next [t, d, u] (.type (.qualified (t.span.cover u.span) a b))
  | namedType {next text} {t : Token} (ht : t.value = .atom (.name text)) :
      Spells next [t] (.type (.name t.span text))

namespace Spells

def MayBeEmpty : Form → Prop
  | .phrases ps => ps = []
  | .elements es => es = []
  | _ => False

theorem mayBeEmpty {next : Nat} {ts : List Token} {f : Form} (h : Spells next ts f)
    (hts : ts = []) : MayBeEmpty f := by
  induction h with
  | last _ ih => exact ih hts
  | join _ _ _ ih _ => exact ih (List.append_eq_nil_iff.mp hts).1
  | unsigned _ ih => exact ih hts
  | base _ ih => exact ih hts
  | noPhrase => rfl
  | onePhrase _ ih => exact (ih hts).elim
  | plain _ ih => exact ih hts
  | noElement => rfl
  | oneElement _ ih => exact (ih hts).elim
  | _ => simp at hts

theorem ne_nil {next : Nat} {ts : List Token} {f : Form} (h : Spells next ts f)
    (hf : ¬ MayBeEmpty f) : ts ≠ [] :=
  fun hts => hf (h.mayBeEmpty hts)

end Spells

end Formula
