import Formula.Proofs.BracketAgreement
import Formula.Proofs.DepthLimit

/-!
Operators that are written and operators that are looked at. The grammar takes every operator of its
table, and those without a meaning are refused when a tree is built. The length of an array type is
never built, so that its operators are never looked at.
-/

namespace Formula

/-- An operator sign in its role: between operands, before an operand, or as the mark of a pointer
type, which is no operator. -/
inductive Mark
  | between (op : InfixOp)
  | before (op : PrefixOp)
  | pointer

def PrefixOp.symbol : PrefixOp → Symbol
  | inc => .op .inc
  | dec => .op .dec
  | neg => .op .sub
  | not => .bang
  | pos => .op .add
  | bitNot => .op .bxor
  | deref => .op .mul
  | addrOf => .op .band
  | recv => .op .arrow

theorem PrefixOp.symbol_ofSymbol {s : Symbol} {op : PrefixOp} (h : ofSymbol? s = some op) :
    op.symbol = s := by
  revert h
  fun_cases ofSymbol? s with
  | case10 => exact fun h => nomatch h
  | _ =>
    intro h
    obtain rfl := Option.some.inj h
    rfl

namespace Mark

def signs : Mark → List Symbol
  | between .andNot => [.op .band, .op .bxor]
  | between op => [.op op]
  | before op => [op.symbol]
  | pointer => [.op .mul]

/-- The operators that may be used: minus and negation, the four kinds of arithmetic, comparisons, and
the two operators on truth values. The mark of a pointer type is none. -/
def Supported : Mark → Prop
  | between op => op ∈ [.add, .sub, .mul, .div, .eq, .ne, .lt, .le, .gt, .ge, .land, .lor]
  | before op => op ∈ [.neg, .not]
  | pointer => True

instance : DecidablePred Supported
  | between op => inferInstanceAs (Decidable (op ∈ _))
  | before op => inferInstanceAs (Decidable (op ∈ _))
  | pointer => .isTrue trivial

theorem supported_between (op : InfixOp) : (between op).Supported ↔ op.meaning? ≠ none := by
  cases op <;> decide

theorem supported_before (op : PrefixOp) : (before op).Supported ↔ op.meaning? ≠ none := by
  cases op <;> decide

end Mark

mutual

def Phrase.marks (types : Bool) : Phrase → List Mark
  | .last o _ => o.marks types
  | .join o op rest => o.marks types ++ .between op.value :: rest.marks types

def Operand.marks (types : Bool) : Operand → List Mark
  | .atom _ => []
  | .group _ inner => inner.marks types
  | .call _ _ args => Phrase.marksOfAll types args
  | .composite _ type elements =>
    (if types then type.marks else []) ++ Element.marksOfAll types elements
  | .index base position _ => base.marks types ++ position.marks types
  | .signed op operand => .before op.value :: operand.marks types

def Phrase.marksOfAll (types : Bool) : List Phrase → List Mark
  | [] => []
  | p :: ps => p.marks types ++ Phrase.marksOfAll types ps

def Element.marks (types : Bool) : Element → List Mark
  | .plain value => value.marks types
  | .keyed _ key value => key.marks types ++ value.marks types

def Element.marksOfAll (types : Bool) : List Element → List Mark
  | [] => []
  | e :: es => e.marks types ++ Element.marksOfAll types es

def TypeExpr.marks : TypeExpr → List Mark
  | .map _ key value => key.marks ++ value.marks
  | .slice _ element | .openArray _ element => element.marks
  | .array _ length element => length.marks true ++ element.marks
  | .pointer _ target => .pointer :: target.marks
  | .qualified _ _ _ | .name _ _ => []

end

mutual

def Phrase.lengths : Phrase → List Phrase
  | .last o _ => o.lengths
  | .join o _ rest => o.lengths ++ rest.lengths

def Operand.lengths : Operand → List Phrase
  | .atom _ => []
  | .group _ inner => inner.lengths
  | .call _ _ args => Phrase.lengthsOfAll args
  | .composite _ type elements => type.lengths ++ Element.lengthsOfAll elements
  | .index base position _ => base.lengths ++ position.lengths
  | .signed _ operand => operand.lengths

def Phrase.lengthsOfAll : List Phrase → List Phrase
  | [] => []
  | p :: ps => p.lengths ++ Phrase.lengthsOfAll ps

def Element.lengths : Element → List Phrase
  | .plain value => value.lengths
  | .keyed _ key value => key.lengths ++ value.lengths

def Element.lengthsOfAll : List Element → List Phrase
  | [] => []
  | e :: es => e.lengths ++ Element.lengthsOfAll es

def TypeExpr.lengths : TypeExpr → List Phrase
  | .map _ key value => key.lengths ++ value.lengths
  | .slice _ element | .openArray _ element | .pointer _ element => element.lengths
  | .array _ length element => length :: element.lengths
  | .qualified _ _ _ | .name _ _ => []

end

section Signs

def Token.operatorSign? (t : Token) : Option Symbol :=
  match t.value with
  | .symbol (.op op) => some (.op op)
  | .symbol .bang => some .bang
  | _ => none

def Token.operatorSigns (ts : List Token) : List Symbol := ts.filterMap Token.operatorSign?

def Form.marks : Form → List Mark
  | .phrase _ p => p.marks true
  | .operand o | .indexed o | .primary o => o.marks true
  | .phrases ps => Phrase.marksOfAll true ps
  | .element e => e.marks true
  | .elements es => Element.marksOfAll true es
  | .type t => t.marks

@[simp] theorem signs_nil : Token.operatorSigns [] = [] := rfl

theorem signs_append (ts us : List Token) :
    Token.operatorSigns (ts ++ us) = Token.operatorSigns ts ++ Token.operatorSigns us :=
  List.filterMap_append

theorem signs_cons (t : Token) (ts : List Token) :
    Token.operatorSigns (t :: ts) = t.operatorSign?.toList ++ Token.operatorSigns ts := by
  rcases h : t.operatorSign? with _ | s <;> simp [Token.operatorSigns, h]

theorem joins_signs {ots us : List Token} {op : Placed InfixOp} (h : Joins ots us op)
    (hus : ∀ t ∈ ots, t.value ≠ .symbol (.op .andNot)) :
    Token.operatorSigns ots = (Mark.between op.value).signs := by
  cases h with
  | @one t us op ht _ =>
    have hne : op ≠ .andNot := fun h => hus t (by simp) (by rw [ht, h])
    cases op <;> simp_all [Token.operatorSigns, Token.operatorSign?, Mark.signs]
  | andNot ht hu _ => simp [Token.operatorSigns, Token.operatorSign?, Mark.signs, ht, hu]

theorem prefix_sign {t : Token} {s : Symbol} {op : PrefixOp} (ht : t.value = .symbol s)
    (hs : PrefixOp.ofSymbol? s = some op) : t.operatorSign? = some op.symbol := by
  obtain rfl := PrefixOp.symbol_ofSymbol hs
  cases op <;> simp [Token.operatorSign?, ht, PrefixOp.symbol]

/-- The operator signs of a row are those of the marks of what it spells. The operator of two characters
is cut as two signs, so no token says it. -/
theorem spells_signs {next : Nat} {ts : List Token} {f : Form} (h : Spells next ts f)
    (hts : ∀ t ∈ ts, t.value ≠ .symbol (.op .andNot)) :
    Token.operatorSigns ts = f.marks.flatMap Mark.signs := by
  induction h with
  | last _ ih | unsigned _ ih | base _ ih | plain _ ih => exact ih hts
  | onePhrase _ ih | oneElement _ ih =>
    rw [ih hts]
    simp [Form.marks, Phrase.marksOfAll, Element.marksOfAll]
  | noPhrase | noElement => rfl
  | @join next ts ots us joined o op rest h hop hr ih ihr =>
    simp only [List.forall_mem_append] at hts
    rw [signs_append, signs_append, ih hts.1, joins_signs hop hts.2.1, ihr hts.2.2]
    simp [Form.marks, Phrase.marks]
  | @signed next ts o op t s ht hs h ih =>
    rw [signs_cons, prefix_sign ht hs, ih (List.forall_mem_cons.mp hts).2]
    rfl
  | index _ hl _ hr ihb ihp =>
    simp only [List.forall_mem_append, List.forall_mem_cons] at hts
    simp [signs_append, signs_cons, Token.operatorSign?, hl, hr, ihb hts.1, ihp hts.2.2.1, Form.marks,
      Operand.marks]
  | atom ht => simp [signs_cons, Token.operatorSign?, ht, Form.marks, Operand.marks]
  | group hl _ hr ih =>
    simp only [List.forall_mem_append, List.forall_mem_cons] at hts
    simp [signs_append, signs_cons, Token.operatorSign?, hl, hr, ih hts.2.1, Form.marks, Operand.marks]
  | call hf hl _ hr ih =>
    simp only [List.forall_mem_append, List.forall_mem_cons] at hts
    simp [signs_append, signs_cons, Token.operatorSign?, hf, hl, hr, ih hts.2.2.1, Form.marks,
      Operand.marks]
  | composite _ _ hl _ hr iht ihes =>
    simp only [List.forall_mem_append, List.forall_mem_cons] at hts
    simp [signs_append, signs_cons, Token.operatorSign?, hl, hr, iht hts.1, ihes hts.2.2.1, Form.marks,
      Operand.marks]
  | morePhrases _ hc _ ih ihs | moreElements _ hc _ ih ihs | keyed _ hc _ ih ihs =>
    simp only [List.forall_mem_append, List.forall_mem_cons] at hts
    simp [signs_append, signs_cons, Token.operatorSign?, hc, ih hts.1, ihs hts.2.2, Form.marks,
      Phrase.marksOfAll, Element.marksOfAll, Element.marks]
  | mapType hw hl _ hr _ ihk ihv =>
    simp only [List.forall_mem_append, List.forall_mem_cons] at hts
    simp [signs_append, signs_cons, Token.operatorSign?, hw, hl, hr, ihk hts.2.2.1, ihv hts.2.2.2.2,
      Form.marks, TypeExpr.marks]
  | sliceType hl hr _ ih =>
    simp only [List.forall_mem_cons] at hts
    simp [signs_cons, Token.operatorSign?, hl, hr, ih hts.2.2, Form.marks, TypeExpr.marks]
  | arrayType hl _ hr _ ihp ihe =>
    simp only [List.forall_mem_append, List.forall_mem_cons] at hts
    simp [signs_append, signs_cons, Token.operatorSign?, hl, hr, ihp hts.2.1, ihe hts.2.2.2, Form.marks,
      TypeExpr.marks]
  | openArrayType hl hd hr _ ih =>
    simp only [List.forall_mem_cons] at hts
    simp [signs_cons, Token.operatorSign?, hl, hd, hr, ih hts.2.2.2, Form.marks, TypeExpr.marks]
  | pointerType hm _ ih =>
    simp [signs_cons, Token.operatorSign?, hm, ih (List.forall_mem_cons.mp hts).2, Form.marks,
      TypeExpr.marks, Mark.signs]
  | qualifiedType ht hd hu _ _ =>
    simp [signs_cons, Token.operatorSign?, ht, hd, hu, Form.marks, TypeExpr.marks]
  | namedType ht => simp [signs_cons, Token.operatorSign?, ht, Form.marks, TypeExpr.marks]

/-- No token says the operator of two characters that is cut as two signs. -/
theorem list_no_andNot (cs : List Char) :
    ∀ t ∈ Token.list cs, t.value ≠ .symbol (.op .andNot) := by
  intro t ht hv
  have hall : Symbol.op .andNot ∉ Symbol.all := by decide
  rcases Nesting.mem_listFrom ht with hfinish | ⟨cs, rest, hf⟩
  · rw [hv] at hfinish
    cases hfinish
  · rw [hv] at hf
    simp only [Lexeme.first?, Option.orElse_eq_orElse, Option.orElse_eq_or, Option.or_eq_some_iff,
      Option.map_eq_some_iff] at hf
    rcases hf with ⟨⟨a, rest'⟩, -, he⟩ | ⟨-, ⟨⟨s, rest'⟩, hs, he⟩ | ⟨-, hf⟩⟩
    · cases he
    · obtain ⟨s', hmem, hs⟩ := List.exists_of_findSome?_eq_some hs
      obtain ⟨rest'', -, hpair⟩ := Option.map_eq_some_iff.mp hs
      obtain ⟨rfl, -⟩ := Prod.mk.inj hpair
      obtain ⟨hop, -⟩ := Prod.mk.inj he
      cases hop
      exact hall hmem
    · split at hf <;> cases hf

end Signs

namespace Chain

variable {ω β ε : Type}

/-- Where a tree is joined, all its operands were given and all its operators have joined. -/
theorem fold_eq_ok {join : β → ω → β → Except ε β} {c : Chain ω (Except ε β)} {b : β}
    (h : c.fold join = .ok b) :
    c.All (fun a => ∃ x, a = .ok x) ∧ ∀ o ∈ c.operators, ∃ l r x, join l o r = .ok x := by
  induction c generalizing b with
  | leaf a => exact ⟨⟨b, h⟩, by simp [operators, toRow]⟩
  | node left op right ihl ihr =>
    rw [fold_node] at h
    obtain ⟨l, hl, h⟩ := bind_eq_ok.mp h
    obtain ⟨r, hr, h⟩ := bind_eq_ok.mp h
    obtain ⟨hleft, hlops⟩ := ihl hl
    obtain ⟨hright, hrops⟩ := ihr hr
    refine ⟨⟨hleft, hright⟩, ?_⟩
    rw [operators_node]
    intro o ho
    rcases List.mem_append.mp ho with ho | ho
    · exact hlops o ho
    · rcases List.mem_cons.mp ho with rfl | ho
      · exact ⟨l, r, b, h⟩
      · exact hrops o ho

end Chain

namespace Built

theorem supported_of_join {limit : Nat} {l r b : Built} {op : Placed InfixOp}
    (h : join limit l op r = .ok b) : (Mark.between op.value).Supported := by
  rw [Mark.supported_between]
  intro hnone
  simp [join, hnone] at h

theorem supported_of_sign {limit : Nat} {op : Placed PrefixOp} {operand : Operand} {built b : Built}
    (h : sign limit op operand built = .ok b) : (Mark.before op.value).Supported := by
  rw [Mark.supported_before]
  intro hnone
  simp [sign, hnone] at h

end Built

/-- The marks of a phrase are those of its operands, and the operators between them. -/
theorem Phrase.forall_marks_iff {types : Bool} {P : Mark → Prop} (p : Phrase) :
    (∀ m ∈ p.marks types, P m) ↔
      p.AllOperands (fun o => ∀ m ∈ o.marks types, P m) ∧
        ∀ pair ∈ p.operands.2, P (.between pair.1.value) := by
  induction p using row_induction with
  | last o stop => simp [marks, AllOperands, operands]
  | join o op rest ih =>
    rw [allOperands_join, marks, List.forall_mem_append, List.forall_mem_cons, ih, operands,
      List.forall_mem_cons]
    tauto

/-- A phrase that is assembled has only operands that are built, with supported operators between
them. -/
theorem Phrase.of_assemble {limit : Nat} {p : Phrase} {b : Built}
    (h : p.assemble limit (p.row limit) = .ok b) :
    p.AllOperands (fun o => ∃ x, o.build limit = .ok x) ∧
      ∀ pair ∈ p.operands.2, (Mark.between pair.1.value).Supported := by
  rw [assemble] at h
  split at h
  · cases h
  · obtain ⟨hall, hops⟩ := Chain.fold_eq_ok h
    rw [row_eq, Chain.all_ofRow] at hall
    refine ⟨⟨hall.1, fun pair hpair => hall.2 _ (List.mem_map_of_mem hpair)⟩, fun pair hpair => ?_⟩
    have hmem : pair.1 ∈ (Chain.ofRow (fun op : Placed InfixOp => op.value.precedence)
        (p.row limit).1 (p.row limit).2).operators := by
      rw [Chain.operators, Chain.toRow_ofRow, row_eq]
      simpa using ⟨pair.2, hpair⟩
    obtain ⟨l, r, x, hjoin⟩ := hops _ hmem
    exact Built.supported_of_join hjoin

mutual

/-- What is built has supported operators outside of types alone. -/
theorem Phrase.supported_of_build {limit : Nat} : ∀ (p : Phrase) (b : Built),
    p.assemble limit (p.row limit) = .ok b → ∀ m ∈ p.marks false, m.Supported
  | p, b, h => by
    obtain ⟨hoperands, hops⟩ := Phrase.of_assemble h
    rw [Phrase.forall_marks_iff]
    exact ⟨Phrase.supported_of_operands p hoperands, hops⟩

theorem Phrase.supported_of_operands {limit : Nat} : ∀ p : Phrase,
    p.AllOperands (fun o => ∃ x, o.build limit = .ok x) →
      p.AllOperands fun o => ∀ m ∈ o.marks false, m.Supported
  | .last o _, h => ⟨Operand.supported_of_build o h.1.choose h.1.choose_spec, fun _ h => nomatch h⟩
  | .join o op rest, h => by
    rw [Phrase.allOperands_join] at h ⊢
    exact ⟨Operand.supported_of_build o h.1.choose h.1.choose_spec,
      Phrase.supported_of_operands rest h.2⟩

theorem Operand.supported_of_build {limit : Nat} : ∀ (o : Operand) (b : Built),
    o.build limit = .ok b → ∀ m ∈ o.marks false, m.Supported
  | .atom _, _, _ => fun _ h => nomatch h
  | .group _ inner, b, h => by
    rw [Operand.build] at h
    obtain ⟨x, hx, -⟩ := bind_eq_ok.mp h
    exact Phrase.supported_of_build inner x hx
  | .call _ _ args, b, h => by
    rw [Operand.build] at h
    obtain ⟨xs, hxs, -⟩ := bind_eq_ok.mp h
    exact Phrase.supported_of_buildAll args xs hxs
  | .composite _ type elements, b, h => by
    rw [Operand.build] at h
    split at h
    · cases h
    · obtain ⟨xs, hxs, -⟩ := bind_eq_ok.mp h
      exact Element.supported_of_buildAll elements xs hxs
  | .index base position _, b, h => by
    rw [Operand.build] at h
    obtain ⟨x, hx, h⟩ := bind_eq_ok.mp h
    obtain ⟨y, hy, -⟩ := bind_eq_ok.mp h
    rw [Operand.marks, List.forall_mem_append]
    exact ⟨Operand.supported_of_build base x hx, Phrase.supported_of_build position y hy⟩
  | .signed op operand, b, h => by
    rw [Operand.build] at h
    obtain ⟨x, hx, h⟩ := bind_eq_ok.mp h
    rw [Operand.marks, List.forall_mem_cons]
    exact ⟨Built.supported_of_sign h, Operand.supported_of_build operand x hx⟩

theorem Phrase.supported_of_buildAll {limit : Nat} : ∀ (ps : List Phrase) (bs : List Built),
    Phrase.buildAll limit ps = .ok bs → ∀ m ∈ Phrase.marksOfAll false ps, m.Supported
  | [], _, _ => fun _ h => nomatch h
  | p :: ps, bs, h => by
    obtain ⟨x, xs, hx, hxs, -⟩ := Phrase.buildAll_cons.mp h
    rw [Phrase.marksOfAll, List.forall_mem_append]
    exact ⟨Phrase.supported_of_build p x hx, Phrase.supported_of_buildAll ps xs hxs⟩

theorem Element.supported_of_buildAll {limit : Nat} : ∀ (es : List Element) (bs : List Built),
    Element.buildAll limit es = .ok bs → ∀ m ∈ Element.marksOfAll false es, m.Supported
  | [], _, _ => fun _ h => nomatch h
  | .keyed _ _ _ :: _, _, h => by
    rw [Element.buildAll, Element.build] at h
    cases h
  | .plain value :: es, bs, h => by
    obtain ⟨x, xs, hx, hxs, -⟩ := Element.buildAll_cons.mp h
    rw [Element.marksOfAll, Element.marks, List.forall_mem_append]
    exact ⟨Phrase.supported_of_build value x hx, Element.supported_of_buildAll es xs hxs⟩

end

mutual

/-- Everywhere is outside of types and in the lengths of array types: the marks that are left are those
of pointer types. -/
theorem Phrase.forall_marks_split : ∀ p : Phrase,
    (∀ m ∈ p.marks true, m.Supported) ↔
      (∀ m ∈ p.marks false, m.Supported) ∧ ∀ q ∈ p.lengths, ∀ m ∈ q.marks true, m.Supported
  | .last o _ => by
    simp only [Phrase.marks, Phrase.lengths]
    exact Operand.forall_marks_split o
  | .join o op rest => by
    simp only [Phrase.marks, Phrase.lengths, List.forall_mem_append, List.forall_mem_cons,
      Operand.forall_marks_split o, Phrase.forall_marks_split rest]
    tauto

theorem Operand.forall_marks_split : ∀ o : Operand,
    (∀ m ∈ o.marks true, m.Supported) ↔
      (∀ m ∈ o.marks false, m.Supported) ∧ ∀ q ∈ o.lengths, ∀ m ∈ q.marks true, m.Supported
  | .atom _ => by simp [Operand.marks, Operand.lengths]
  | .group _ inner => by
    simp only [Operand.marks, Operand.lengths]
    exact Phrase.forall_marks_split inner
  | .call _ _ args => by
    simp only [Operand.marks, Operand.lengths]
    exact Phrase.forall_marksOfAll_split args
  | .composite _ type elements => by
    simp only [Operand.marks, Operand.lengths, List.forall_mem_append, if_true,
      TypeExpr.forall_marks_split type, Element.forall_marksOfAll_split elements]
    simp only [Bool.false_eq_true, if_false, List.not_mem_nil, false_imp_iff, implies_true, true_and]
    tauto
  | .index base position _ => by
    simp only [Operand.marks, Operand.lengths, List.forall_mem_append,
      Operand.forall_marks_split base, Phrase.forall_marks_split position]
    tauto
  | .signed op operand => by
    simp only [Operand.marks, Operand.lengths, List.forall_mem_cons, Operand.forall_marks_split operand,
      and_assoc]

theorem Phrase.forall_marksOfAll_split : ∀ ps : List Phrase,
    (∀ m ∈ Phrase.marksOfAll true ps, m.Supported) ↔
      (∀ m ∈ Phrase.marksOfAll false ps, m.Supported) ∧
        ∀ q ∈ Phrase.lengthsOfAll ps, ∀ m ∈ q.marks true, m.Supported
  | [] => by simp [Phrase.marksOfAll, Phrase.lengthsOfAll]
  | p :: ps => by
    simp only [Phrase.marksOfAll, Phrase.lengthsOfAll, List.forall_mem_append,
      Phrase.forall_marks_split p, Phrase.forall_marksOfAll_split ps]
    tauto

theorem Element.forall_marksOfAll_split : ∀ es : List Element,
    (∀ m ∈ Element.marksOfAll true es, m.Supported) ↔
      (∀ m ∈ Element.marksOfAll false es, m.Supported) ∧
        ∀ q ∈ Element.lengthsOfAll es, ∀ m ∈ q.marks true, m.Supported
  | [] => by simp [Element.marksOfAll, Element.lengthsOfAll]
  | .plain value :: es => by
    simp only [Element.marksOfAll, Element.marks, Element.lengthsOfAll, Element.lengths,
      List.forall_mem_append, Phrase.forall_marks_split value, Element.forall_marksOfAll_split es]
    tauto
  | .keyed _ key value :: es => by
    simp only [Element.marksOfAll, Element.marks, Element.lengthsOfAll, Element.lengths,
      List.forall_mem_append, Phrase.forall_marks_split key, Phrase.forall_marks_split value,
      Element.forall_marksOfAll_split es]
    tauto

theorem TypeExpr.forall_marks_split : ∀ t : TypeExpr,
    (∀ m ∈ t.marks, m.Supported) ↔ ∀ q ∈ t.lengths, ∀ m ∈ q.marks true, m.Supported
  | .map _ key value => by
    simp only [TypeExpr.marks, TypeExpr.lengths, List.forall_mem_append,
      TypeExpr.forall_marks_split key, TypeExpr.forall_marks_split value]
  | .slice _ element | .openArray _ element => by
    simp only [TypeExpr.marks, TypeExpr.lengths]
    exact TypeExpr.forall_marks_split element
  | .array _ length element => by
    simp only [TypeExpr.marks, TypeExpr.lengths, List.forall_mem_append, List.forall_mem_cons,
      TypeExpr.forall_marks_split element]
  | .pointer _ target => by
    simp only [TypeExpr.marks, TypeExpr.lengths, List.forall_mem_cons, TypeExpr.forall_marks_split target]
    exact and_iff_right trivial
  | .qualified _ _ _ | .name _ _ => by simp [TypeExpr.marks, TypeExpr.lengths]

end

/-- A tree of a source is one that its phrase makes under the limit. -/
theorem build_of_compile {limit : Nat} {source : String} {p : Phrase} {e : Expr}
    (hp : Phrase.ofTokens? (Token.list source.toList) = some p) (h : compile limit source = .ok e) :
    ∃ b, p.build limit = .ok b ∧ b.expr = e := by
  obtain ⟨b, hb, he⟩ := compile_eq_ok.mp h
  rw [build] at hb
  split at hb
  · cases hb
  · simp only [hp] at hb
    exact ⟨b, hb, he⟩

/-- The operator signs of a source that the grammar matches are those of the marks of its phrase. It
compiles only if the operators outside the lengths of array types are supported, and where it does, all
its operators are exactly when those inside the lengths are: these are never looked at. -/
theorem operators_supported_iff {source : String} {p : Phrase}
    (hp : Phrase.ofTokens? (Token.list source.toList) = some p) :
    Token.operatorSigns (Token.list source.toList) = (p.marks true).flatMap Mark.signs ∧
    (∀ limit e, compile limit source = .ok e →
      (∀ m ∈ p.marks false, m.Supported) ∧
      ((∀ m ∈ p.marks true, m.Supported) ↔ ∀ q ∈ p.lengths, ∀ m ∈ q.marks true, m.Supported)) ∧
    ((∃ m ∈ p.marks false, ¬ m.Supported) → ∀ limit, ∃ failure,
      compile limit source = .error failure) := by
  have supported : ∀ limit e, compile limit source = .ok e → ∀ m ∈ p.marks false, m.Supported := by
    intro limit e h
    obtain ⟨b, hb, -⟩ := build_of_compile hp h
    exact Phrase.supported_of_build p b hb
  refine ⟨?_, fun limit e h => ⟨supported limit e h, ?_⟩, ?_⟩
  · obtain ⟨-, us, e, hlist, he, hspells⟩ := Nesting.tokens_of_phrase hp
    have hsigns := list_no_andNot source.toList
    rw [hlist] at hsigns ⊢
    have hus : Token.operatorSigns us = (p.marks true).flatMap Mark.signs :=
      spells_signs hspells fun t ht => hsigns t (List.mem_append_left _ ht)
    rw [signs_append, signs_cons, hus, Token.operatorSign?, he]
    simp
  · rw [Phrase.forall_marks_split p, and_iff_right (supported limit e h)]
  · rintro ⟨m, hm, hnot⟩ limit
    cases h : compile limit source with
    | error failure => exact ⟨failure, rfl⟩
    | ok e => exact absurd (supported limit e h m hm) hnot

/-- Signs before operands, arithmetic, comparisons and operators on truth values, and an array whose
length divides. -/
theorem operators_of_comparison :
    ∃ p e, Phrase.ofTokens? (Token.list "!ok && -[4 / 2]lit{1, b}[0] * 2 <= c + 1".toList) = some p ∧
      compile 500 "!ok && -[4 / 2]lit{1, b}[0] * 2 <= c + 1" = .ok e ∧
      ∀ m ∈ p.marks true, m.Supported := by
  obtain ⟨p, hp⟩ : ∃ p, Phrase.ofTokens?
      (Token.list "!ok && -[4 / 2]lit{1, b}[0] * 2 <= c + 1".toList) = some p :=
    Option.isSome_iff_exists.mp (by decide +kernel)
  obtain ⟨e, he⟩ : ∃ e, compile 500 "!ok && -[4 / 2]lit{1, b}[0] * 2 <= c + 1" = .ok e :=
    exists_ok (by decide +kernel)
  have hlengths : ((Phrase.ofTokens?
      (Token.list "!ok && -[4 / 2]lit{1, b}[0] * 2 <= c + 1".toList)).all fun p =>
        p.lengths.all fun q => (q.marks true).all fun m => decide m.Supported) = true := by
    decide +kernel
  rw [hp] at hlengths
  refine ⟨p, e, hp, he, (((operators_supported_iff hp).2.1 500 e he).2).mpr ?_⟩
  simpa using hlengths

/-- An operator without a meaning in the length of an array is not refused. -/
theorem unsupported_operator_compiles :
    ∃ p e, Phrase.ofTokens? (Token.list "[1 % 2]lit{7}[0]".toList) = some p ∧
      compile 500 "[1 % 2]lit{7}[0]" = .ok e ∧ ∃ m ∈ p.marks true, ¬ m.Supported := by
  obtain ⟨p, hp⟩ : ∃ p, Phrase.ofTokens? (Token.list "[1 % 2]lit{7}[0]".toList) = some p :=
    Option.isSome_iff_exists.mp (by decide +kernel)
  obtain ⟨e, he⟩ : ∃ e, compile 500 "[1 % 2]lit{7}[0]" = .ok e := exists_ok (by decide +kernel)
  have hmark : ((Phrase.ofTokens? (Token.list "[1 % 2]lit{7}[0]".toList)).any fun p =>
      (p.marks true).any fun m => !decide m.Supported) = true := by decide +kernel
  rw [hp] at hmark
  exact ⟨p, e, hp, he, by simpa using hmark⟩

end Formula
