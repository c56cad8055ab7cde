import Formula.Proofs.BracketTokens

/-!
How deep the grammar's rules nest. Brackets and runs of types bound the nesting from above, and runs
of types bound it from below.
-/

namespace Formula

mutual

def Phrase.ruleDepth : Phrase → Nat
  | .last o _ => o.ruleDepth + 1
  | .join o _ rest => max (max o.ruleDepth 1 + 1) rest.ruleDepth

def Operand.ruleDepth : Operand → Nat
  | .atom _ => 1
  | .group _ inner => inner.ruleDepth + 1
  | .call _ _ args => max 1 (Phrase.ruleDepths args) + 1
  | .composite _ type elements => max type.ruleDepth (Element.ruleDepths elements) + 1
  | .index base position _ => max base.ruleDepth (position.ruleDepth + 1)
  | .signed _ operand => max 1 operand.ruleDepth

def Phrase.ruleDepths : List Phrase → Nat
  | [] => 0
  | p :: ps => max p.ruleDepth (Phrase.ruleDepths ps)

def Element.ruleDepths : List Element → Nat
  | [] => 0
  | e :: es => max e.ruleDepth (Element.ruleDepths es)

def Element.ruleDepth : Element → Nat
  | .plain value => value.ruleDepth + 1
  | .keyed _ key value => max key.ruleDepth value.ruleDepth + 1

/-- How deep rules nest in a type. A type inside another is one rule for any type and one for its
kind. -/
def TypeExpr.ruleDepth : TypeExpr → Nat
  | .map _ key value => max (key.ruleDepth + 1) (value.ruleDepth + 1) + 1
  | .slice _ element => element.ruleDepth + 2
  | .array _ length element => max length.ruleDepth (element.ruleDepth + 1) + 1
  | .openArray _ element => max 1 (element.ruleDepth + 1) + 1
  | .pointer _ target => target.ruleDepth + 2
  | .qualified _ _ _ | .name _ _ => 1

end

def TypeExpr.run : TypeExpr → Nat
  | .map _ _ value => value.run + 1
  | .slice _ element | .array _ _ element | .openArray _ element => element.run + 1
  | .pointer _ target => target.run + 1
  | .qualified _ _ _ | .name _ _ => 0

mutual

def Phrase.typeRun : Phrase → Nat
  | .last o _ => o.typeRun
  | .join o _ rest => max o.typeRun rest.typeRun

def Operand.typeRun : Operand → Nat
  | .atom _ => 0
  | .group _ inner => inner.typeRun
  | .call _ _ args => Phrase.typeRuns args
  | .composite _ type elements => max type.typeRun (Element.typeRuns elements)
  | .index base position _ => max base.typeRun position.typeRun
  | .signed _ operand => operand.typeRun

def Phrase.typeRuns : List Phrase → Nat
  | [] => 0
  | p :: ps => max p.typeRun (Phrase.typeRuns ps)

def Element.typeRuns : List Element → Nat
  | [] => 0
  | e :: es => max e.typeRun (Element.typeRuns es)

def Element.typeRun : Element → Nat
  | .plain value => value.typeRun
  | .keyed _ key value => max key.typeRun value.typeRun

def TypeExpr.typeRun : TypeExpr → Nat
  | .map _ key value => max (value.run + 1) (max key.typeRun value.typeRun)
  | .slice _ element | .openArray _ element => max (element.run + 1) element.typeRun
  | .array _ length element => max (element.run + 1) (max length.typeRun element.typeRun)
  | .pointer _ target => max (target.run + 1) target.typeRun
  | .qualified _ _ _ | .name _ _ => 0

end

theorem TypeExpr.run_le_typeRun (t : TypeExpr) : t.run ≤ t.typeRun := by
  cases t <;> simp only [run, typeRun] <;> omega

theorem TypeExpr.run_lt_ruleDepth : ∀ t : TypeExpr, t.run < t.ruleDepth
  | .map _ _ v | .slice _ v | .array _ _ v | .openArray _ v | .pointer _ v => by
    have ih := run_lt_ruleDepth v
    simp only [run, ruleDepth]
    omega
  | .qualified _ _ _ | .name _ _ => Nat.zero_lt_one

mutual

/-- Runs of types are no longer than rules nest. -/
theorem Phrase.typeRun_le : ∀ p : Phrase, p.typeRun ≤ p.ruleDepth
  | .last o _ => by
    have ho := Operand.typeRun_le o
    simp only [Phrase.typeRun, Phrase.ruleDepth]
    omega
  | .join o _ rest => by
    have ho := Operand.typeRun_le o
    have hrest := Phrase.typeRun_le rest
    simp only [Phrase.typeRun, Phrase.ruleDepth]
    omega

theorem Operand.typeRun_le : ∀ o : Operand, o.typeRun ≤ o.ruleDepth
  | .atom _ => Nat.zero_le _
  | .group _ inner => by
    have hinner := Phrase.typeRun_le inner
    simp only [Operand.typeRun, Operand.ruleDepth]
    omega
  | .call _ _ args => by
    have hargs := Phrase.typeRuns_le args
    simp only [Operand.typeRun, Operand.ruleDepth]
    omega
  | .composite _ type elements => by
    have htype := TypeExpr.typeRun_le type
    have helements := Element.typeRuns_le elements
    simp only [Operand.typeRun, Operand.ruleDepth]
    omega
  | .index base position _ => by
    have hbase := Operand.typeRun_le base
    have hposition := Phrase.typeRun_le position
    simp only [Operand.typeRun, Operand.ruleDepth]
    omega
  | .signed _ operand => by
    have ho := Operand.typeRun_le operand
    simp only [Operand.typeRun, Operand.ruleDepth]
    omega

theorem Phrase.typeRuns_le : ∀ ps : List Phrase, Phrase.typeRuns ps ≤ Phrase.ruleDepths ps
  | [] => Nat.le_refl _
  | p :: ps => by
    have hp := Phrase.typeRun_le p
    have hps := Phrase.typeRuns_le ps
    simp only [Phrase.typeRuns, Phrase.ruleDepths]
    omega

theorem Element.typeRuns_le : ∀ es : List Element, Element.typeRuns es ≤ Element.ruleDepths es
  | [] => Nat.le_refl _
  | e :: es => by
    have he := Element.typeRun_le e
    have hes := Element.typeRuns_le es
    simp only [Element.typeRuns, Element.ruleDepths]
    omega

theorem Element.typeRun_le : ∀ e : Element, e.typeRun ≤ e.ruleDepth
  | .plain value => by
    have hvalue := Phrase.typeRun_le value
    simp only [Element.typeRun, Element.ruleDepth]
    omega
  | .keyed _ key value => by
    have hkey := Phrase.typeRun_le key
    have hvalue := Phrase.typeRun_le value
    simp only [Element.typeRun, Element.ruleDepth]
    omega

theorem TypeExpr.typeRun_le : ∀ t : TypeExpr, t.typeRun ≤ t.ruleDepth
  | .map _ key value => by
    have hkey := TypeExpr.typeRun_le key
    have hvalue := TypeExpr.typeRun_le value
    have hrun := TypeExpr.run_lt_ruleDepth value
    simp only [TypeExpr.typeRun, TypeExpr.ruleDepth]
    omega
  | .slice _ element | .openArray _ element | .pointer _ element => by
    have helement := TypeExpr.typeRun_le element
    have hrun := TypeExpr.run_lt_ruleDepth element
    simp only [TypeExpr.typeRun, TypeExpr.ruleDepth]
    omega
  | .array _ length element => by
    have hlength := Phrase.typeRun_le length
    have helement := TypeExpr.typeRun_le element
    have hrun := TypeExpr.run_lt_ruleDepth element
    simp only [TypeExpr.typeRun, TypeExpr.ruleDepth]
    omega
  | .qualified _ _ _ | .name _ _ => Nat.zero_le _

end

def Form.ruleDepth : Form → Nat
  | .phrase _ p => p.ruleDepth
  | .operand o | .indexed o | .primary o => o.ruleDepth
  | .phrases ps => Phrase.ruleDepths ps
  | .element e => e.ruleDepth
  | .elements es => Element.ruleDepths es
  | .type t => t.ruleDepth

def Form.typeRun : Form → Nat
  | .phrase _ p => p.typeRun
  | .operand o | .indexed o | .primary o => o.typeRun
  | .phrases ps => Phrase.typeRuns ps
  | .element e => e.typeRun
  | .elements es => Element.typeRuns es
  | .type t => t.typeRun

/-- How deep rules may nest in a form outside of all brackets, where runs of types are no longer than
`R`. -/
def Form.allowance (R : Nat) : Form → Nat
  | .phrase _ _ | .phrases _ => 2 * R + 3
  | .operand _ | .indexed _ | .primary _ => 2 * R + 2
  | .element _ | .elements _ => 2 * R + 4
  | .type t => 2 * t.run + 1

section BracketDepth

open Token

variable {next : Nat} {ts us : List Token} {f : Form} {t l r : Token}

theorem bracketDepth_nil : bracketDepth [] = 0 := rfl

theorem bracketDepth_append (h : Spells next ts f) :
    bracketDepth (ts ++ us) = max (bracketDepth ts) (bracketDepth us) := by
  rw [bracketDepth, brackets_append, (spells_paired h).deepest_append, Nat.zero_add]
  rfl

theorem bracketDepth_atom {a : Atom} (h : t.value = .atom a) :
    bracketDepth (t :: ts) = bracketDepth ts := by rw [bracketDepth, brackets_atom h]; rfl

theorem bracketDepth_sign {s : Symbol} (h : t.value = .symbol s) (hs : s.IsPlain) :
    bracketDepth (t :: ts) = bracketDepth ts := by rw [bracketDepth, brackets_plain h hs]; rfl

theorem bracketDepth_joins {op : Placed InfixOp} {vs : List Token} (h : Joins us vs op) :
    bracketDepth (us ++ ts) = bracketDepth ts := by
  rw [bracketDepth, brackets_append, joins_brackets h]
  rfl

/-- A row in brackets is one level deeper. -/
theorem bracketDepth_wrap {a b : Bracket} (hl : l.value = .symbol (.opening a))
    (h : Spells next ts f) (hr : r.value = .symbol (.closing b)) :
    bracketDepth (l :: (ts ++ r :: us)) = max (bracketDepth ts + 1) (bracketDepth us) := by
  rw [bracketDepth, brackets_opening hl, brackets_append, brackets_closing hr,
    (spells_paired h).deepest_wrap]
  rfl

theorem bracketDepth_pair {a b : Bracket} (hl : l.value = .symbol (.opening a))
    (hr : r.value = .symbol (.closing b)) :
    bracketDepth (l :: r :: us) = max 1 (bracketDepth us) := by
  rw [bracketDepth, brackets_opening hl, brackets_closing hr]
  exact Nesting.Paired.nil.deepest_wrap _ _

theorem bracketDepth_ellipsis {a b : Bracket} (hl : l.value = .symbol (.opening a))
    (ht : t.value = .symbol .ellipsis) (hr : r.value = .symbol (.closing b)) :
    bracketDepth (l :: t :: r :: us) = max 1 (bracketDepth us) := by
  rw [bracketDepth, brackets_opening hl, brackets_plain ht trivial, brackets_closing hr]
  exact Nesting.Paired.nil.deepest_wrap _ _

end BracketDepth

/-- Every level of brackets is a level of rules. -/
theorem spells_bracketDepth_le {next : Nat} {ts : List Token} {f : Form} (h : Spells next ts f) :
    Token.bracketDepth ts ≤ f.ruleDepth := by
  induction h with
  | last _ ih =>
    simp only [Form.ruleDepth, Phrase.ruleDepth] at ih ⊢
    omega
  | join h hop _ ih ihr =>
    rw [bracketDepth_append h, bracketDepth_joins hop]
    simp only [Form.ruleDepth, Phrase.ruleDepth] at ih ihr ⊢
    omega
  | signed ht hs _ ih =>
    rw [bracketDepth_sign ht (prefix_sign_plain hs)]
    simp only [Form.ruleDepth, Operand.ruleDepth] at ih ⊢
    omega
  | unsigned _ ih | base _ ih => exact ih
  | index hb hl hp hr ihb ihp =>
    rw [bracketDepth_append hb, bracketDepth_wrap hl hp hr, bracketDepth_nil]
    simp only [Form.ruleDepth, Operand.ruleDepth] at ihb ihp ⊢
    omega
  | atom ht | namedType ht =>
    rw [bracketDepth_atom ht]
    exact Nat.zero_le _
  | group hl hp hr ih =>
    rw [bracketDepth_wrap hl hp hr, bracketDepth_nil]
    simp only [Form.ruleDepth, Operand.ruleDepth] at ih ⊢
    omega
  | call hf hl hps hr ih =>
    rw [bracketDepth_atom hf, bracketDepth_wrap hl hps hr, bracketDepth_nil]
    simp only [Form.ruleDepth, Operand.ruleDepth] at ih ⊢
    omega
  | composite ht _ hl hes hr iht ihes =>
    rw [bracketDepth_append ht, bracketDepth_wrap hl hes hr, bracketDepth_nil]
    simp only [Form.ruleDepth, Operand.ruleDepth] at iht ihes ⊢
    omega
  | noPhrase | noElement => exact Nat.zero_le _
  | onePhrase _ ih | oneElement _ ih =>
    simp only [Form.ruleDepth, Phrase.ruleDepths, Element.ruleDepths] at ih ⊢
    omega
  | morePhrases h hc _ ih ihs | moreElements h hc _ ih ihs =>
    rw [bracketDepth_append h, bracketDepth_sign hc trivial]
    simp only [Form.ruleDepth, Phrase.ruleDepths, Element.ruleDepths] at ih ihs ⊢
    omega
  | plain _ ih =>
    simp only [Form.ruleDepth, Element.ruleDepth] at ih ⊢
    omega
  | keyed hk hc _ ihk ihv =>
    rw [bracketDepth_append hk, bracketDepth_sign hc trivial]
    simp only [Form.ruleDepth, Element.ruleDepth] at ihk ihv ⊢
    omega
  | mapType hw hl hk hr _ ihk ihv =>
    rw [bracketDepth_atom hw, bracketDepth_wrap hl hk hr]
    simp only [Form.ruleDepth, TypeExpr.ruleDepth] at ihk ihv ⊢
    omega
  | sliceType hl hr _ ih =>
    rw [bracketDepth_pair hl hr]
    simp only [Form.ruleDepth, TypeExpr.ruleDepth] at ih ⊢
    omega
  | arrayType hl hp hr _ ihp ihe =>
    rw [bracketDepth_wrap hl hp hr]
    simp only [Form.ruleDepth, TypeExpr.ruleDepth] at ihp ihe ⊢
    omega
  | openArrayType hl hd hr _ ih =>
    rw [bracketDepth_ellipsis hl hd hr]
    simp only [Form.ruleDepth, TypeExpr.ruleDepth] at ih ⊢
    omega
  | pointerType hm _ ih =>
    rw [bracketDepth_sign hm trivial]
    simp only [Form.ruleDepth, TypeExpr.ruleDepth] at ih ⊢
    omega
  | qualifiedType ht hd hu _ _ =>
    rw [bracketDepth_atom ht, bracketDepth_sign hd trivial, bracketDepth_atom hu]
    exact Nat.zero_le _

/-- What stands in brackets has one level less, which makes room for the rules around it. -/
theorem room_inside (K : Nat) {m n : Nat} (h : m + 1 ≤ n) :
    ∃ k, n = k + 1 ∧ m ≤ k ∧ n * K = k * K + K :=
  ⟨n - 1, by omega, by omega, by rw [← Nat.add_one_mul, Nat.sub_add_cancel (by omega)]⟩

structure Form.Within (R next : Nat) (ts : List Token) (f : Form) : Prop where
  spelled : Spells next ts f
  le {N : Nat} (hR : f.typeRun ≤ R) (hN : Token.bracketDepth ts ≤ N) :
    f.ruleDepth ≤ f.allowance R + N * (2 * R + 3)

namespace Form.Within

open Formula.Parser (startOf)

variable {R next : Nat} {ts us : List Token} {l c m e : Token} {o b : Operand} {p k v : Phrase} {t u : TypeExpr}

theorem last (joined : Bool) (h : (operand o).Within R next ts) :
    (phrase joined (.last o (o.lastStop joined next))).Within R next ts := by
  refine ⟨.last h.spelled, fun hR hN => ?_⟩
  have hle := h.le hR hN
  simp only [ruleDepth, allowance, Phrase.ruleDepth] at hle ⊢
  omega

theorem join {ots : List Token} {joined : Bool} {op : Placed InfixOp}
    (h : (operand o).Within R (startOf ots) ts) (hop : Joins ots us op) (hp : (phrase true p).Within R next us) :
    (phrase joined (.join o op p)).Within R next (ts ++ (ots ++ us)) := by
  refine ⟨.join h.spelled hop hp.spelled, fun {N} hR hN => ?_⟩
  rw [bracketDepth_append h.spelled, bracketDepth_joins hop] at hN
  obtain ⟨ho, hrest⟩ := Nat.max_le.mp hR
  have hle := h.le (N := N) ho (by omega)
  have hler := hp.le (N := N) hrest (by omega)
  simp only [ruleDepth, allowance, Phrase.ruleDepth] at hle hler ⊢
  omega

theorem signed {op : PrefixOp} {s : Symbol} (hm : m.value = .symbol s) (hs : PrefixOp.ofSymbol? s = some op)
    (h : (operand o).Within R next ts) : (operand (.signed ⟨op, m.span⟩ o)).Within R next (m :: ts) := by
  refine ⟨.signed hm hs h.spelled, fun hR hN => ?_⟩
  rw [bracketDepth_sign hm (prefix_sign_plain hs)] at hN
  have hle := h.le hR hN
  simp only [ruleDepth, allowance, Operand.ruleDepth] at hle ⊢
  omega

/-- Only the position stands in brackets; it starts over with a whole allowance and has a level less. -/
theorem index (h : (indexed b).Within R l.span.start ts) (hl : l.value = .symbol (.opening .square))
    (hp : (phrase false p).Within R e.span.start us) (he : e.value = .symbol (.closing .square)) :
    (indexed (.index b p e.span.stop)).Within R next (ts ++ l :: (us ++ [e])) := by
  refine ⟨.index h.spelled hl hp.spelled he, fun {N} hR hN => ?_⟩
  rw [bracketDepth_append h.spelled, bracketDepth_wrap hl hp.spelled he, bracketDepth_nil] at hN
  obtain ⟨k, hk, hin, hroom⟩ := room_inside (2 * R + 3) (m := Token.bracketDepth us) (n := N) (by omega)
  obtain ⟨hb, hposition⟩ := Nat.max_le.mp hR
  have hbase := h.le (N := N) hb (by omega)
  have hposition := hp.le hposition hin
  simp only [ruleDepth, allowance, Operand.ruleDepth] at hbase hposition ⊢
  omega

theorem atom {a : Atom} (hm : m.value = .atom a) : (primary (.atom ⟨a, m.span⟩)).Within R next [m] := by
  refine ⟨.atom hm, fun hR hN => ?_⟩
  simp only [ruleDepth, allowance, Operand.ruleDepth]
  omega

theorem group (hl : l.value = .symbol (.opening .round)) (h : (phrase false p).Within R e.span.start ts)
    (he : e.value = .symbol (.closing .round)) :
    (primary (.group (l.span.cover e.span) p)).Within R next (l :: (ts ++ [e])) := by
  refine ⟨.group hl h.spelled he, fun {N} hR hN => ?_⟩
  rw [bracketDepth_wrap hl h.spelled he, bracketDepth_nil] at hN
  obtain ⟨k, hk, hin, hroom⟩ := room_inside (2 * R + 3) (m := Token.bracketDepth ts) (n := N) (by omega)
  have hinner := h.le hR hin
  simp only [ruleDepth, allowance, Operand.ruleDepth] at hinner ⊢
  omega

theorem call {ps : List Phrase} {text : List Char} (hm : m.value = .atom (.name text))
    (hl : l.value = .symbol (.opening .round)) (h : (phrases ps).Within R e.span.start ts)
    (he : e.value = .symbol (.closing .round)) :
    (primary (.call (m.span.cover e.span) text ps)).Within R next (m :: l :: (ts ++ [e])) := by
  refine ⟨.call hm hl h.spelled he, fun {N} hR hN => ?_⟩
  rw [bracketDepth_atom hm, bracketDepth_wrap hl h.spelled he, bracketDepth_nil] at hN
  obtain ⟨k, hk, hin, hroom⟩ := room_inside (2 * R + 3) (m := Token.bracketDepth ts) (n := N) (by omega)
  have hargs := h.le hR hin
  simp only [ruleDepth, allowance, Operand.ruleDepth] at hargs ⊢
  omega

/-- The type stands outside of the brackets, and its own run is what it asks for. -/
theorem composite {es : List Element} (h : (type t).Within R l.span.start ts) (hc : t.IsComposite)
    (hl : l.value = .symbol (.opening .curly)) (hes : (elements es).Within R e.span.start us)
    (he : e.value = .symbol (.closing .curly)) :
    (primary (.composite ⟨startOf ts, e.span.stop⟩ t es)).Within R next (ts ++ l :: (us ++ [e])) := by
  refine ⟨.composite h.spelled hc hl hes.spelled he, fun {N} hR hN => ?_⟩
  rw [bracketDepth_append h.spelled, bracketDepth_wrap hl hes.spelled he, bracketDepth_nil] at hN
  obtain ⟨k, hk, hin, hroom⟩ := room_inside (2 * R + 3) (m := Token.bracketDepth us) (n := N) (by omega)
  obtain ⟨ht, helements⟩ := Nat.max_le.mp hR
  have hrun := t.run_le_typeRun.trans ht
  have htype := h.le (N := N) ht (by omega)
  have helements := hes.le helements hin
  simp only [ruleDepth, allowance, Operand.ruleDepth] at htype helements ⊢
  omega

theorem onePhrase (h : (phrase false p).Within R next ts) : (phrases [p]).Within R next ts := by
  refine ⟨.onePhrase h.spelled, fun hR hN => ?_⟩
  have hle := h.le (Nat.max_le.mp hR).1 hN
  simp only [ruleDepth, allowance, Phrase.ruleDepths] at hle ⊢
  omega

theorem morePhrases {ps : List Phrase} (h : (phrase false p).Within R c.span.start ts)
    (hc : c.value = .symbol .comma) (hs : (phrases ps).Within R next us) :
    (phrases (p :: ps)).Within R next (ts ++ c :: us) := by
  refine ⟨.morePhrases h.spelled hc hs.spelled, fun {N} hR hN => ?_⟩
  rw [bracketDepth_append h.spelled, bracketDepth_sign hc trivial] at hN
  obtain ⟨hp, hps⟩ := Nat.max_le.mp hR
  have hle := h.le (N := N) hp (by omega)
  have hles := hs.le (N := N) hps (by omega)
  simp only [ruleDepth, allowance, Phrase.ruleDepths] at hle hles ⊢
  omega

theorem plain (h : (phrase false p).Within R next ts) : (element (.plain p)).Within R next ts := by
  refine ⟨.plain h.spelled, fun hR hN => ?_⟩
  have hle := h.le hR hN
  simp only [ruleDepth, allowance, Element.ruleDepth] at hle ⊢
  omega

theorem keyed (hk : (phrase false k).Within R c.span.start ts) (hc : c.value = .symbol .colon)
    (hv : (phrase false v).Within R next us) :
    (element (.keyed ⟨startOf ts, v.stop⟩ k v)).Within R next (ts ++ c :: us) := by
  refine ⟨.keyed hk.spelled hc hv.spelled, fun {N} hR hN => ?_⟩
  rw [bracketDepth_append hk.spelled, bracketDepth_sign hc trivial] at hN
  obtain ⟨hkey, hvalue⟩ := Nat.max_le.mp hR
  have hkey := hk.le (N := N) hkey (by omega)
  have hvalue := hv.le (N := N) hvalue (by omega)
  simp only [ruleDepth, allowance, Element.ruleDepth] at hkey hvalue ⊢
  omega

theorem oneElement {a : Element} (h : (element a).Within R next ts) : (elements [a]).Within R next ts := by
  refine ⟨.oneElement h.spelled, fun hR hN => ?_⟩
  have hle := h.le (Nat.max_le.mp hR).1 hN
  simp only [ruleDepth, allowance, Element.ruleDepths] at hle ⊢
  omega

theorem moreElements {a : Element} {es : List Element} (h : (element a).Within R c.span.start ts)
    (hc : c.value = .symbol .comma) (hs : (elements es).Within R next us) :
    (elements (a :: es)).Within R next (ts ++ c :: us) := by
  refine ⟨.moreElements h.spelled hc hs.spelled, fun {N} hR hN => ?_⟩
  rw [bracketDepth_append h.spelled, bracketDepth_sign hc trivial] at hN
  obtain ⟨ha, hes⟩ := Nat.max_le.mp hR
  have hle := h.le (N := N) ha (by omega)
  have hles := hs.le (N := N) hes (by omega)
  simp only [ruleDepth, allowance, Element.ruleDepths] at hle hles ⊢
  omega

theorem mapType (hm : m.value = .atom (.name "map".toList)) (hl : l.value = .symbol (.opening .square))
    (hk : (type t).Within R e.span.start ts) (he : e.value = .symbol (.closing .square))
    (hv : (type u).Within R next us) :
    (type (.map (m.span.cover u.span) t u)).Within R next (m :: l :: (ts ++ e :: us)) := by
  refine ⟨.mapType hm hl hk.spelled he hv.spelled, fun {N} hR hN => ?_⟩
  rw [bracketDepth_atom hm, bracketDepth_wrap hl hk.spelled he] at hN
  obtain ⟨n, hn, hin, hroom⟩ := room_inside (2 * R + 3) (m := Token.bracketDepth ts) (n := N) (by omega)
  obtain ⟨ht, hu⟩ := Nat.max_le.mp (Nat.max_le.mp hR).2
  have hrun := t.run_le_typeRun.trans ht
  have hkey := hk.le ht hin
  have hvalue := hv.le (N := N) hu (by omega)
  simp only [ruleDepth, allowance, TypeExpr.ruleDepth, TypeExpr.run] at hkey hvalue ⊢
  omega

/-- Closed brackets leave the element type all levels, so it is the run that counts it. -/
theorem sliceType (hl : l.value = .symbol (.opening .square)) (he : e.value = .symbol (.closing .square))
    (h : (type t).Within R next ts) : (type (.slice (l.span.cover t.span) t)).Within R next (l :: e :: ts) := by
  refine ⟨.sliceType hl he h.spelled, fun {N} hR hN => ?_⟩
  rw [bracketDepth_pair hl he] at hN
  have hle := h.le (N := N) (Nat.max_le.mp hR).2 (by omega)
  simp only [ruleDepth, allowance, TypeExpr.ruleDepth, TypeExpr.run] at hle ⊢
  omega

theorem arrayType (hl : l.value = .symbol (.opening .square)) (hp : (phrase false p).Within R e.span.start ts)
    (he : e.value = .symbol (.closing .square)) (h : (type t).Within R next us) :
    (type (.array (l.span.cover t.span) p t)).Within R next (l :: (ts ++ e :: us)) := by
  refine ⟨.arrayType hl hp.spelled he h.spelled, fun {N} hR hN => ?_⟩
  rw [bracketDepth_wrap hl hp.spelled he] at hN
  obtain ⟨n, hn, hin, hroom⟩ := room_inside (2 * R + 3) (m := Token.bracketDepth ts) (n := N) (by omega)
  obtain ⟨hlength, helement⟩ := Nat.max_le.mp (Nat.max_le.mp hR).2
  have hlength := hp.le hlength hin
  have helement := h.le (N := N) helement (by omega)
  simp only [ruleDepth, allowance, TypeExpr.ruleDepth, TypeExpr.run] at hlength helement ⊢
  omega

theorem openArrayType (hl : l.value = .symbol (.opening .square)) (hm : m.value = .symbol .ellipsis)
    (he : e.value = .symbol (.closing .square)) (h : (type t).Within R next ts) :
    (type (.openArray (l.span.cover t.span) t)).Within R next (l :: m :: e :: ts) := by
  refine ⟨.openArrayType hl hm he h.spelled, fun {N} hR hN => ?_⟩
  rw [bracketDepth_ellipsis hl hm he] at hN
  have hle := h.le (N := N) (Nat.max_le.mp hR).2 (by omega)
  simp only [ruleDepth, allowance, TypeExpr.ruleDepth, TypeExpr.run] at hle ⊢
  omega

theorem pointerType (hm : m.value = .symbol (.op .mul)) (h : (type t).Within R next ts) :
    (type (.pointer (m.span.cover t.span) t)).Within R next (m :: ts) := by
  refine ⟨.pointerType hm h.spelled, fun {N} hR hN => ?_⟩
  rw [bracketDepth_sign hm trivial] at hN
  have hle := h.le (N := N) (Nat.max_le.mp hR).2 (by omega)
  simp only [ruleDepth, allowance, TypeExpr.ruleDepth, TypeExpr.run] at hle ⊢
  omega

/-- A type that is just named is one rule, whatever spells it. -/
theorem of_name (h : Spells next ts (type t)) (ht : t.ruleDepth = 1) : (type t).Within R next ts := by
  refine ⟨h, fun hR hN => ?_⟩
  simp only [ruleDepth, allowance, ht]
  omega

end Form.Within

theorem within_of_spells {R next : Nat} {ts : List Token} {f : Form} (h : Spells next ts f) :
    f.Within R next ts := by
  induction h with
  | @last _ _ joined _ _ ih => exact ih.last joined
  | join _ hop _ ih ihr => exact ih.join hop ihr
  | signed ht hs _ ih => exact ih.signed ht hs
  | unsigned h ih => exact ⟨.unsigned h, ih.le⟩
  | base h ih => exact ⟨.base h, ih.le⟩
  | index _ hl _ hr ihb ihp => exact ihb.index hl ihp hr
  | atom ht => exact .atom ht
  | group hl _ hr ih => exact .group hl ih hr
  | call hf hl _ hr ih => exact .call hf hl ih hr
  | composite _ hc hl _ hr iht ihes => exact iht.composite hc hl ihes hr
  | noPhrase => exact ⟨.noPhrase, fun _ _ => Nat.zero_le _⟩
  | onePhrase _ ih => exact ih.onePhrase
  | morePhrases _ hc _ ih ihs => exact ih.morePhrases hc ihs
  | plain _ ih => exact ih.plain
  | keyed _ hc _ ihk ihv => exact ihk.keyed hc ihv
  | noElement => exact ⟨.noElement, fun _ _ => Nat.zero_le _⟩
  | oneElement _ ih => exact ih.oneElement
  | moreElements _ hc _ ih ihs => exact ih.moreElements hc ihs
  | mapType hw hl _ hr _ ihk ihv => exact .mapType hw hl ihk hr ihv
  | sliceType hl hr _ ih => exact .sliceType hl hr ih
  | arrayType hl _ hr _ ihp ihe => exact .arrayType hl ihp hr ihe
  | openArrayType hl hd hr _ ih => exact .openArrayType hl hd hr ih
  | pointerType hm _ ih => exact .pointerType hm ih
  | qualifiedType ht hd hu htd hdu => exact .of_name (.qualifiedType ht hd hu htd hdu) rfl
  | namedType ht => exact .of_name (.namedType ht) rfl

/-- Rules nest no deeper than `N` levels of brackets and runs of `R` types make room for. -/
theorem spells_ruleDepth_le {next : Nat} {ts : List Token} {f : Form} {R N : Nat}
    (h : Spells next ts f) (hR : f.typeRun ≤ R) (hN : Token.bracketDepth ts ≤ N) :
    f.ruleDepth ≤ f.allowance R + N * (2 * R + 3) :=
  (within_of_spells h).le hR hN

end Formula
