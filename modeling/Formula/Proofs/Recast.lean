import Formula.Proofs.LiteralHeads
import Formula.Proofs.PhraseRows

namespace Formula

open Formula.Parser

/-- A change: where every offset goes, and what a name that starts at an offset becomes. -/
structure Recast where
  place : Nat → Nat
  name : Nat → List Char → List Char

variable (r : Recast)

namespace Recast

def span (s : Span) : Span := ⟨r.place s.start, r.place s.stop⟩

def atom (a : Placed Atom) : Placed Atom :=
  ⟨match a.value with
    | .name text => .name (r.name a.span.start text)
    | literal => literal, r.span a.span⟩

def token (t : Token) : Token :=
  ⟨match t.value with
    | .atom a => .atom (r.atom ⟨a, t.span⟩).value
    | other => other, r.span t.span⟩

def op {α : Type} (o : Placed α) : Placed α := ⟨o.value, r.span o.span⟩

end Recast

mutual

def Phrase.recast : Phrase → Phrase
  | .last o stop => .last o.recast (r.place stop)
  | .join o op rest => .join o.recast (r.op op) rest.recast

def Operand.recast : Operand → Operand
  | .atom a => .atom (r.atom a)
  | .group span inner => .group (r.span span) inner.recast
  | .call span name args => .call (r.span span) name (Phrase.recastAll args)
  | .composite span type elements =>
    .composite (r.span span) type.recast (Element.recastAll elements)
  | .index base position stop => .index base.recast position.recast (r.place stop)
  | .signed op operand => .signed (r.op op) operand.recast

def Phrase.recastAll : List Phrase → List Phrase
  | [] => []
  | p :: ps => p.recast :: Phrase.recastAll ps

def Element.recast : Element → Element
  | .plain value => .plain value.recast
  | .keyed span key value => .keyed (r.span span) key.recast value.recast

def Element.recastAll : List Element → List Element
  | [] => []
  | e :: es => e.recast :: Element.recastAll es

def TypeExpr.recast : TypeExpr → TypeExpr
  | .map span key value => .map (r.span span) key.recast value.recast
  | .slice span element => .slice (r.span span) element.recast
  | .array span length element => .array (r.span span) length.recast element.recast
  | .openArray span element => .openArray (r.span span) element.recast
  | .pointer span target => .pointer (r.span span) target.recast
  | .qualified span package name => .qualified (r.span span) package name
  | .name span text => .name (r.span span) text

end

def Form.recast : Form → Form
  | .phrase joined p => .phrase joined (p.recast r)
  | .operand o => .operand (o.recast r)
  | .indexed o => .indexed (o.recast r)
  | .primary o => .primary (o.recast r)
  | .phrases ps => .phrases (Phrase.recastAll r ps)
  | .element e => .element (e.recast r)
  | .elements es => .elements (Element.recastAll r es)
  | .type t => .type (t.recast r)

mutual

def Expr.recast : Expr → Expr
  | .constant span value => .constant (r.span span) value
  | .ident span name => .ident (r.span span) (String.ofList (r.name span.start name.toList))
  | .unary span op e => .unary (r.span span) op e.recast
  | .arith span op left right => .arith (r.span span) op left.recast right.recast
  | .compare span op left right => .compare (r.span span) op left.recast right.recast
  | .logic span op left right => .logic (r.span span) op left.recast right.recast
  | .index span base position => .index (r.span span) base.recast position.recast
  | .call span name args => .call (r.span span) name (Expr.recastAll args)
  | .composite span elements => .composite (r.span span) (Expr.recastAll elements)
  | .group span inner => .group (r.span span) inner.recast

def Expr.recastAll : List Expr → List Expr
  | [] => []
  | e :: es => e.recast :: Expr.recastAll es

end

mutual

/-- The variables of a changed phrase start where they are moved to. -/
theorem Phrase.variables_recast : ∀ p : Phrase,
    (p.recast r).variables = p.variables.map r.place
  | .last o _ => Operand.variables_recast o
  | .join o _ rest => by
    rw [Phrase.recast, Phrase.variables, Phrase.variables, List.map_append,
      Operand.variables_recast o, Phrase.variables_recast rest]

theorem Operand.variables_recast : ∀ o : Operand,
    (o.recast r).variables = o.variables.map r.place
  | .atom ⟨value, span⟩ => by cases value <;> rfl
  | .group _ inner => Phrase.variables_recast inner
  | .call _ _ args => Phrase.variablesOfAll_recast args
  | .composite _ type elements => by
    rw [Operand.recast, Operand.variables, Operand.variables, List.map_append,
      TypeExpr.variables_recast type, Element.variablesOfAll_recast elements]
  | .index base position _ => by
    rw [Operand.recast, Operand.variables, Operand.variables, List.map_append,
      Operand.variables_recast base, Phrase.variables_recast position]
  | .signed _ operand => Operand.variables_recast operand

theorem Phrase.variablesOfAll_recast : ∀ ps : List Phrase,
    Phrase.variablesOfAll (Phrase.recastAll r ps) = (Phrase.variablesOfAll ps).map r.place
  | [] => rfl
  | p :: ps => by
    rw [Phrase.recastAll, Phrase.variablesOfAll, Phrase.variablesOfAll, List.map_append,
      Phrase.variables_recast p, Phrase.variablesOfAll_recast ps]

theorem Element.variables_recast : ∀ e : Element,
    (e.recast r).variables = e.variables.map r.place
  | .plain value => Phrase.variables_recast value
  | .keyed _ key value => by
    rw [Element.recast, Element.variables, Element.variables, List.map_append,
      Phrase.variables_recast key, Phrase.variables_recast value]

theorem Element.variablesOfAll_recast : ∀ es : List Element,
    Element.variablesOfAll (Element.recastAll r es) = (Element.variablesOfAll es).map r.place
  | [] => rfl
  | e :: es => by
    rw [Element.recastAll, Element.variablesOfAll, Element.variablesOfAll, List.map_append,
      Element.variables_recast e, Element.variablesOfAll_recast es]

theorem TypeExpr.variables_recast : ∀ t : TypeExpr,
    (t.recast r).variables = t.variables.map r.place
  | .map _ key value => by
    rw [TypeExpr.recast, TypeExpr.variables, TypeExpr.variables, List.map_append,
      TypeExpr.variables_recast key, TypeExpr.variables_recast value]
  | .slice _ element | .openArray _ element | .pointer _ element => TypeExpr.variables_recast element
  | .array _ length element => by
    rw [TypeExpr.recast, TypeExpr.variables, TypeExpr.variables, List.map_append,
      Phrase.variables_recast length, TypeExpr.variables_recast element]
  | .qualified _ _ _ | .name _ _ => rfl

end

section Spells

open Token

variable {r}

theorem Recast.token_symbol {t : Token} {s : Symbol} (h : t.value = .symbol s) :
    (r.token t).value = .symbol s := by
  rw [Recast.token, h]

theorem Recast.token_atom {t : Token} {a : Atom} (h : t.value = .atom a) :
    (r.token t).value = .atom (r.atom ⟨a, t.span⟩).value := by
  rw [Recast.token, h]

theorem Recast.token_kept {t : Token} {text : List Char} (h : t.value = .atom (.name text))
    (hname : r.name t.span.start text = text) : (r.token t).value = .atom (.name text) := by
  rw [Recast.token_atom h]
  simp [Recast.atom, hname]

theorem startOf_recast {ts : List Token} (h : ts ≠ []) :
    startOf (ts.map r.token) = r.place (startOf ts) := by
  obtain ⟨t, ts, rfl⟩ := List.exists_cons_of_ne_nil h
  rfl

theorem TypeExpr.span_recast (t : TypeExpr) : (t.recast r).span = r.span t.span := by
  cases t <;> rfl

theorem TypeExpr.isComposite_recast {t : TypeExpr} (h : t.IsComposite) :
    (t.recast r).IsComposite := by
  cases t <;> exact h

theorem Phrase.stop_recast : ∀ p : Phrase, (p.recast r).stop = r.place p.stop
  | .last _ _ => rfl
  | .join _ _ rest => stop_recast rest

theorem Operand.indexStop_recast : ∀ o : Operand,
    (o.recast r).indexStop? = o.indexStop?.map r.place
  | .index _ _ _ => rfl
  | .signed _ operand => indexStop_recast operand
  | .atom _ | .group _ _ | .call _ _ _ | .composite _ _ _ => rfl

theorem Operand.lastStop_recast (o : Operand) (joined : Bool) (next : Nat) :
    (o.recast r).lastStop joined (r.place next) = r.place (o.lastStop joined next) := by
  cases joined with
  | false => rfl
  | true =>
    simp only [lastStop, if_true, indexStop_recast]
    cases o.indexStop? <;> rfl

/-- The change keeps which tokens touch, and changes no names among the tokens but those of variables. -/
structure Recast.Admits (r : Recast) (ts : List Token) (vars : List Nat) : Prop where
  ranked : Ranked ts
  touching : ∀ t ∈ ts, ∀ u ∈ ts, (r.token t).Touches (r.token u) ↔ t.Touches u
  renamed : ∀ t ∈ ts, ∀ text, t.value = .atom (.name text) → r.name t.span.start text ≠ text →
    t.span.start ∈ vars

/-- A part of the tokens is changed alike, where all other variables stand in the other parts. -/
theorem Recast.Admits.part {row ts : List Token} {all vars : List Nat} (pre post : List Token)
    (h : r.Admits row all) (hrow : row = pre ++ (ts ++ post))
    (hother : ∀ v ∈ all, v ∈ vars ∨ ∃ u ∈ pre ++ post, u.span.start = v) : r.Admits ts vars := by
  subst hrow
  have hmem : ∀ t ∈ ts, t ∈ pre ++ (ts ++ post) := fun t ht => by simp [ht]
  refine ⟨?_, fun t ht u hu => h.touching t (hmem t ht) u (hmem u hu), fun t ht text hname hne => ?_⟩
  · exact (List.pairwise_append.mp (List.pairwise_append.mp h.ranked).2.1).1
  · rcases hother _ (h.renamed t (hmem t ht) text hname hne) with hv | ⟨u, hu, hstart⟩
    · exact hv
    · have hranked := h.ranked
      simp only [Ranked, List.pairwise_append, List.mem_append] at hranked hu
      exfalso
      rcases hu with hu | hu
      · have hlt := hranked.2.2 u hu t (.inl ht)
        omega
      · have hlt := hranked.2.1.2.2 t ht u hu
        omega

/-- A name before or among the others that starts no variable is kept. -/
theorem Recast.Admits.kept {ts : List Token} {vars : List Nat} (h : r.Admits ts vars) {t : Token}
    (ht : t ∈ ts) {text : List Char} (hname : t.value = .atom (.name text))
    (hvars : t.span.start ∉ vars) : (r.token t).value = .atom (.name text) := by
  refine Recast.token_kept hname ?_
  by_contra hne
  exact hvars (h.renamed t ht text hname hne)

/-- Of two parts with variables, each is changed alike. -/
theorem Recast.Admits.both {row ts us : List Token} {all a b : List Nat} (pre mid post : List Token)
    (h : r.Admits row all) (hrow : row = pre ++ (ts ++ (mid ++ (us ++ post)))) (hall : all = a ++ b)
    (ha : ∀ v ∈ a, ∃ t ∈ ts, t.span.start = v) (hb : ∀ v ∈ b, ∃ u ∈ us, u.span.start = v) :
    r.Admits ts a ∧ r.Admits us b := by
  subst hall
  constructor
  · refine h.part pre (mid ++ (us ++ post)) hrow fun v hv => ?_
    rcases List.mem_append.mp hv with hv | hv
    · exact .inl hv
    · obtain ⟨u, hu, hstart⟩ := hb v hv
      exact .inr ⟨u, by simp [hu], hstart⟩
  · refine h.part (pre ++ (ts ++ mid)) post (by simp [hrow]) fun v hv => ?_
    rcases List.mem_append.mp hv with hv | hv
    · obtain ⟨t, ht, hstart⟩ := ha v hv
      exact .inr ⟨t, by simp [ht], hstart⟩
    · exact .inl hv

/-- The only part with variables is changed alike. -/
theorem Recast.Admits.inner {row ts : List Token} {vars : List Nat} (pre post : List Token)
    (h : r.Admits row vars) (hrow : row = pre ++ (ts ++ post)) : r.Admits ts vars :=
  h.part pre post hrow fun _ hv => .inl hv

/-- A name before the tokens at which all variables start is kept. -/
theorem Recast.Admits.head_kept {t : Token} {ts : List Token} {vars : List Nat} {text : List Char}
    (h : r.Admits (t :: ts) vars) (hname : t.value = .atom (.name text))
    (hvars : ∀ v ∈ vars, ∃ u ∈ ts, u.span.start = v) : (r.token t).value = .atom (.name text) := by
  refine h.kept List.mem_cons_self hname fun hv => ?_
  obtain ⟨u, hu, hstart⟩ := hvars _ hv
  have hlt := (List.pairwise_cons.mp h.ranked).1 u hu
  omega

theorem spells_variable_starts {next : Nat} {ts : List Token} {f : Form} (h : Spells next ts f) :
    ∀ v ∈ f.variables, ∃ t ∈ ts, t.span.start = v := by
  intro v hv
  obtain ⟨t, ht, hstart, -⟩ := spells_variables h v hv
  exact ⟨t, ht, hstart⟩

theorem joins_recast {ots us : List Token} {op : Placed InfixOp} (h : Joins ots us op)
    (htouch : ∀ t ∈ ots, ∀ u ∈ ots ++ us, (r.token t).Touches (r.token u) ↔ t.Touches u) :
    Joins (ots.map r.token) (us.map r.token) (r.op op) := by
  cases h with
  | @one t _ op ht hb =>
    refine .one (t := r.token t) (Recast.token_symbol ht) fun hop u hu hvalue => ?_
    cases us with
    | nil => cases hu
    | cons v us =>
      obtain rfl := Option.some.inj hu
      rw [htouch t (by simp) v (by simp)]
      refine hb hop v rfl ?_
      cases hv : v.value with
      | symbol s => rwa [Recast.token_symbol hv] at hvalue
      | _ => simp [Recast.token, hv] at hvalue
  | @andNot t u _ ht hu hs =>
    have htouches := (htouch t (by simp) u (by simp)).mpr hs
    exact .andNot (Recast.token_symbol ht) (Recast.token_symbol hu) htouches

structure Form.Recasts (r : Recast) (next : Nat) (ts : List Token) (f : Form) : Prop where
  spelled : Spells next ts f
  changed (hadmits : r.Admits ts f.variables) : Spells (r.place next) (ts.map r.token) (f.recast r)

namespace Form.Recasts

variable {next : Nat} {ts us : List Token} {l c m e : Token} {o b : Operand} {p k v : Phrase}
  {t u : TypeExpr}

theorem starts {f : Form} (h : f.Recasts r next ts) : ∀ v ∈ f.variables, ∃ t ∈ ts, t.span.start = v :=
  spells_variable_starts h.spelled

theorem last (joined : Bool) (h : (operand o).Recasts r next ts) :
    (phrase joined (.last o (o.lastStop joined next))).Recasts r next ts := by
  refine ⟨.last h.spelled, fun hadmits => ?_⟩
  have hlast := @Spells.last _ _ joined _ (h.changed hadmits)
  rwa [Operand.lastStop_recast] at hlast

theorem join {ots : List Token} {joined : Bool} {op : Placed InfixOp}
    (h : (operand o).Recasts r (startOf ots) ts) (hop : Joins ots us op)
    (hp : (phrase true p).Recasts r next us) :
    (phrase joined (.join o op p)).Recasts r next (ts ++ (ots ++ us)) := by
  refine ⟨.join h.spelled hop hp.spelled, fun hadmits => ?_⟩
  obtain ⟨hleft, hright⟩ := hadmits.both [] ots [] (by simp) rfl h.starts hp.starts
  have hop' := joins_recast hop fun t ht u hu =>
    hadmits.touching t (by simp [ht]) u (List.mem_append_right _ hu)
  have hfirst := h.changed hleft
  rw [← startOf_recast (Phrase.Level.joins_ne_nil hop)] at hfirst
  rw [List.map_append, List.map_append]
  exact .join hfirst hop' (hp.changed hright)

theorem signed {op : PrefixOp} {s : Symbol} (hm : m.value = .symbol s) (hs : PrefixOp.ofSymbol? s = some op)
    (h : (operand o).Recasts r next ts) : (operand (.signed ⟨op, m.span⟩ o)).Recasts r next (m :: ts) := by
  refine ⟨.signed hm hs h.spelled, fun hadmits => ?_⟩
  exact .signed (Recast.token_symbol hm) hs (h.changed (hadmits.inner [m] [] (by simp)))

theorem index (h : (indexed b).Recasts r l.span.start ts) (hl : l.value = .symbol (.opening .square))
    (hp : (phrase false p).Recasts r e.span.start us) (he : e.value = .symbol (.closing .square)) :
    (indexed (.index b p e.span.stop)).Recasts r next (ts ++ l :: (us ++ [e])) := by
  refine ⟨.index h.spelled hl hp.spelled he, fun hadmits => ?_⟩
  obtain ⟨hleft, hright⟩ := hadmits.both [] [l] [e] (by simp) rfl h.starts hp.starts
  simp only [List.map_append, List.map_cons, List.map_nil]
  exact .index (h.changed hleft) (Recast.token_symbol hl) (hp.changed hright) (Recast.token_symbol he)

theorem group (hl : l.value = .symbol (.opening .round)) (h : (phrase false p).Recasts r e.span.start ts)
    (he : e.value = .symbol (.closing .round)) :
    (primary (.group (l.span.cover e.span) p)).Recasts r next (l :: (ts ++ [e])) := by
  refine ⟨.group hl h.spelled he, fun hadmits => ?_⟩
  simp only [List.map_append, List.map_cons, List.map_nil]
  exact .group (Recast.token_symbol hl) (h.changed (hadmits.inner [l] [e] rfl)) (Recast.token_symbol he)

/-- The name of a function stands before all variables of its arguments, and is none of them. -/
theorem call {ps : List Phrase} {text : List Char} (hm : m.value = .atom (.name text))
    (hl : l.value = .symbol (.opening .round)) (h : (phrases ps).Recasts r e.span.start ts)
    (he : e.value = .symbol (.closing .round)) :
    (primary (.call (m.span.cover e.span) text ps)).Recasts r next (m :: l :: (ts ++ [e])) := by
  refine ⟨.call hm hl h.spelled he, fun hadmits => ?_⟩
  have hname := hadmits.head_kept hm fun v hv => by
    obtain ⟨t, ht, hstart⟩ := h.starts v hv
    exact ⟨t, by simp [ht], hstart⟩
  simp only [List.map_append, List.map_cons, List.map_nil]
  exact .call hname (Recast.token_symbol hl) (h.changed (hadmits.inner [m, l] [e] rfl))
    (Recast.token_symbol he)

theorem composite {es : List Element} (h : (type t).Recasts r l.span.start ts) (hc : t.IsComposite)
    (hl : l.value = .symbol (.opening .curly)) (hes : (elements es).Recasts r e.span.start us)
    (he : e.value = .symbol (.closing .curly)) :
    (primary (.composite ⟨startOf ts, e.span.stop⟩ t es)).Recasts r next (ts ++ l :: (us ++ [e])) := by
  refine ⟨.composite h.spelled hc hl hes.spelled he, fun hadmits => ?_⟩
  obtain ⟨hleft, hright⟩ := hadmits.both [] [l] [e] (by simp) rfl h.starts hes.starts
  have hliteral := @Spells.composite (r.place next) _ _ _ _ _ _ (h.changed hleft)
    (TypeExpr.isComposite_recast hc) (Recast.token_symbol hl) (hes.changed hright) (Recast.token_symbol he)
  rw [startOf_recast (h.spelled.ne_nil id)] at hliteral
  simp only [List.map_append, List.map_cons, List.map_nil]
  exact hliteral

theorem onePhrase (h : (phrase false p).Recasts r next ts) : (phrases [p]).Recasts r next ts := by
  refine ⟨.onePhrase h.spelled, fun hadmits => ?_⟩
  rw [Form.variables, Phrase.variablesOfAll, Phrase.variablesOfAll, List.append_nil] at hadmits
  exact .onePhrase (h.changed hadmits)

theorem morePhrases {ps : List Phrase} (h : (phrase false p).Recasts r c.span.start ts)
    (hc : c.value = .symbol .comma) (hs : (phrases ps).Recasts r next us) :
    (phrases (p :: ps)).Recasts r next (ts ++ c :: us) := by
  refine ⟨.morePhrases h.spelled hc hs.spelled, fun hadmits => ?_⟩
  obtain ⟨hleft, hright⟩ := hadmits.both [] [c] [] (by simp) rfl h.starts hs.starts
  rw [List.map_append, List.map_cons]
  exact .morePhrases (h.changed hleft) (Recast.token_symbol hc) (hs.changed hright)

theorem keyed (hk : (phrase false k).Recasts r c.span.start ts) (hc : c.value = .symbol .colon)
    (hv : (phrase false v).Recasts r next us) :
    (element (.keyed ⟨startOf ts, v.stop⟩ k v)).Recasts r next (ts ++ c :: us) := by
  refine ⟨.keyed hk.spelled hc hv.spelled, fun hadmits => ?_⟩
  obtain ⟨hleft, hright⟩ := hadmits.both [] [c] [] (by simp) rfl hk.starts hv.starts
  have hkeyed := Spells.keyed (hk.changed hleft) (Recast.token_symbol hc) (hv.changed hright)
  rw [startOf_recast (hk.spelled.ne_nil id), Phrase.stop_recast] at hkeyed
  rw [List.map_append, List.map_cons]
  exact hkeyed

theorem oneElement {a : Element} (h : (element a).Recasts r next ts) : (elements [a]).Recasts r next ts := by
  refine ⟨.oneElement h.spelled, fun hadmits => ?_⟩
  rw [Form.variables, Element.variablesOfAll, Element.variablesOfAll, List.append_nil] at hadmits
  exact .oneElement (h.changed hadmits)

theorem moreElements {a : Element} {es : List Element} (h : (element a).Recasts r c.span.start ts)
    (hc : c.value = .symbol .comma) (hs : (elements es).Recasts r next us) :
    (elements (a :: es)).Recasts r next (ts ++ c :: us) := by
  refine ⟨.moreElements h.spelled hc hs.spelled, fun hadmits => ?_⟩
  obtain ⟨hleft, hright⟩ := hadmits.both [] [c] [] (by simp) rfl h.starts hs.starts
  rw [List.map_append, List.map_cons]
  exact .moreElements (h.changed hleft) (Recast.token_symbol hc) (hs.changed hright)

/-- The word of a map type stands before the variables of its key and of its value. -/
theorem mapType (hm : m.value = .atom (.name "map".toList)) (hl : l.value = .symbol (.opening .square))
    (hk : (type t).Recasts r e.span.start ts) (he : e.value = .symbol (.closing .square))
    (hv : (type u).Recasts r next us) :
    (type (.map (m.span.cover u.span) t u)).Recasts r next (m :: l :: (ts ++ e :: us)) := by
  refine ⟨.mapType hm hl hk.spelled he hv.spelled, fun hadmits => ?_⟩
  obtain ⟨hleft, hright⟩ := hadmits.both [m, l] [e] [] (by simp) rfl hk.starts hv.starts
  have hword := hadmits.head_kept hm fun x hx => by
    rcases List.mem_append.mp hx with hx | hx
    · obtain ⟨t, ht, hstart⟩ := hk.starts x hx
      exact ⟨t, by simp [ht], hstart⟩
    · obtain ⟨t, ht, hstart⟩ := hv.starts x hx
      exact ⟨t, by simp [ht], hstart⟩
  have hmap := Spells.mapType hword (Recast.token_symbol (r := r) hl) (hk.changed hleft)
    (Recast.token_symbol (r := r) he) (hv.changed hright)
  rw [TypeExpr.span_recast] at hmap
  simp only [List.map_append, List.map_cons]
  exact hmap

theorem sliceType (hl : l.value = .symbol (.opening .square)) (he : e.value = .symbol (.closing .square))
    (h : (type t).Recasts r next ts) :
    (type (.slice (l.span.cover t.span) t)).Recasts r next (l :: e :: ts) := by
  refine ⟨.sliceType hl he h.spelled, fun hadmits => ?_⟩
  have hslice := Spells.sliceType (Recast.token_symbol (r := r) hl) (Recast.token_symbol (r := r) he)
    (h.changed (hadmits.inner [l, e] [] (by simp)))
  rw [TypeExpr.span_recast] at hslice
  exact hslice

theorem arrayType (hl : l.value = .symbol (.opening .square)) (hp : (phrase false p).Recasts r e.span.start ts)
    (he : e.value = .symbol (.closing .square)) (h : (type t).Recasts r next us) :
    (type (.array (l.span.cover t.span) p t)).Recasts r next (l :: (ts ++ e :: us)) := by
  refine ⟨.arrayType hl hp.spelled he h.spelled, fun hadmits => ?_⟩
  obtain ⟨hleft, hright⟩ := hadmits.both [l] [e] [] (by simp) rfl hp.starts h.starts
  have harray := Spells.arrayType (Recast.token_symbol (r := r) hl) (hp.changed hleft)
    (Recast.token_symbol (r := r) he) (h.changed hright)
  rw [TypeExpr.span_recast] at harray
  simp only [List.map_append, List.map_cons]
  exact harray

theorem openArrayType (hl : l.value = .symbol (.opening .square)) (hm : m.value = .symbol .ellipsis)
    (he : e.value = .symbol (.closing .square)) (h : (type t).Recasts r next ts) :
    (type (.openArray (l.span.cover t.span) t)).Recasts r next (l :: m :: e :: ts) := by
  refine ⟨.openArrayType hl hm he h.spelled, fun hadmits => ?_⟩
  have harray := Spells.openArrayType (Recast.token_symbol (r := r) hl) (Recast.token_symbol (r := r) hm)
    (Recast.token_symbol (r := r) he) (h.changed (hadmits.inner [l, m, e] [] (by simp)))
  rw [TypeExpr.span_recast] at harray
  exact harray

theorem pointerType (hm : m.value = .symbol (.op .mul)) (h : (type t).Recasts r next ts) :
    (type (.pointer (m.span.cover t.span) t)).Recasts r next (m :: ts) := by
  refine ⟨.pointerType hm h.spelled, fun hadmits => ?_⟩
  have hpointer := Spells.pointerType (Recast.token_symbol (r := r) hm) (h.changed (hadmits.inner [m] [] (by simp)))
  rw [TypeExpr.span_recast] at hpointer
  exact hpointer

/-- Both names are kept, and touch the dot as before. -/
theorem qualifiedType {a b : List Char} (hm : m.value = .atom (.name a)) (hc : c.value = .symbol .dot)
    (he : e.value = .atom (.name b)) (hmc : m.Touches c) (hce : c.Touches e) :
    (type (.qualified (m.span.cover e.span) a b)).Recasts r next [m, c, e] := by
  refine ⟨.qualifiedType hm hc he hmc hce, fun hadmits => ?_⟩
  have hfirst := hadmits.kept (List.mem_cons_self) hm (List.not_mem_nil)
  have hsecond := hadmits.kept (t := e) (by simp) he List.not_mem_nil
  exact .qualifiedType hfirst (Recast.token_symbol hc) hsecond
    ((hadmits.touching m (by simp) c (by simp)).mpr hmc)
    ((hadmits.touching c (by simp) e (by simp)).mpr hce)

theorem namedType {text : List Char} (hm : m.value = .atom (.name text)) :
    (type (.name m.span text)).Recasts r next [m] :=
  ⟨.namedType hm, fun hadmits =>
    .namedType (hadmits.kept (List.mem_singleton_self m) hm List.not_mem_nil)⟩

end Form.Recasts

theorem recasts_of_spells {next : Nat} {ts : List Token} {f : Form} (h : Spells next ts f) :
    f.Recasts r next ts := by
  induction h with
  | @last _ _ joined _ _ ih => exact ih.last joined
  | join _ hop _ ih ihr => exact ih.join hop ihr
  | signed ht hs _ ih => exact ih.signed ht hs
  | unsigned h ih => exact ⟨.unsigned h, fun hadmits => .unsigned (ih.changed hadmits)⟩
  | base h ih => exact ⟨.base h, fun hadmits => .base (ih.changed hadmits)⟩
  | index _ hl _ hr ihb ihp => exact ihb.index hl ihp hr
  | atom ht => exact ⟨.atom ht, fun _ => .atom (Recast.token_atom ht)⟩
  | group hl _ hr ih => exact .group hl ih hr
  | call hf hl _ hr ih => exact .call hf hl ih hr
  | composite _ hc hl _ hr iht ihes => exact iht.composite hc hl ihes hr
  | noPhrase => exact ⟨.noPhrase, fun _ => .noPhrase⟩
  | onePhrase _ ih => exact ih.onePhrase
  | morePhrases _ hc _ ih ihs => exact ih.morePhrases hc ihs
  | plain h ih => exact ⟨.plain h, fun hadmits => .plain (ih.changed hadmits)⟩
  | keyed _ hc _ ihk ihv => exact ihk.keyed hc ihv
  | noElement => exact ⟨.noElement, fun _ => .noElement⟩
  | oneElement _ ih => exact ih.oneElement
  | moreElements _ hc _ ih ihs => exact ih.moreElements hc ihs
  | mapType hw hl _ hr _ ihk ihv => exact .mapType hw hl ihk hr ihv
  | sliceType hl hr _ ih => exact .sliceType hl hr ih
  | arrayType hl _ hr _ ihp ihe => exact .arrayType hl ihp hr ihe
  | openArrayType hl hd hr _ ih => exact .openArrayType hl hd hr ih
  | pointerType hm _ ih => exact .pointerType hm ih
  | qualifiedType ht hd hu htd hdu => exact .qualifiedType ht hd hu htd hdu
  | namedType ht => exact .namedType ht

/-- Changed tokens spell the changed form. -/
theorem spells_recast {next : Nat} {ts : List Token} {f : Form} (h : Spells next ts f)
    (hadmits : r.Admits ts f.variables) :
    Spells (r.place next) (ts.map r.token) (f.recast r) :=
  (recasts_of_spells h).changed hadmits

end Spells

end Formula
