import Formula.Proofs.TreePlaces

/-!
Names that are nodes. The variables of a phrase become nodes of its tree, in their order, but for those
in types: the lengths of arrays are read and never built. These stand in square brackets of their own,
away from the names that are nodes.
-/

namespace Formula

namespace Expr

def identSpan? : Expr → Option Span
  | ident span _ => some span
  | _ => none

def idents (e : Expr) : List Span := e.nodes.filterMap identSpan?

theorem idents_of_all (es : List Expr) :
    (nodesOfAll es).filterMap identSpan? = es.flatMap idents := by
  induction es with
  | nil => rfl
  | cons e es ih => rw [nodesOfAll, List.filterMap_append, ih, List.flatMap_cons, idents]

/-- The variables of a tree are its own and those of its parts. -/
theorem idents_eq (e : Expr) : e.idents = e.identSpan?.toList ++ e.children.flatMap idents := by
  cases e <;>
    simp [idents, nodes, children, identSpan?, List.filterMap_cons, idents_of_all]

theorem idents_binary (span : Span) (m : InfixOp.Meaning) (l r : Expr) :
    (binary span m l r).idents = l.idents ++ r.idents := by
  cases m <;> simp [binary, idents_eq (arith _ _ _ _), idents_eq (compare _ _ _ _),
    idents_eq (logic _ _ _ _), identSpan?, children]

end Expr

mutual

def Phrase.names : Phrase → List Span
  | .last o _ => o.names
  | .join o _ rest => o.names ++ rest.names

def Operand.names : Operand → List Span
  | .atom ⟨.name _, span⟩ => [span]
  | .atom _ => []
  | .group _ inner => inner.names
  | .call _ _ args => Phrase.namesOfAll args
  | .composite _ _ elements => Element.namesOfAll elements
  | .index base position _ => base.names ++ position.names
  | .signed _ operand => operand.names

def Phrase.namesOfAll : List Phrase → List Span
  | [] => []
  | p :: ps => p.names ++ Phrase.namesOfAll ps

def Element.names : Element → List Span
  | .plain value => value.names
  | .keyed _ key value => key.names ++ value.names

def Element.namesOfAll : List Element → List Span
  | [] => []
  | e :: es => e.names ++ Element.namesOfAll es

end

def Form.names : Form → List Span
  | .phrase _ p => p.names
  | .operand o | .indexed o | .primary o => o.names
  | .phrases ps => Phrase.namesOfAll ps
  | .element e => e.names
  | .elements es => Element.namesOfAll es
  | .type _ => []

section Build

variable {limit : Nat}

theorem Phrase.names_operands (p : Phrase) :
    p.names = p.operands.1.names ++ p.operands.2.flatMap fun pair => pair.2.names := by
  induction p using row_induction with
  | last o stop => simp [names, operands]
  | join o op rest ih => simp [names, operands, ih]

def Operand.NamesNodes (limit : Nat) (o : Operand) : Prop :=
  ∀ b, o.build limit = .ok b → b.expr.idents = o.names

theorem Chain.fold_idents {c : Chain (Placed InfixOp) Operand} {b : Built}
    (hall : c.All (Operand.NamesNodes limit))
    (h : (c.bimap id fun o => o.build limit).fold (Built.join limit) = .ok b) :
    b.expr.idents = c.toRow.1.names ++ c.toRow.2.flatMap fun pair => pair.2.names := by
  induction c generalizing b with
  | leaf o =>
    have hnames := hall b h
    simpa [toRow] using hnames
  | node left op right ihl ihr =>
    simp only [bimap, fold_node, bind_eq_ok] at h
    obtain ⟨x, hx, y, hy, hjoin⟩ := h
    obtain ⟨m, height, rfl⟩ := Built.join_eq_ok hjoin
    rw [Expr.idents_binary, ihl hall.1 hx, ihr hall.2 hy]
    simp [toRow]

theorem Phrase.idents_of_build {p : Phrase} {b : Built}
    (hall : p.AllOperands (Operand.NamesNodes limit))
    (h : p.assemble limit (p.row limit) = .ok b) : b.expr.idents = p.names := by
  rw [assemble] at h
  split at h
  · cases h
  · rw [row_tree] at h
    rw [Chain.fold_idents ((Chain.all_ofRow _ _ _).mpr hall) h, names_operands,
      Chain.toRow_ofRow]

end Build

mutual

theorem Phrase.operands_name_nodes {limit : Nat} : ∀ p : Phrase,
    p.AllOperands (Operand.NamesNodes limit)
  | .last o _ => ⟨Operand.namesNodes o, fun _ h => nomatch h⟩
  | .join o _ rest =>
    Phrase.allOperands_join.mpr ⟨Operand.namesNodes o, Phrase.operands_name_nodes rest⟩

/-- The names of an operand are the variables of its tree. -/
theorem Operand.namesNodes {limit : Nat} : ∀ o : Operand, o.NamesNodes limit
  | .atom ⟨value, span⟩, b, h => by
    obtain ⟨-, hchildren⟩ := Built.atom_eq_ok h
    rw [Expr.idents_eq, hchildren]
    rw [Operand.build, Built.atom] at h
    split at h
    · next text htext =>
      obtain rfl : value = .name text := htext
      rw [Built.above_eq_ok h]
      rfl
    · next hnot =>
      split at h
      · rw [Built.above_eq_ok h]
        cases value with
        | name text => exact absurd rfl (hnot text)
        | _ => rfl
      · cases h
  | .group span inner, b, h => by
    rw [Operand.build, bind_eq_ok] at h
    obtain ⟨x, hx, h⟩ := h
    rw [Built.above_eq_ok h, Operand.names,
      ← Phrase.idents_of_build (Phrase.operands_name_nodes inner) hx]
    simp [Expr.idents_eq (.group _ _), Expr.identSpan?, Expr.children]
  | .call span name args, b, h => by
    rw [Operand.build, bind_eq_ok] at h
    obtain ⟨xs, hxs, h⟩ := h
    rw [Built.above_eq_ok h, Operand.names, ← Phrase.names_of_buildAll args xs hxs]
    simp [Expr.idents_eq (.call _ _ _), Expr.identSpan?, Expr.children, List.flatMap_map]
  | .composite span type elements, b, h => by
    rw [Operand.build] at h
    split at h
    · cases h
    · obtain ⟨xs, hxs, h⟩ := bind_eq_ok.mp h
      rw [Built.above_eq_ok h, Operand.names, ← Element.names_of_buildAll elements xs hxs]
      simp [Expr.idents_eq (.composite _ _), Expr.identSpan?, Expr.children, List.flatMap_map]
  | .index base position stop, b, h => by
    rw [Operand.build, bind_eq_ok] at h
    obtain ⟨x, hx, h⟩ := h
    obtain ⟨y, hy, h⟩ := bind_eq_ok.mp h
    obtain ⟨height, rfl⟩ := Built.index_eq_ok h
    rw [Operand.names, ← Operand.namesNodes base x hx,
      ← Phrase.idents_of_build (Phrase.operands_name_nodes position) hy]
    simp [Expr.idents_eq (.index _ _ _), Expr.identSpan?, Expr.children]
  | .signed op operand, b, h => by
    rw [Operand.build, bind_eq_ok] at h
    obtain ⟨x, hx, h⟩ := h
    have hnames := Operand.namesNodes operand x hx
    rw [Operand.names, Expr.idents_eq]
    simp only [Built.sign] at h
    split at h
    · cases h
    · next o _ =>
      split at h
      · next n hleast =>
        split at hleast
        · rw [Built.above_eq_ok h]
          rfl
        · cases hleast
      · rw [Built.above_eq_ok h, ← hnames]
        simp [Expr.identSpan?, Expr.children]

theorem Phrase.names_of_buildAll {limit : Nat} : ∀ (ps : List Phrase) (bs : List Built),
    Phrase.buildAll limit ps = .ok bs → bs.flatMap (fun b => b.expr.idents) = Phrase.namesOfAll ps
  | [], bs, h => by
    obtain rfl := Except.ok.inj h
    rfl
  | p :: ps, bs, h => by
    obtain ⟨x, xs, hx, hxs, rfl⟩ := Phrase.buildAll_cons.mp h
    rw [List.flatMap_cons, Phrase.namesOfAll, Phrase.names_of_buildAll ps xs hxs,
      Phrase.idents_of_build (Phrase.operands_name_nodes p) hx]

theorem Element.names_of_buildAll {limit : Nat} : ∀ (es : List Element) (bs : List Built),
    Element.buildAll limit es = .ok bs → bs.flatMap (fun b => b.expr.idents) = Element.namesOfAll es
  | [], bs, h => by
    obtain rfl := Except.ok.inj h
    rfl
  | .keyed span key value :: es, bs, h => by
    rw [Element.buildAll, Element.build] at h
    cases h
  | .plain value :: es, bs, h => by
    obtain ⟨x, xs, hx, hxs, rfl⟩ := Element.buildAll_cons.mp h
    rw [List.flatMap_cons, Element.namesOfAll, Element.names_of_buildAll es xs hxs, Element.names,
      Phrase.idents_of_build (Phrase.operands_name_nodes value) hx]

end

def Walled (ts : List Token) (names : List Span) (v : Nat) : Prop :=
  ∃ pre us r post next q b, ts = pre ++ (us ++ r :: post) ∧ Spells next us (.phrase false q) ∧
    r.value = .symbol (.closing b) ∧ v ∈ q.variables ∧ names.Sublist ((pre ++ r :: post).map (·.span))

/-- The names are variables and stand among the tokens in their order, and all other variables stand in
brackets with none of the names. -/
structure Framed (ts : List Token) (names : List Span) (vars : List Nat) : Prop where
  order : names.Sublist (ts.map (·.span))
  starts : ∀ s ∈ names, s.start ∈ vars
  others : ∀ v ∈ vars, (∃ s ∈ names, s.start = v) ∨ Walled ts names v

namespace Framed

variable {ts us : List Token} {names names' : List Span} {vars vars' : List Nat}

theorem append (h : Framed ts names vars) (h' : Framed us names' vars') :
    Framed (ts ++ us) (names ++ names') (vars ++ vars') := by
  refine ⟨?_, fun s hs => ?_, fun v hv => ?_⟩
  · rw [List.map_append]
    exact h.order.append h'.order
  · rw [List.mem_append] at hs ⊢
    exact hs.imp (h.starts s) (h'.starts s)
  · rcases List.mem_append.mp hv with hv | hv
    · rcases h.others v hv with ⟨s, hs, hstart⟩ | ⟨pre, ws, r, post, next, q, b, rfl, hq, hr, hv, hsub⟩
      · exact .inl ⟨s, List.mem_append_left _ hs, hstart⟩
      · refine .inr ⟨pre, ws, r, post ++ us, next, q, b, by simp, hq, hr, hv, ?_⟩
        have hboth := hsub.append h'.order
        simpa using hboth
    · rcases h'.others v hv with ⟨s, hs, hstart⟩ | ⟨pre, ws, r, post, next, q, b, rfl, hq, hr, hv, hsub⟩
      · exact .inl ⟨s, List.mem_append_right _ hs, hstart⟩
      · refine .inr ⟨ts ++ pre, ws, r, post, next, q, b, by simp, hq, hr, hv, ?_⟩
        have hboth := h.order.append hsub
        simpa using hboth

theorem plain (ts : List Token) : Framed ts [] [] :=
  ⟨List.nil_sublist _, nofun, nofun⟩

theorem before (h : Framed ts names vars) (us : List Token) : Framed (us ++ ts) names vars :=
  (plain us).append h

theorem behind (h : Framed ts names vars) (us : List Token) : Framed (ts ++ us) names vars := by
  have hboth := h.append (plain us)
  simpa using hboth

theorem name (t : Token) : Framed [t] [t.span] [t.span.start] :=
  ⟨List.Sublist.refl _, fun s hs => by simpa using congrArg Span.start (List.mem_singleton.mp hs),
    fun v hv => .inl ⟨t.span, List.mem_singleton_self _, (List.mem_singleton.mp hv).symm⟩⟩

/-- The variables in the length of an array are not among the names. -/
theorem length {next : Nat} {q : Phrase} {r : Token} {b : Bracket}
    (hq : Spells next ts (.phrase false q)) (hr : r.value = .symbol (.closing b)) :
    Framed (ts ++ [r]) [] q.variables :=
  ⟨List.nil_sublist _, nofun, fun _ hv =>
    .inr ⟨[], ts, r, [], next, q, b, rfl, hq, hr, hv, List.nil_sublist _⟩⟩

end Framed

/-- Names that become nodes are variables of what is spelled, and stand in their order. -/
theorem spells_framed {next : Nat} {ts : List Token} {f : Form} (h : Spells next ts f) :
    Framed ts f.names f.variables := by
  induction h with
  | last _ ih | unsigned _ ih | base _ ih | plain _ ih => exact ih
  | @join next ts ots us joined o op rest h hop hr ih ihr => exact ih.append (ihr.before ots)
  | @signed next ts o op t s ht hs h ih => exact ih.before [t]
  | @index next ts us b p l r hb hl hp hr ihb ihp => exact ihb.append ((ihp.behind [r]).before [l])
  | @atom next a t ht =>
    cases a with
    | name text => exact .name t
    | _ => exact .plain [t]
  | @group next ts p l r hl hp hr ih => exact (ih.behind [r]).before [l]
  | @call next ts ps text f l r hf hl hps hr ih => exact (ih.behind [r]).before [f, l]
  | @composite next ts us t es l r ht hc hl hes hr iht ihes =>
    exact iht.append ((ihes.behind [r]).before [l])
  | noPhrase | noElement => exact .plain []
  | onePhrase _ ih =>
    simpa [Form.names, Form.variables, Phrase.namesOfAll, Phrase.variablesOfAll] using ih
  | oneElement _ ih =>
    simpa [Form.names, Form.variables, Element.namesOfAll, Element.variablesOfAll] using ih
  | @morePhrases next ts us p ps c h hc hs ih ihs => exact ih.append (ihs.before [c])
  | @keyed next ts us k v c hk hc hv ihk ihv => exact ihk.append (ihv.before [c])
  | @moreElements next ts us e es c h hc hs ih ihs => exact ih.append (ihs.before [c])
  | @mapType next ts us k v w l r hw hl hk hr hv ihk ihv =>
    exact (ihk.append (ihv.before [r])).before [w, l]
  | @sliceType next ts e l r hl hr he ih => exact ih.before [l, r]
  -- The length is not built: its variables are walled off by the bracket that closes behind it.
  | @arrayType next ts us p e l r hl hp hr he ihp ihe =>
    have hlength := ((Framed.length hp hr).append ihe).before [l]
    rw [List.append_assoc] at hlength
    exact hlength
  | @openArrayType next ts e l d r hl hd hr he ih => exact ih.before [l, d, r]
  | @pointerType next ts e m hm he ih => exact ih.before [m]
  | qualifiedType | namedType => exact .plain _

/-- The variables of a tree that is built are names of its phrase. -/
theorem Phrase.idents_eq_names {limit : Nat} {p : Phrase} {b : Built} (h : p.build limit = .ok b) :
    b.expr.idents = p.names :=
  Phrase.idents_of_build (Phrase.operands_name_nodes p) h

end Formula
