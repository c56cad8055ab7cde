import Formula.Proofs.BareTree
import Formula.Proofs.BracketAgreement
import Formula.Proofs.PhraseRows
import Formula.Proofs.SourcePlaces
import Formula.Proofs.Variables

namespace Formula

open Formula.Parser

namespace Expr

def children : Expr → List Expr
  | constant _ _ | ident _ _ => []
  | unary _ _ e | group _ e => [e]
  | arith _ _ l r | compare _ _ l r | logic _ _ l r | index _ l r => [l, r]
  | call _ _ es | composite _ es => es

mutual

/-- The nodes of a tree, each before those below it. -/
def nodes : Expr → List Expr
  | constant span v => [constant span v]
  | ident span name => [ident span name]
  | unary span op e => unary span op e :: e.nodes
  | arith span op l r => arith span op l r :: (l.nodes ++ r.nodes)
  | compare span op l r => compare span op l r :: (l.nodes ++ r.nodes)
  | logic span op l r => logic span op l r :: (l.nodes ++ r.nodes)
  | index span base position => index span base position :: (base.nodes ++ position.nodes)
  | call span name args => call span name args :: nodesOfAll args
  | composite span elements => composite span elements :: nodesOfAll elements
  | group span inner => group span inner :: inner.nodes

def nodesOfAll : List Expr → List Expr
  | [] => []
  | e :: es => e.nodes ++ nodesOfAll es

end

theorem mem_nodesOfAll {n : Expr} : ∀ {es : List Expr},
    n ∈ nodesOfAll es ↔ ∃ e ∈ es, n ∈ e.nodes
  | [] => by simp [nodesOfAll]
  | e :: es => by simp [nodesOfAll, @mem_nodesOfAll n es]

theorem mem_nodes_iff {n e : Expr} : n ∈ e.nodes ↔ n = e ∨ ∃ c ∈ e.children, n ∈ c.nodes := by
  cases e <;> simp [nodes, children, mem_nodesOfAll]

theorem children_binary (span : Span) (m : InfixOp.Meaning) (l r : Expr) :
    (binary span m l r).children = [l, r] := by
  cases m <;> rfl

/-- A property of all trees is shown of a node from the nodes right below it. -/
@[elab_as_elim]
theorem child_induction {P : Expr → Prop} (node : ∀ e, (∀ c ∈ e.children, P c) → P e) (e : Expr) :
    P e := by
  induction e using tree_induction with
  | constant | ident => exact node _ (by simp [children])
  | unary _ _ _ ih | group _ _ ih => exact node _ (by simpa [children] using ih)
  | binary _ m _ _ ihl ihr => exact node _ (by simpa [children_binary] using And.intro ihl ihr)
  | index _ _ _ ihl ihr => exact node _ (by simpa [children] using And.intro ihl ihr)
  | call _ _ _ ih | composite _ _ ih => exact node _ ih

theorem span_binary (span : Span) (m : InfixOp.Meaning) (l r : Expr) :
    (binary span m l r).span = span := by
  cases m <;> rfl

end Expr

namespace Token

def stopOf (ts : List Token) : Nat := (ts.getLast?.map fun t => t.span.stop).getD 0

def cover (ts : List Token) : Span := ⟨startOf ts, stopOf ts⟩

variable {ts us : List Token} {t : Token}

theorem stopOf_append (h : us ≠ []) : stopOf (ts ++ us) = stopOf us := by
  obtain ⟨u, us, rfl⟩ := List.exists_cons_of_ne_nil h
  rw [stopOf, List.getLast?_append, stopOf, List.getLast?_cons]
  rfl

theorem stopOf_cons (h : us ≠ []) : stopOf (t :: us) = stopOf us :=
  (stopOf_append h : stopOf ([t] ++ us) = stopOf us)

theorem stopOf_last : stopOf (ts ++ [t]) = t.span.stop := by
  rw [stopOf_append (List.cons_ne_nil _ _)]
  rfl

theorem cover_append (hts : ts ≠ []) (hus : us ≠ []) :
    cover (ts ++ us) = ⟨startOf ts, stopOf us⟩ := by
  rw [cover, Phrase.startOf_append hts, stopOf_append hus]

/-- From a token to the end of a row behind it. -/
theorem cover_from (t : Token) (pre : List Token) (h : us ≠ []) :
    t.span.cover (cover us) = cover (t :: (pre ++ us)) := by
  rw [cover, cover, stopOf_cons (List.append_ne_nil_of_right_ne_nil pre h), stopOf_append h]
  rfl

def Undotted (pre post : List Token) : Prop :=
  (∀ t ∈ pre.getLast?, t.value ≠ .symbol .dot) ∧ ∀ t ∈ post.head?, t.value ≠ .symbol .dot

theorem undotted_nil : Undotted [] [] := by simp [Undotted]

theorem Undotted.front (h : Undotted ts us) : Undotted ts [] := ⟨h.1, undotted_nil.2⟩

theorem Undotted.back (h : Undotted ts us) : Undotted [] us := ⟨undotted_nil.1, h.2⟩

/-- What stands further outside is not seen, but for where nothing else does. -/
theorem Undotted.append {pre post : List Token} (hinner : Undotted ts us) (houter : Undotted pre post) :
    Undotted (pre ++ ts) (us ++ post) := by
  constructor
  · intro t ht
    rw [List.getLast?_append, Option.mem_def, Option.or_eq_some_iff] at ht
    rcases ht with ht | ⟨-, ht⟩
    · exact hinner.1 t ht
    · exact houter.1 t ht
  · intro t ht
    rw [List.head?_append, Option.mem_def, Option.or_eq_some_iff] at ht
    rcases ht with ht | ⟨-, ht⟩
    · exact hinner.2 t ht
    · exact houter.2 t ht

/-- From the start of a row to a bracket behind it that is closed. -/
theorem cover_closed (hts : ts ≠ []) (l : Token) (us : List Token) (r : Token) :
    cover (ts ++ l :: (us ++ [r])) = ⟨startOf ts, r.span.stop⟩ := by
  rw [cover_append hts (List.cons_ne_nil _ _), stopOf_cons (by simp), stopOf_last]

end Token

def Lexeme.EndsRow (l : Lexeme) : Prop := (∃ a, l = .atom a) ∨ ∃ b, l = .symbol (.closing b)

def Form.EndsWith (l : Lexeme) : Form → Prop
  | .phrases _ | .elements _ => True
  | _ => l.EndsRow

/-- Expressions, elements and types end with a name, a literal or a bracket that is closed. -/
theorem spells_last {next : Nat} {ts : List Token} {f : Form} (h : Spells next ts f) :
    ∀ t ∈ ts.getLast?, f.EndsWith t.value := by
  have behind (pre : List Token) {us : List Token} (hus : us ≠ []) (h : ∀ t ∈ us.getLast?, t.value.EndsRow) :
      ∀ t ∈ (pre ++ us).getLast?, t.value.EndsRow := by
    rwa [List.getLast?_append_of_ne_nil pre hus]
  have one (pre : List Token) {r : Token} (hr : r.value.EndsRow) :
      ∀ t ∈ (pre ++ [r]).getLast?, t.value.EndsRow :=
    behind pre (List.cons_ne_nil r []) fun t ht => Option.some.inj ht ▸ hr
  induction h with
  | last _ ih | unsigned _ ih | base _ ih | plain _ ih => exact ih
  | @join next ts ots us joined o op rest h hop hr ih ihr =>
    rw [← List.append_assoc]
    exact behind _ (hr.ne_nil id) ihr
  | @signed next ts o op t s ht hs h ih => exact behind [t] (h.ne_nil id) ih
  | atom ht | namedType ht => exact one [] (.inl ⟨_, ht⟩)
  | @qualifiedType next a b t d u _ _ hu _ _ => exact one [t, d] (.inl ⟨_, hu⟩)
  | @index next ts us b p l r hb hl hp hr _ _ =>
    rw [← List.cons_append, ← List.append_assoc]
    exact one _ (.inr ⟨_, hr⟩)
  | @group next ts p l r hl hp hr _ => exact one (l :: ts) (.inr ⟨_, hr⟩)
  | @call next ts ps text f l r hf hl hps hr _ => exact one (f :: l :: ts) (.inr ⟨_, hr⟩)
  | @composite next ts us t es l r ht hc hl hes hr _ _ =>
    rw [← List.cons_append, ← List.append_assoc]
    exact one _ (.inr ⟨_, hr⟩)
  | @keyed next ts us k v c hk hc hv _ ih =>
    rw [List.append_cons]
    exact behind _ (hv.ne_nil id) ih
  | @mapType next ts us k v w l r hw hl hk hr hv _ ih =>
    have hrow : w :: l :: (ts ++ r :: us) = (w :: l :: (ts ++ [r])) ++ us := by simp
    rw [hrow]
    exact behind _ (hv.ne_nil id) ih
  | @sliceType next ts e l r hl hr he ih => exact behind [l, r] (he.ne_nil id) ih
  | @arrayType next ts us p e l r hl hp hr he _ ih =>
    have hrow : l :: (ts ++ r :: us) = (l :: (ts ++ [r])) ++ us := by simp
    rw [hrow]
    exact behind _ (he.ne_nil id) ih
  | @openArrayType next ts e l d r hl hd hr he ih => exact behind [l, d, r] (he.ne_nil id) ih
  | @pointerType next ts e m hm he ih => exact behind [m] (he.ne_nil id) ih
  | _ => exact fun _ _ => trivial

section Stands

variable (limit : Nat) (vars : List Nat)

mutual

/-- An expression stands on a row: a phrase that the row spells builds it under the limit, its place is
that of the row, and the expressions it is made of stand on parts of the row. The variables of the
phrase are among those that are given. -/
inductive Expr.Stands : List Token → Expr → Prop
  | intro {next height ts e q} (hspells : Spells next ts (.phrase false q))
      (hvars : ∀ v ∈ q.variables, v ∈ vars) (hbuild : q.build limit = .ok ⟨e, height⟩)
      (hspan : e.span = Token.cover ts) (hchildren : Expr.Spread ts.length ts e.children) :
      Expr.Stands ts e

/-- Expressions stand on parts of a row, one behind the other, each part of less tokens than `n`, and
beside none of them stands a point. -/
inductive Expr.Spread : Nat → List Token → List Expr → Prop
  | nil {n ts} : Expr.Spread n ts []
  | cons {n gap us ts e es} (hlt : us.length < n) (hgap : Token.Undotted gap ts) (he : Expr.Stands us e)
      (hes : Expr.Spread n ts es) : Expr.Spread n (gap ++ (us ++ ts)) (e :: es)

end

variable {limit vars}

namespace Expr

/-- What an expression stands on does not end with a point. -/
theorem Stands.last_ne_dot {ts : List Token} {e : Expr} (h : Stands limit vars ts e) :
    ∀ t ∈ ts.getLast?, t.value ≠ .symbol .dot := by
  cases h with
  | intro hspells =>
    intro t ht hdot
    rcases spells_last hspells t ht with ⟨a, ha⟩ | ⟨b, hb⟩
    · rw [hdot] at ha
      cases ha
    · rw [hdot] at hb
      cases hb

theorem Spread.append {n : Nat} {ts : List Token} {es : List Expr} (h : Spread limit vars n ts es)
    (pre post : List Token) (hout : Token.Undotted pre post) :
    Spread limit vars n (pre ++ (ts ++ post)) es := by
  induction es generalizing pre ts with
  | nil => exact .nil
  | cons e es ih =>
    cases h with
    | @cons _ gap us ts _ _ hlt hgap he hes =>
      have hrest := ih hes [] hout.back
      have hcons : Spread limit vars n ((pre ++ gap) ++ (us ++ (ts ++ post))) (e :: es) :=
        .cons hlt (hgap.append hout) he hrest
      simpa using hcons

/-- Every expression that is spread over a row stands on a part of it, with no point beside it. -/
theorem Spread.part {n : Nat} {ts : List Token} {es : List Expr} (h : Spread limit vars n ts es) :
    ∀ e ∈ es, ∃ pre us post, ts = pre ++ (us ++ post) ∧ us.length < n ∧ Token.Undotted pre post ∧
      Stands limit vars us e := by
  induction es generalizing ts with
  | nil => exact fun e he => by cases he
  | cons e es ih =>
    cases h with
    | @cons _ gap us ts _ _ hlt hgap he hes =>
      intro e' he'
      rcases List.mem_cons.mp he' with rfl | he'
      · exact ⟨gap, us, ts, rfl, hlt, hgap, he⟩
      · obtain ⟨pre, us', post, rfl, hlt', hout, hstands⟩ := ih hes e' he'
        have hbefore : Token.Undotted us [] := ⟨he.last_ne_dot, Token.undotted_nil.2⟩
        have hfront : Token.Undotted (gap ++ us) [] := hbefore.append hgap.front
        have hundotted := hout.append hfront
        rw [List.append_nil, List.append_assoc] at hundotted
        exact ⟨gap ++ (us ++ pre), us', post, by simp, hlt', hundotted, hstands⟩

/-- Every node of an expression that stands on a row stands on a part of it, with no point beside it. -/
theorem Stands.node_undotted {ts : List Token} {e n : Expr} (h : Stands limit vars ts e) (hn : n ∈ e.nodes) :
    ∃ pre us post, ts = pre ++ (us ++ post) ∧ Token.Undotted pre post ∧ Stands limit vars us n := by
  induction e using child_induction generalizing ts with
  | node e ih =>
    rcases mem_nodes_iff.mp hn with rfl | ⟨c, hc, hn⟩
    · exact ⟨[], ts, [], by simp, Token.undotted_nil, h⟩
    · cases h with
      | intro _ _ _ _ hchildren =>
        obtain ⟨pre, us, post, rfl, -, hout, hstands⟩ := hchildren.part c hc
        obtain ⟨pre', us', post', rfl, hin, hnode⟩ := ih c hc hstands hn
        exact ⟨pre ++ pre', us', post' ++ post, by simp, hin.append hout, hnode⟩

theorem Stands.node {ts : List Token} {e n : Expr} (h : Stands limit vars ts e) (hn : n ∈ e.nodes) :
    ∃ pre us post, ts = pre ++ (us ++ post) ∧ Stands limit vars us n := by
  obtain ⟨pre, us, post, hts, -, hnode⟩ := h.node_undotted hn
  exact ⟨pre, us, post, hts, hnode⟩

theorem Stands.ne_nil {ts : List Token} {e : Expr} (h : Stands limit vars ts e) : ts ≠ [] := by
  cases h with
  | intro hspells => exact hspells.ne_nil id

theorem Stands.span {ts : List Token} {e : Expr} (h : Stands limit vars ts e) :
    e.span = Token.cover ts := by
  cases h with
  | intro _ _ _ hspan => exact hspan

end Expr

def Operand.Settled (limit : Nat) (vars : List Nat) (ts : List Token) (o : Operand) : Prop :=
  runLevels o.signCount ≤ limit → ∀ b, o.build limit = .ok b → b.expr.Stands limit vars ts

def Operand.SettledIn (limit : Nat) (vars : List Nat) (next : Nat) (ts : List Token)
    (o : Operand) : Prop :=
  Spells next ts (.operand o) ∧ (∀ v ∈ o.variables, v ∈ vars) ∧ o.Settled limit vars ts

theorem Operand.SettledIn.ne_nil {next : Nat} {ts : List Token} {o : Operand}
    (h : o.SettledIn limit vars next ts) : ts ≠ [] :=
  h.1.ne_nil id

theorem Phrase.forall_variables_iff {P : Nat → Prop} (p : Phrase) :
    (∀ v ∈ p.variables, P v) ↔ p.AllOperands fun o => ∀ v ∈ o.variables, P v := by
  induction p using row_induction with
  | last o stop => simp [Phrase.variables, AllOperands, operands]
  | join o op rest ih => rw [allOperands_join, Phrase.variables, List.forall_mem_append, ih]

theorem Chain.all_iff_toRow {ω α : Type} (P : α → Prop) (c : Chain ω α) :
    c.All P ↔ P c.toRow.1 ∧ ∀ pair ∈ c.toRow.2, P pair.2 := by
  induction c with
  | leaf a => simp [All, toRow]
  | node l op r ihl ihr =>
    simp only [All, toRow, ihl, ihr, List.forall_mem_append, List.forall_mem_cons]
    tauto

/-- A phrase with the operands of a tree makes that tree, where no run of signs is too long. -/
theorem Phrase.build_eq_fold {q : Phrase} {c : Chain (Placed InfixOp) Operand}
    (hq : q.operands = c.toRow) (htight : c.Tight fun op => op.value.precedence)
    (hruns : c.All fun o => runLevels o.signCount ≤ limit) :
    q.build limit = (c.bimap id fun o => o.build limit).fold (Built.join limit) := by
  have hnone : q.runFault? limit = none := by
    rw [runFault_eq_none, AllOperands, hq]
    exact (Chain.all_iff_toRow _ c).mp hruns
  have htree : q.tree = c := by rw [tree, hq, Chain.ofRow_toRow htight]
  rw [build, assemble, hnone, ← htree, ← row_tree]

namespace Built

/-- Two operands that join are the sides of a node that covers both. -/
theorem join_eq_ok {l r b : Built} {op : Placed InfixOp} (h : join limit l op r = .ok b) :
    ∃ m height, b = ⟨.binary (l.expr.span.cover r.expr.span) m l.expr r.expr, height⟩ := by
  simp only [join] at h
  split at h
  case h_4 => cases h
  · next o _ => exact ⟨.arith o, _, above_eq_ok h⟩
  · next o _ => exact ⟨.compare o, _, above_eq_ok h⟩
  · next o _ => exact ⟨.logic o, _, above_eq_ok h⟩

/-- A sign makes a constant or a node above its operand, which begins at the sign. -/
theorem sign_eq_ok {op : Placed PrefixOp} {o : Operand} {built b : Built}
    (h : sign limit op o built = .ok b) : b.expr.span = op.span.cover built.expr.span ∧
      (b.expr.children = [] ∨ b.expr.children = [built.expr]) := by
  simp only [sign] at h
  split at h
  · cases h
  · split at h
    · rw [above_eq_ok h]
      exact ⟨rfl, .inl rfl⟩
    · rw [above_eq_ok h]
      exact ⟨rfl, .inr rfl⟩

theorem index_eq_ok {base position b : Built} {stop : Nat}
    (h : index limit base position stop = .ok b) :
    ∃ height, b = ⟨.index ⟨base.expr.span.start, stop⟩ base.expr position.expr, height⟩ := by
  simp only [index] at h
  split at h
  · cases h
  · exact ⟨_, above_eq_ok h⟩

theorem atom_eq_ok {a : Placed Atom} {b : Built} (h : atom limit a = .ok b) :
    b.expr.span = a.span ∧ b.expr.children = [] := by
  simp only [atom] at h
  split at h
  · rw [above_eq_ok h]
    exact ⟨rfl, rfl⟩
  · split at h
    · rw [above_eq_ok h]
      exact ⟨rfl, rfl⟩
    · cases h

end Built

/-- An operator has no points in it. -/
theorem joins_undotted {ots us : List Token} {op : Placed InfixOp} (h : Joins ots us op) (rest : List Token) :
    Token.Undotted ots (ots ++ rest) := by
  cases h with
  | one ht _ => simp [Token.Undotted, ht]
  | andNot ht hu _ => simp [Token.Undotted, ht, hu]

/-- A tree of settled operands is built to an expression that stands on its row. -/
theorem Chain.stands_of_fold {next : Nat} {ts : List Token} {c : Chain (Placed InfixOp) Operand}
    (h : Rows (fun next ts o => o.SettledIn limit vars next ts) next ts c)
    (htight : c.Tight fun op => op.value.precedence)
    (hruns : c.All fun o => runLevels o.signCount ≤ limit) {b : Built}
    (hb : (c.bimap id fun o => o.build limit).fold (Built.join limit) = .ok b) :
    b.expr.Stands limit vars ts := by
  induction h generalizing b with
  | leaf ho => exact ho.2.2 hruns b hb
  | @node next ts ots us l op r hl hop hr ihl ihr =>
    obtain ⟨htl, htr, -⟩ := id htight
    have hnode := Rows.node hl hop hr
    obtain ⟨q, hq, hrow⟩ := (hnode.mono fun _ _ _ ho => ho.1).spelled false
    have hbuild : q.build limit = .ok b := by
      rw [Phrase.build_eq_fold hrow htight hruns, hb]
    rw [bimap, fold_node] at hb
    obtain ⟨bl, hbl, hb⟩ := bind_eq_ok.mp hb
    obtain ⟨br, hbr, hb⟩ := bind_eq_ok.mp hb
    have hleft := ihl htl hruns.1 hbl
    have hright := ihr htr hruns.2 hbr
    obtain ⟨m, height, rfl⟩ := Built.join_eq_ok hb
    have hvars : ∀ v ∈ q.variables, v ∈ vars := by
      rw [Phrase.forall_variables_iff, Phrase.AllOperands, hrow]
      exact (all_iff_toRow _ _).mp (hnode.all fun _ _ _ ho => ho.2.1)
    -- Both sides are not empty, and so each of them is shorter than the row.
    have hlts := List.length_pos_iff.mpr hleft.ne_nil
    have hlus := List.length_pos_iff.mpr hright.ne_nil
    refine .intro hq hvars hbuild ?_ ?_
    · change Expr.span (.binary _ _ _ _) = _
      rw [Expr.span_binary, Token.cover_append hleft.ne_nil (by simp [hright.ne_nil]),
        Token.stopOf_append hright.ne_nil, Span.cover, hleft.span, hright.span]
      rfl
    · rw [Expr.children_binary]
      have hspread : Expr.Spread limit vars (ts ++ (ots ++ us)).length (ots ++ (us ++ []))
          [br.expr] := by
        refine .cons ?_ (joins_undotted hop []).front hright .nil
        simp only [List.length_append]
        omega
      have hlt : ts.length < (ts ++ (ots ++ us)).length := by
        have hots := List.length_pos_iff.mpr (Phrase.Level.joins_ne_nil hop)
        simp only [List.length_append]
        omega
      have hwhole : Expr.Spread limit vars _ ([] ++ (ts ++ _)) _ :=
        .cons hlt (joins_undotted hop _).back hleft hspread
      simpa using hwhole

/-- A phrase of settled operands is built to an expression that stands on its row. -/
theorem Phrase.stands_of_build {next : Nat} {ts : List Token} {p : Phrase}
    (h : p.Rows (fun next ts o => o.SettledIn limit vars next ts) next ts) {b : Built}
    (hb : p.build limit = .ok b) : b.expr.Stands limit vars ts := by
  rw [build, assemble] at hb
  split at hb
  · cases hb
  · next hnone =>
    rw [runFault_eq_none] at hnone
    rw [row_tree] at hb
    exact Chain.stands_of_fold (Rows.tree (fun _ _ _ ho => ho.ne_nil) h) (Chain.tight_ofRow _ _)
      ((Chain.all_ofRow _ _ _).mpr hnone) hb

/-- A spelled operand whose expression has its place and its parts in the row stands on the row. -/
theorem Operand.stands_of_build {next : Nat} {ts : List Token} {o : Operand}
    (h : Spells next ts (.operand o)) (hvars : ∀ v ∈ o.variables, v ∈ vars)
    (hruns : runLevels o.signCount ≤ limit) {b : Built} (hb : o.build limit = .ok b)
    (hspan : b.expr.span = Token.cover ts)
    (hchildren : Expr.Spread limit vars ts.length ts b.expr.children) :
    b.expr.Stands limit vars ts := by
  have hbuild : (Phrase.last o (o.lastStop false next)).build limit = .ok b := by
    rw [Phrase.build_eq_fold (c := .leaf o) rfl trivial hruns]
    exact hb
  exact .intro (.last h) hvars hbuild hspan hchildren

/-- Without signs before it an operand has no run of them. -/
theorem spells_no_sign {next : Nat} {ts : List Token} {f : Form} (h : Spells next ts f) :
    match f with
    | .indexed o | .primary o => o.signCount = 0
    | _ => True := by
  cases h with
  | base h => cases h <;> rfl
  | _ => trivial

/-- A run of signs that is short enough is so without its first sign. -/
theorem runs_of_signed {op : Placed PrefixOp} {o : Operand}
    (h : runLevels (Operand.signed op o).signCount ≤ limit) : runLevels o.signCount ≤ limit := by
  have hlong : o.signCount + 1 + 1 ≤ limit := h
  rw [runLevels]
  split_ifs <;> omega

/-- What has no signs has no run of them. -/
theorem runs_of_indexed {next : Nat} {ts : List Token} {o : Operand}
    (h : Spells next ts (.indexed o)) : runLevels o.signCount ≤ limit := by
  have hnone : o.signCount = 0 := spells_no_sign h
  rw [hnone]
  exact Nat.zero_le limit

def Form.Settled (limit : Nat) (vars : List Nat) (next : Nat) (ts : List Token) : Form → Prop
  | .phrase _ p => p.Rows (fun next ts o => o.SettledIn limit vars next ts) next ts
  | .operand o => o.Settled limit vars ts
  | .indexed o | .primary o => o.Settled limit vars ts
  | .phrases ps => ∀ n bs, ts.length < n → Phrase.buildAll limit ps = .ok bs →
      Expr.Spread limit vars n ts (bs.map (·.expr))
  | .element e => ∀ b, e.build limit = .ok b → b.expr.Stands limit vars ts
  | .elements es => ∀ n bs, ts.length < n → Element.buildAll limit es = .ok bs →
      Expr.Spread limit vars n ts (bs.map (·.expr))
  | .type _ => True

/-- What stands in brackets is spread over the row with the brackets. -/
theorem Expr.Spread.between {n : Nat} {ts : List Token} {es : List Expr}
    (h : ts.length < n → Spread limit vars n ts es) (hn : ts.length < n) (pre : List Token) (r : Token)
    (hout : Token.Undotted pre [r]) : Spread limit vars n (pre ++ (ts ++ [r])) es :=
  (h hn).append pre [r] hout

theorem Expr.Stands.spread {n : Nat} {ts : List Token} {e : Expr} (h : e.Stands limit vars ts)
    (hn : ts.length < n) : Spread limit vars n ts [e] := by
  have hspread : Spread limit vars n ([] ++ (ts ++ [])) [e] := .cons hn Token.undotted_nil h .nil
  simpa using hspread

/-- An item before others and a comma. -/
theorem Expr.Stands.before {n : Nat} {ts us : List Token} {e : Expr} {es : List Expr}
    (h : e.Stands limit vars ts) (hn : ts.length < n) (c : Token) (hc : c.value ≠ .symbol .dot)
    (hes : Spread limit vars n us es) : Spread limit vars n (ts ++ c :: us) (e :: es) := by
  have hrest : Spread limit vars n (c :: us) es := by
    simpa using hes.append [c] [] (by simpa [Token.Undotted] using hc)
  have hspread : Spread limit vars n ([] ++ (ts ++ c :: us)) (e :: es) :=
    .cons hn (by simpa [Token.Undotted] using hc) h hrest
  simpa using hspread

structure Form.Settles (limit : Nat) (vars : List Nat) (next : Nat) (ts : List Token) (f : Form) : Prop where
  spelled : Spells next ts f
  settled (hvars : ∀ v ∈ f.variables, v ∈ vars) : f.Settled limit vars next ts

namespace Form.Settles

variable {next : Nat} {ts us : List Token} {l c m e : Token} {o : Operand} {p k v : Phrase} {t : TypeExpr}

theorem stands {joined : Bool} (h : (phrase joined p).Settles limit vars next ts)
    (hvars : ∀ v ∈ p.variables, v ∈ vars) {b : Built} (hb : p.build limit = .ok b) :
    b.expr.Stands limit vars ts :=
  Phrase.stands_of_build (h.settled hvars) hb

theorem last (joined : Bool) (h : (operand o).Settles limit vars next ts) :
    (phrase joined (.last o (o.lastStop joined next))).Settles limit vars next ts :=
  ⟨.last h.spelled, fun hvars => .last ⟨h.spelled, hvars, h.settled hvars⟩⟩

theorem join {ots : List Token} {joined : Bool} {op : Placed InfixOp}
    (h : (operand o).Settles limit vars (startOf ots) ts) (hop : Joins ots us op)
    (hp : (phrase true p).Settles limit vars next us) :
    (phrase joined (.join o op p)).Settles limit vars next (ts ++ (ots ++ us)) := by
  refine ⟨.join h.spelled hop hp.spelled, fun hvars => ?_⟩
  have hboth := List.forall_mem_append.mp hvars
  exact .join ⟨h.spelled, hboth.1, h.settled hboth.1⟩ hop (hp.settled hboth.2)

theorem signed {op : PrefixOp} {s : Symbol} (hm : m.value = .symbol s) (hs : PrefixOp.ofSymbol? s = some op)
    (h : (operand o).Settles limit vars next ts) :
    (operand (.signed ⟨op, m.span⟩ o)).Settles limit vars next (m :: ts) := by
  refine ⟨.signed hm hs h.spelled, fun hvars hruns b hb => ?_⟩
  have hbuild := hb
  rw [Operand.build] at hb
  obtain ⟨built, hbuilt, hb⟩ := bind_eq_ok.mp hb
  have hstands := h.settled hvars (runs_of_signed hruns) built hbuilt
  obtain ⟨hspan, hchildren⟩ := Built.sign_eq_ok hb
  refine Operand.stands_of_build (.signed hm hs h.spelled) hvars hruns hbuild ?_ ?_
  · rw [hspan, hstands.span]
    exact Token.cover_from m [] hstands.ne_nil
  · rcases hchildren with hnone | hone
    · rw [hnone]
      exact .nil
    · rw [hone]
      have hdot : m.value ≠ .symbol .dot := by
        rintro hdot
        obtain rfl := Lexeme.symbol.inj (hm.symm.trans hdot)
        cases hs
      have hspread := (hstands.spread (Nat.lt_succ_self _)).append [m] []
        (by simpa [Token.Undotted] using hdot)
      simpa using hspread

/-- The base stands on the tokens before the bracket, and the position on those in the brackets. -/
theorem index (h : (indexed o).Settles limit vars l.span.start ts) (hl : l.value = .symbol (.opening .square))
    (hp : (phrase false p).Settles limit vars e.span.start us) (he : e.value = .symbol (.closing .square)) :
    (indexed (.index o p e.span.stop)).Settles limit vars next (ts ++ l :: (us ++ [e])) := by
  refine ⟨.index h.spelled hl hp.spelled he, fun hvars hruns b hb => ?_⟩
  have hspells : Spells next _ (.operand _) := .unsigned (.index h.spelled hl hp.spelled he)
  have hbuild := hb
  rw [Operand.build] at hb
  obtain ⟨x, hx, hb⟩ := bind_eq_ok.mp hb
  obtain ⟨y, hy, hb⟩ := bind_eq_ok.mp hb
  obtain ⟨height, rfl⟩ := Built.index_eq_ok hb
  have hboth := List.forall_mem_append.mp hvars
  have hstands := h.settled hboth.1 (runs_of_indexed h.spelled) x hx
  have hposition := hp.stands hboth.2 hy
  refine Operand.stands_of_build hspells hvars hruns hbuild ?_ ?_
  · change (⟨x.expr.span.start, e.span.stop⟩ : Span) = _
    rw [Token.cover_closed hstands.ne_nil, hstands.span]
    rfl
  · have hinner := (hposition.spread (n := (ts ++ l :: (us ++ [e])).length) (by
      simp only [List.length_append, List.length_cons]
      omega)).append [] [e] (by simp [Token.Undotted, he])
    exact hstands.before (by
      simp only [List.length_append, List.length_cons]
      omega) l (by simp [hl]) hinner

theorem atom {a : Atom} (hm : m.value = .atom a) :
    (primary (.atom ⟨a, m.span⟩)).Settles limit vars next [m] := by
  refine ⟨.atom hm, fun hvars hruns b hb => ?_⟩
  obtain ⟨hspan, hchildren⟩ := Built.atom_eq_ok hb
  have hspells : Spells next [m] (.operand (.atom ⟨a, m.span⟩)) := .unsigned (.base (.atom hm))
  refine Operand.stands_of_build hspells hvars hruns hb hspan ?_
  rw [hchildren]
  exact .nil

theorem group (hl : l.value = .symbol (.opening .round)) (h : (phrase false p).Settles limit vars e.span.start ts)
    (he : e.value = .symbol (.closing .round)) :
    (primary (.group (l.span.cover e.span) p)).Settles limit vars next (l :: (ts ++ [e])) := by
  refine ⟨.group hl h.spelled he, fun hvars hruns b hb => ?_⟩
  have hspells : Spells next _ (.operand _) := .unsigned (.base (.group hl h.spelled he))
  have hbuild := hb
  rw [Operand.build] at hb
  obtain ⟨x, hx, hb⟩ := bind_eq_ok.mp hb
  obtain rfl := Built.above_eq_ok hb
  have hinner := h.stands hvars hx
  refine Operand.stands_of_build hspells hvars hruns hbuild ?_ ?_
  · exact Token.cover_from l ts (List.cons_ne_nil e [])
  · refine Expr.Spread.between (fun hn => hinner.spread hn) ?_ [l] e (by simp [Token.Undotted, hl, he])
    simp only [List.length_append, List.length_cons, List.length_nil]
    omega

theorem call {ps : List Phrase} {text : List Char} (hm : m.value = .atom (.name text))
    (hl : l.value = .symbol (.opening .round)) (h : (phrases ps).Settles limit vars e.span.start ts)
    (he : e.value = .symbol (.closing .round)) :
    (primary (.call (m.span.cover e.span) text ps)).Settles limit vars next (m :: l :: (ts ++ [e])) := by
  refine ⟨.call hm hl h.spelled he, fun hvars hruns b hb => ?_⟩
  have hspells : Spells next _ (.operand _) := .unsigned (.base (.call hm hl h.spelled he))
  have hbuild := hb
  rw [Operand.build] at hb
  obtain ⟨xs, hxs, hb⟩ := bind_eq_ok.mp hb
  obtain rfl := Built.above_eq_ok hb
  refine Operand.stands_of_build hspells hvars hruns hbuild ?_ ?_
  · exact Token.cover_from m (l :: ts) (List.cons_ne_nil e [])
  · refine Expr.Spread.between (fun hn => h.settled hvars _ xs hn hxs) ?_ [m, l] e
      (by simp [Token.Undotted, hl, he])
    simp only [List.length_append, List.length_cons, List.length_nil]
    omega

/-- Only the elements are nodes; the type in front of them is not built. -/
theorem composite {es : List Element} (h : Spells l.span.start ts (type t)) (hc : t.IsComposite)
    (hl : l.value = .symbol (.opening .curly)) (hes : (elements es).Settles limit vars e.span.start us)
    (he : e.value = .symbol (.closing .curly)) :
    (primary (.composite ⟨startOf ts, e.span.stop⟩ t es)).Settles limit vars next (ts ++ l :: (us ++ [e])) := by
  refine ⟨.composite h hc hl hes.spelled he, fun hvars hruns b hb => ?_⟩
  have hspells : Spells next _ (.operand _) := .unsigned (.base (.composite h hc hl hes.spelled he))
  have hbuild := hb
  rw [Operand.build] at hb
  split at hb
  · cases hb
  obtain ⟨xs, hxs, hb⟩ := bind_eq_ok.mp hb
  obtain rfl := Built.above_eq_ok hb
  have helements := (List.forall_mem_append.mp hvars).2
  refine Operand.stands_of_build hspells hvars hruns hbuild ?_ ?_
  · exact (Token.cover_closed (h.ne_nil id) l us e).symm
  · have hspread := Expr.Spread.between (n := (ts ++ l :: (us ++ [e])).length)
      (fun hn => hes.settled helements _ xs hn hxs) (by
        simp only [List.length_append, List.length_cons, List.length_nil]
        omega) (ts ++ [l]) e (by simp [Token.Undotted, hl, he])
    simpa [Expr.children] using hspread

theorem noPhrase : (phrases []).Settles limit vars next [] := by
  refine ⟨.noPhrase, fun _ n bs _ hbs => ?_⟩
  obtain rfl := Except.ok.inj hbs
  exact .nil

theorem onePhrase (h : (phrase false p).Settles limit vars next ts) :
    (phrases [p]).Settles limit vars next ts := by
  refine ⟨.onePhrase h.spelled, fun hvars n bs hn hbs => ?_⟩
  obtain ⟨x, xs, hx, hxs, rfl⟩ := Phrase.buildAll_cons.mp hbs
  obtain rfl := Except.ok.inj hxs
  simp only [Form.variables, Phrase.variablesOfAll, List.append_nil] at hvars
  exact (h.stands hvars hx).spread hn

theorem morePhrases {ps : List Phrase} (h : (phrase false p).Settles limit vars c.span.start ts)
    (hc : c.value = .symbol .comma) (hs : (phrases ps).Settles limit vars next us) :
    (phrases (p :: ps)).Settles limit vars next (ts ++ c :: us) := by
  refine ⟨.morePhrases h.spelled hc hs.spelled, fun hvars n bs hn hbs => ?_⟩
  rw [List.length_append, List.length_cons] at hn
  obtain ⟨x, xs, hx, hxs, rfl⟩ := Phrase.buildAll_cons.mp hbs
  have hboth := List.forall_mem_append.mp hvars
  exact (h.stands hboth.1 hx).before (by omega) _ (by simp [hc]) (hs.settled hboth.2 n xs (by omega) hxs)

theorem plain (h : (phrase false p).Settles limit vars next ts) :
    (element (.plain p)).Settles limit vars next ts :=
  ⟨.plain h.spelled, fun hvars _ hb => h.stands hvars hb⟩

theorem keyed (hk : Spells c.span.start ts (phrase false k)) (hc : c.value = .symbol .colon)
    (hv : Spells next us (phrase false v)) :
    (element (.keyed ⟨startOf ts, v.stop⟩ k v)).Settles limit vars next (ts ++ c :: us) :=
  ⟨.keyed hk hc hv, fun _ _ hb => by cases hb⟩

theorem noElement : (elements []).Settles limit vars next [] := by
  refine ⟨.noElement, fun _ n bs _ hbs => ?_⟩
  obtain rfl := Except.ok.inj hbs
  exact .nil

theorem oneElement {a : Element} (h : (element a).Settles limit vars next ts) :
    (elements [a]).Settles limit vars next ts := by
  refine ⟨.oneElement h.spelled, fun hvars n bs hn hbs => ?_⟩
  obtain ⟨x, xs, hx, hxs, rfl⟩ := Element.buildAll_cons.mp hbs
  obtain rfl := Except.ok.inj hxs
  simp only [Form.variables, Element.variablesOfAll, List.append_nil] at hvars
  exact (h.settled hvars x hx).spread hn

theorem moreElements {a : Element} {es : List Element} (h : (element a).Settles limit vars c.span.start ts)
    (hc : c.value = .symbol .comma) (hs : (elements es).Settles limit vars next us) :
    (elements (a :: es)).Settles limit vars next (ts ++ c :: us) := by
  refine ⟨.moreElements h.spelled hc hs.spelled, fun hvars n bs hn hbs => ?_⟩
  rw [List.length_append, List.length_cons] at hn
  obtain ⟨x, xs, hx, hxs, rfl⟩ := Element.buildAll_cons.mp hbs
  have hboth := List.forall_mem_append.mp hvars
  exact (h.settled hboth.1 x hx).before (by omega) _ (by simp [hc]) (hs.settled hboth.2 n xs (by omega) hxs)

/-- No node is built of a type. -/
theorem type (h : Spells next ts (.type t)) : (Form.type t).Settles limit vars next ts := ⟨h, fun _ => trivial⟩

end Form.Settles

theorem settles_of_spells {next : Nat} {ts : List Token} {f : Form} (h : Spells next ts f) :
    f.Settles limit vars next ts := by
  induction h with
  | @last _ _ joined _ _ ih => exact ih.last joined
  | join _ hop _ ih ihr => exact ih.join hop ihr
  | signed ht hs _ ih => exact ih.signed ht hs
  | unsigned h ih => exact ⟨.unsigned h, ih.settled⟩
  | base h ih => exact ⟨.base h, ih.settled⟩
  | index _ hl _ hr ihb ihp => exact ihb.index hl ihp hr
  | atom ht => exact .atom ht
  | group hl _ hr ih => exact .group hl ih hr
  | call hf hl _ hr ih => exact .call hf hl ih hr
  | composite ht hc hl _ hr _ ihes => exact .composite ht hc hl ihes hr
  | noPhrase => exact .noPhrase
  | onePhrase _ ih => exact ih.onePhrase
  | morePhrases _ hc _ ih ihs => exact ih.morePhrases hc ihs
  | plain _ ih => exact ih.plain
  | keyed hk hc hv _ _ => exact .keyed hk hc hv
  | noElement => exact .noElement
  | oneElement _ ih => exact ih.oneElement
  | moreElements _ hc _ ih ihs => exact ih.moreElements hc ihs
  | mapType hw hl hk hr hv _ _ => exact .type (.mapType hw hl hk hr hv)
  | sliceType hl hr he _ => exact .type (.sliceType hl hr he)
  | arrayType hl hp hr he _ _ => exact .type (.arrayType hl hp hr he)
  | openArrayType hl hd hr he _ => exact .type (.openArrayType hl hd hr he)
  | pointerType hm he _ => exact .type (.pointerType hm he)
  | qualifiedType ht hd hu htd hdu => exact .type (.qualifiedType ht hd hu htd hdu)
  | namedType ht => exact .type (.namedType ht)

theorem spells_settled {next : Nat} {ts : List Token} {f : Form} (h : Spells next ts f)
    (hvars : ∀ v ∈ f.variables, v ∈ vars) : f.Settled limit vars next ts :=
  (settles_of_spells h).settled hvars

end Stands

/-- What is compiled is built from the phrase that the tokens of the source spell, up to the mark of the
end. -/
theorem compile_spells {limit : Nat} {source : String} {e : Expr} (h : compile limit source = .ok e) :
    ∃ p us b, Phrase.ofTokens? (Token.list source.toList) = some p ∧ Laid 0 source.toList us ∧
      Spells (byteSize source.toList) us (.phrase false p) ∧ p.build limit = .ok b ∧ b.expr = e := by
  obtain ⟨b, hb, rfl⟩ := compile_eq_ok.mp h
  rw [build] at hb
  split at hb
  · cases hb
  simp only at hb
  split at hb
  · cases hb
  · next p hp =>
    obtain ⟨-, us, f, hlist, -, hspells⟩ := Nesting.tokens_of_phrase hp
    obtain ⟨hlaid, rfl⟩ := Laid.of_list hlist
    exact ⟨p, us, b, hp, hlaid, hspells, hb, rfl⟩

/-- A tree that is compiled stands on the tokens of its source. -/
theorem compile_stands {limit : Nat} {source : String} {e : Expr} (h : compile limit source = .ok e) :
    ∃ p us, Phrase.ofTokens? (Token.list source.toList) = some p ∧ Laid 0 source.toList us ∧
      Spells (byteSize source.toList) us (.phrase false p) ∧
      e.Stands limit p.variables us := by
  obtain ⟨p, us, b, hp, hlaid, hspells, hb, rfl⟩ := compile_spells h
  exact ⟨p, us, hp, hlaid, hspells,
    Phrase.stands_of_build (spells_settled hspells fun v hv => hv) hb⟩

namespace Token

variable {ts us : List Token}

/-- Tokens in a line cover a place that is not empty. -/
theorem Lined.cover_pos (h : Lined ts) (hts : ts ≠ []) : (cover ts).start < (cover ts).stop := by
  induction ts with
  | nil => exact absurd rfl hts
  | cons t ts ih =>
    obtain ⟨hpos, htail, hle⟩ := lined_cons_iff.mp h
    by_cases hne : ts = []
    · subst hne
      exact hpos
    · have hcover := ih htail hne
      obtain ⟨u, ts, rfl⟩ := List.exists_cons_of_ne_nil hne
      have hfirst := hle u List.mem_cons_self
      rw [cover, stopOf_cons hne]
      change t.span.start < (cover (u :: ts)).stop
      change u.span.start < (cover (u :: ts)).stop at hcover
      omega

/-- The row before others stops where they start, or earlier. -/
theorem Lined.stop_le_start (h : Lined (ts ++ us)) (hts : ts ≠ []) (hus : us ≠ []) :
    (cover ts).stop ≤ (cover us).start := by
  obtain ⟨ts, t, rfl⟩ := List.eq_nil_or_concat ts |>.resolve_left hts
  obtain ⟨u, us, rfl⟩ := List.exists_cons_of_ne_nil hus
  obtain ⟨-, -, hle⟩ := lined_append_iff.mp h
  rw [List.concat_eq_append] at hle ⊢
  rw [cover, stopOf_last]
  exact hle t (by simp) u List.mem_cons_self

theorem Lined.start_lt (h : Lined (ts ++ us)) (hts : ts ≠ []) (hus : us ≠ []) :
    startOf (ts ++ us) < startOf us := by
  have hlt := (lined_append_iff.mp h).1.cover_pos hts
  have hle := h.stop_le_start hts hus
  rw [Phrase.startOf_append hts]
  exact Nat.lt_of_lt_of_le hlt hle

theorem Lined.stop_lt (h : Lined (ts ++ us)) (hts : ts ≠ []) (hus : us ≠ []) :
    stopOf ts < stopOf (ts ++ us) := by
  have hlt := (lined_append_iff.mp h).2.1.cover_pos hus
  have hle := h.stop_le_start hts hus
  rw [stopOf_append hus]
  exact Nat.lt_of_le_of_lt hle hlt

/-- A part of a row covers a part of its place, and a shorter part a smaller one. -/
theorem Lined.cover_part {pre post : List Token} (h : Lined (pre ++ (us ++ post))) (hus : us ≠ []) :
    (cover (pre ++ (us ++ post))).start ≤ (cover us).start ∧
      (cover us).stop ≤ (cover (pre ++ (us ++ post))).stop ∧
      (us.length < (pre ++ (us ++ post)).length → cover us ≠ cover (pre ++ (us ++ post))) := by
  have hrest : us ++ post ≠ [] := List.append_ne_nil_of_left_ne_nil hus post
  have hmid : Lined (us ++ post) := (lined_append_iff.mp h).2.1
  have hfront : pre ≠ [] → startOf (pre ++ (us ++ post)) < startOf us := by
    intro hne
    have hlt := h.start_lt hne hrest
    rwa [Phrase.startOf_append hus] at hlt
  have hback : post ≠ [] → stopOf us < stopOf (pre ++ (us ++ post)) := by
    intro hne
    rw [stopOf_append hrest]
    exact hmid.stop_lt hus hne
  have hnofront : pre = [] → startOf (pre ++ (us ++ post)) = startOf us := by
    rintro rfl
    exact Phrase.startOf_append hus
  have hnoback : post = [] → stopOf (pre ++ (us ++ post)) = stopOf us := by
    rintro rfl
    rw [List.append_nil, stopOf_append hus]
  refine ⟨?_, ?_, fun hlength he => ?_⟩
  · by_cases hpre : pre = []
    · exact Nat.le_of_eq (hnofront hpre)
    · exact Nat.le_of_lt (hfront hpre)
  · by_cases hpost : post = []
    · exact Nat.le_of_eq (hnoback hpost).symm
    · exact Nat.le_of_lt (hback hpost)
  · obtain ⟨hstart, hstop⟩ := Span.mk.inj he
    by_cases hpre : pre = []
    · by_cases hpost : post = []
      · rw [hpre, hpost] at hlength
        simp at hlength
      · have hlt := hback hpost
        omega
    · have hlt := hfront hpre
      omega

end Token

/-- A node is where it belongs: on a place that is not empty and can be sliced out of the source, with
the nodes right below it inside its own place, smaller than it and one behind the other. -/
structure Expr.Placed (cs : List Char) (n : Expr) : Prop where
  nonempty : n.span.start < n.span.stop
  fits : n.span.Fits cs
  inside : ∀ c ∈ n.children,
    n.span.start ≤ c.span.start ∧ c.span.stop ≤ n.span.stop ∧ c.span ≠ n.span
  ordered : n.children.Pairwise fun c d => c.span.stop ≤ d.span.start

section Placed

variable {limit : Nat} {vars : List Nat} {cs : List Char} {ts : List Token} {e : Expr}

/-- Tokens that stand in a text cover a place that can be sliced out of it. -/
theorem Laid.fits {pre us post : List Token} (h : Laid 0 cs (pre ++ (us ++ post))) (hus : us ≠ []) :
    (Token.cover us).Fits cs := by
  have hlined := (Token.lined_append_iff.mp (Token.lined_append_iff.mp h.lined).2.1).1
  have hpos := hlined.cover_pos hus
  refine Span.fits_of_boundary (Nat.le_of_lt hpos) ?_ ?_
  · obtain ⟨u, us, rfl⟩ := List.exists_cons_of_ne_nil hus
    obtain ⟨-, before, behind, rfl, hspan⟩ := h.stands (t := u) (by simp)
    refine ⟨before, u.value.text ++ behind, rfl, ?_⟩
    change byteSize before = u.span.start
    rw [hspan, Nat.zero_add]
  · obtain ⟨us, u, rfl⟩ := List.eq_nil_or_concat us |>.resolve_left hus
    rw [List.concat_eq_append] at h ⊢
    obtain ⟨-, before, behind, rfl, hspan⟩ := h.stands (t := u) (by simp)
    refine ⟨before ++ u.value.text, behind, by simp, ?_⟩
    rw [Token.stopOf_last, hspan, Nat.zero_add, byteSize_append]

theorem Expr.Spread.ordered {n : Nat} {es : List Expr} (h : Spread limit vars n ts es)
    (hts : Token.Lined ts) : es.Pairwise fun c d => c.span.stop ≤ d.span.start := by
  induction es generalizing ts with
  | nil => exact .nil
  | cons e es ih =>
    cases h with
    | @cons _ gap us ts _ _ hlt _ he hes =>
      obtain ⟨-, hrest, -⟩ := Token.lined_append_iff.mp hts
      obtain ⟨-, htail, -⟩ := Token.lined_append_iff.mp hrest
      refine List.pairwise_cons.mpr ⟨fun d hd => ?_, ih hes htail⟩
      obtain ⟨pre, vs, post, rfl, -, -, hd⟩ := hes.part d hd
      rw [he.span, hd.span]
      have hline : Token.Lined (us ++ ((pre ++ vs) ++ post)) := by simpa using hrest
      have hfront : Token.Lined (us ++ (pre ++ vs)) := by
        rw [← List.append_assoc] at hline
        exact (Token.lined_append_iff.mp hline).1
      have hne : pre ++ vs ≠ [] := List.append_ne_nil_of_right_ne_nil pre hd.ne_nil
      have hle := hfront.stop_le_start he.ne_nil hne
      have hlast : Token.Lined (pre ++ (vs ++ [])) := by
        simpa using (Token.lined_append_iff.mp hfront).2.1
      have hstart := (hlast.cover_part hd.ne_nil).1
      rw [List.append_nil] at hstart
      exact Nat.le_trans hle hstart

/-- A node that stands on tokens of a text is where it belongs. -/
theorem Expr.Stands.placed {pre post : List Token} (h : e.Stands limit vars ts)
    (hlaid : Laid 0 cs (pre ++ (ts ++ post))) : e.Placed cs := by
  have hne := h.ne_nil
  have hline := (Token.lined_append_iff.mp (Token.lined_append_iff.mp hlaid.lined).2.1).1
  have hspan := h.span
  cases h with
  | intro _ _ _ _ hchildren =>
    refine ⟨?_, ?_, fun c hc => ?_, hchildren.ordered hline⟩
    · rw [hspan]
      exact hline.cover_pos hne
    · rw [hspan]
      exact hlaid.fits hne
    · obtain ⟨before, us, behind, rfl, hlt, -, hstands⟩ := hchildren.part c hc
      obtain ⟨hstart, hstop, hsmall⟩ := hline.cover_part hstands.ne_nil
      rw [hspan, hstands.span]
      exact ⟨hstart, hstop, hsmall hlt⟩

end Placed

/-- Every node of a compiled tree is where it belongs. -/
theorem compile_placed {limit : Nat} {source : String} {e : Expr}
    (h : compile limit source = .ok e) : ∀ n ∈ e.nodes, n.Placed source.toList := by
  obtain ⟨p, us, -, hlaid, -, hstands⟩ := compile_stands h
  intro n hn
  obtain ⟨pre, vs, post, rfl, hnode⟩ := hstands.node hn
  exact hnode.placed hlaid

end Formula
