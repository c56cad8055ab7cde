import Formula.Engine
import Formula.Proofs.ReaderMarks
import Formula.Proofs.TreePlaces

namespace Formula

open Formula.Parser

section Scan

open Formula.Nesting

/-- A bracket stands at the edge of a character, and takes one byte. -/
theorem Nesting.bracket_edges {mode : Mode} {offset : Nat} {cs : List Char} {b : Nat × Bool}
    (h : b ∈ brackets mode offset cs) :
    ∃ pre c post, cs = pre ++ ([c] ++ post) ∧ b.1 = offset + byteSize pre ∧ byteSize [c] = 1 := by
  have one {c : Char} (hc : opens c = true ∨ closes c = true) : byteSize [c] = 1 := by
    simp only [opens, closes, List.mem_cons, List.not_mem_nil, or_false, decide_eq_true_eq] at hc
    rcases hc with (rfl | rfl | rfl) | (rfl | rfl | rfl) <;> decide
  induction cs generalizing mode offset with
  | nil => simp [brackets] at h
  | cons c cs ih =>
    have behind (h : b ∈ brackets (after c cs mode) (offset + c.utf8Size) cs) :
        ∃ pre d post, c :: cs = pre ++ ([d] ++ post) ∧ b.1 = offset + byteSize pre ∧
          byteSize [d] = 1 := by
      obtain ⟨pre, d, post, rfl, hb, hd⟩ := ih h
      refine ⟨c :: pre, d, post, rfl, ?_, hd⟩
      rw [hb, byteSize, Nat.add_assoc]
    rw [brackets] at h
    split_ifs at h with hopens hcloses
    · rcases List.mem_cons.mp h with rfl | h
      · exact ⟨[], c, cs, rfl, rfl, one (.inl hopens.2)⟩
      · exact behind h
    · rcases List.mem_cons.mp h with rfl | h
      · exact ⟨[], c, cs, rfl, rfl, one (.inr hcloses.2)⟩
      · exact behind h
    · exact behind h

theorem Nesting.firstDeeper_mem {limit depth offset : Nat} {bs : List (Nat × Bool)}
    (h : firstDeeper? limit depth bs = some offset) : ∃ b ∈ bs, b.1 = offset := by
  induction bs generalizing depth with
  | nil => cases h
  | cons b bs ih =>
    obtain ⟨o, _ | _⟩ := b
    · obtain ⟨b, hb, he⟩ := ih h
      exact ⟨b, List.mem_cons_of_mem _ hb, he⟩
    · rw [firstDeeper?] at h
      split_ifs at h
      · exact ⟨_, List.mem_cons_self, Option.some.inj h⟩
      · obtain ⟨b, hb, he⟩ := ih h
        exact ⟨b, List.mem_cons_of_mem _ hb, he⟩

/-- The bracket that opens too deep can be sliced out of the source. -/
theorem Nesting.deeper_fits {limit offset : Nat} {cs : List Char}
    (h : firstDeeper? limit 0 (brackets .code 0 cs) = some offset) :
    Span.Fits ⟨offset, offset + 1⟩ cs := by
  obtain ⟨b, hb, rfl⟩ := firstDeeper_mem h
  obtain ⟨pre, c, post, rfl, hstart, hsize⟩ := bracket_edges hb
  have hfits := Span.fits_append pre [c] post
  rw [Nat.zero_add] at hstart
  rwa [hsize, ← hstart] at hfits

end Scan

/-- The place where a text turns out to be no phrase can be sliced out of it. -/
theorem unreadable_fits (cs : List Char) : (unreadable cs (Token.list cs)).span.Fits cs := by
  have boundary : Boundary cs (Phrase.furthest (Token.list cs)).position := by
    rcases Phrase.furthest_position (Token.list cs) with hzero | ⟨t, ht, hstart⟩
    · exact ⟨[], cs, rfl, hzero.symm⟩
    · obtain ⟨ts, hts⟩ := Laid.exists_laid 0 cs
      rw [hts.list_eq] at ht
      rw [← hstart]
      rcases List.mem_append.mp ht with ht | ht
      · obtain ⟨-, pre, post, rfl, hspan⟩ := hts.stands ht
        exact ⟨pre, _, rfl, by rw [hspan, Nat.zero_add]⟩
      · obtain rfl := List.mem_singleton.mp ht
        exact ⟨cs, [], (List.append_nil cs).symm, rfl⟩
  exact Span.fits_of_boundary (Nat.le_refl _) boundary boundary

section Building

/-- The row stands in a line, and its edges and the offset behind it are in a set of places. -/
structure Token.Edged (B : Nat → Prop) (next : Nat) (ts : List Token) : Prop where
  lined : Token.Lined ts
  edges : ∀ t ∈ ts, B t.span.start ∧ B t.span.stop
  behind : ∀ t ∈ ts, t.span.stop ≤ next
  next : B next

def Span.Between (B : Nat → Prop) (s : Span) : Prop := s.start ≤ s.stop ∧ B s.start ∧ B s.stop

variable {B : Nat → Prop} {next limit : Nat} {vars : List Nat} {ts us : List Token} {t : Token}

namespace Token.Edged

theorem front (h : Edged B next (ts ++ us)) (hus : us ≠ []) : Edged B (startOf us) ts := by
  obtain ⟨u, us, rfl⟩ := List.exists_cons_of_ne_nil hus
  obtain ⟨hts, -, hle⟩ := lined_append_iff.mp h.lined
  refine ⟨hts, fun t ht => h.edges t (List.mem_append_left _ ht), ?_, ?_⟩
  · exact fun t ht => hle t ht u List.mem_cons_self
  · exact (h.edges u (by simp)).1

theorem before_operator {ots : List Token} (h : Edged B next (ts ++ (ots ++ us))) (hots : ots ≠ []) :
    Edged B (startOf ots) ts := by
  have hfront := h.front (List.append_ne_nil_of_left_ne_nil hots us)
  rwa [Phrase.startOf_append hots] at hfront

theorem back (h : Edged B next (ts ++ us)) : Edged B next us :=
  ⟨(lined_append_iff.mp h.lined).2.1, fun t ht => h.edges t (List.mem_append_right _ ht),
    fun t ht => h.behind t (List.mem_append_right _ ht), h.next⟩

theorem tail (h : Edged B next (t :: ts)) : Edged B next ts :=
  back (show Edged B next ([t] ++ ts) from h)

theorem token (h : Edged B next ts) (ht : t ∈ ts) : t.span.Between B :=
  ⟨Nat.le_of_lt (h.lined.1 t ht), (h.edges t ht).1, (h.edges t ht).2⟩

theorem start_edge (h : Edged B next ts) (hts : ts ≠ []) : B (startOf ts) := by
  obtain ⟨u, us, rfl⟩ := List.exists_cons_of_ne_nil hts
  exact (h.edges u List.mem_cons_self).1

theorem stop_edge (h : Edged B next ts) (hts : ts ≠ []) :
    B (stopOf ts) ∧ stopOf ts ≤ next := by
  obtain ⟨us, u, rfl⟩ := List.eq_nil_or_concat ts |>.resolve_left hts
  rw [List.concat_eq_append] at h ⊢
  rw [stopOf_last]
  exact ⟨(h.edges u (by simp)).2, h.behind u (by simp)⟩

theorem cover (h : Edged B next ts) (hts : ts ≠ []) : (Token.cover ts).Between B :=
  ⟨Nat.le_of_lt (h.lined.cover_pos hts), h.start_edge hts, (h.stop_edge hts).1⟩

/-- From the start of a row to the end of it, or to what stands behind it. -/
theorem reach (h : Edged B next ts) (hts : ts ≠ []) {stop : Nat}
    (hstop : stop = next ∨ stop = stopOf ts) : Span.Between B ⟨startOf ts, stop⟩ := by
  have hcover := h.cover hts
  rcases hstop with rfl | rfl
  · exact ⟨Nat.le_trans hcover.1 (h.stop_edge hts).2, hcover.2.1, h.next⟩
  · exact hcover

end Token.Edged

open Token (Edged)

/-- An index that ends an operand ends its row. -/
theorem spells_indexStop {f : Form} (h : Spells next ts f) :
    match f with
    | .operand o | .indexed o | .primary o => ∀ s, o.indexStop? = some s → s = Token.stopOf ts
    | _ => True := by
  induction h with
  | @signed next ts o op t s _ _ h ih =>
    intro s hs
    rw [Token.stopOf_cons (h.ne_nil id)]
    exact ih s hs
  | unsigned _ ih => exact ih
  | base _ ih => exact ih
  | @index next ts us b p l r =>
    intro s hs
    obtain rfl := Option.some.inj hs
    rw [Token.stopOf_append (List.cons_ne_nil _ _), Token.stopOf_cons (by simp), Token.stopOf_last]
  | atom | group | call | composite => exact fun s hs => by cases hs
  | _ => trivial

/-- A phrase stops where its last token does, or where the next token starts. -/
theorem spells_stop : ∀ {p : Phrase} {ts : List Token} {joined : Bool},
    Spells next ts (.phrase joined p) → p.stop = next ∨ p.stop = Token.stopOf ts
  | .last o _, ts, joined, h => by
    cases h with
    | last h =>
      rw [Phrase.stop, Operand.lastStop]
      by_cases hj : joined = true
      · rw [if_pos hj]
        rcases hs : o.indexStop? with _ | s
        · exact .inl rfl
        · exact .inr (spells_indexStop h s hs)
      · rw [if_neg hj]
        exact .inl rfl
  | .join o op rest, ts, joined, h => by
    cases h with
    | @join _ ts ots us _ _ _ _ h hop hr =>
      rw [Token.stopOf_append (List.append_ne_nil_of_right_ne_nil _ (hr.ne_nil id)),
        Token.stopOf_append (hr.ne_nil id)]
      change rest.stop = next ∨ rest.stop = Token.stopOf us
      exact spells_stop hr

/-- A type is written on its row. -/
theorem spells_type_span {type : TypeExpr} (h : Spells next ts (.type type)) :
    type.span = Token.cover ts := by
  generalize hf : Form.type type = f at h
  induction h generalizing type with
  | @mapType next ts us k v w l r _ _ _ _ hv _ ihv =>
    obtain rfl := Form.type.inj hf
    have hcover := Token.cover_from w (l :: (ts ++ [r])) (hv.ne_nil id)
    rw [← ihv rfl] at hcover
    simpa [TypeExpr.span] using hcover
  | @sliceType next ts e l r _ _ he ih =>
    obtain rfl := Form.type.inj hf
    have hcover := Token.cover_from l [r] (he.ne_nil id)
    rwa [← ih rfl] at hcover
  | @arrayType next ts us p e l r _ _ _ he _ ihe =>
    obtain rfl := Form.type.inj hf
    have hcover := Token.cover_from l (ts ++ [r]) (he.ne_nil id)
    rw [← ihe rfl] at hcover
    simpa [TypeExpr.span] using hcover
  | @openArrayType next ts e l d r _ _ _ he ih =>
    obtain rfl := Form.type.inj hf
    have hcover := Token.cover_from l [d, r] (he.ne_nil id)
    rwa [← ih rfl] at hcover
  | @pointerType next ts e m _ he ih =>
    obtain rfl := Form.type.inj hf
    have hcover := Token.cover_from m [] (he.ne_nil id)
    rwa [← ih rfl] at hcover
  | qualifiedType | namedType =>
    obtain rfl := Form.type.inj hf
    rfl
  | _ => cases hf

theorem bind_eq_error {ε α β : Type} {x : Except ε α} {f : α → Except ε β} {e : ε}
    (h : x >>= f = .error e) : x = .error e ∨ ∃ a, x = .ok a ∧ f a = .error e := by
  cases x with
  | error e' =>
    cases h
    exact .inl rfl
  | ok a => exact .inr ⟨a, rfl, h⟩

namespace Built

theorem above_eq_error {e : Expr} {below : Nat} {flaw : Flaw}
    (h : above limit e below = .error flaw) : flaw.span = e.span := by
  simp only [above] at h
  split_ifs at h
  obtain rfl := Except.error.inj h
  rfl

/-- Two operands that do not join fail at the operator, or over both of them. -/
theorem join_eq_error {l r : Built} {op : Placed InfixOp} {flaw : Flaw}
    (h : join limit l op r = .error flaw) :
    flaw.span = op.span ∨ flaw.span = l.expr.span.cover r.expr.span := by
  simp only [join] at h
  split at h
  case h_4 =>
    obtain rfl := Except.error.inj h
    exact .inl rfl
  all_goals exact .inr (above_eq_error h)

theorem sign_eq_error {op : Placed PrefixOp} {o : Operand} {built : Built} {flaw : Flaw}
    (h : sign limit op o built = .error flaw) :
    flaw.span = op.span ∨ flaw.span = op.span.cover built.expr.span := by
  simp only [sign] at h
  split at h
  · obtain rfl := Except.error.inj h
    exact .inl rfl
  · split at h <;> exact .inr (above_eq_error h)

theorem index_eq_error {base position : Built} {stop : Nat} {flaw : Flaw}
    (h : index limit base position stop = .error flaw) :
    flaw.span = ⟨base.expr.span.start, stop⟩ ∨ flaw.span = position.expr.span := by
  simp only [index] at h
  split at h
  · next flaw' hfault =>
    obtain rfl := Except.error.inj h
    simp only [indexFault?] at hfault
    split at hfault
    · cases hfault
    · obtain rfl := Option.some.inj hfault
      exact .inl rfl
    · split at hfault
      · split_ifs at hfault
        obtain rfl := Option.some.inj hfault
        exact .inr rfl
      · cases hfault
  · exact .inl (above_eq_error h)

theorem atom_eq_error {a : Placed Atom} {flaw : Flaw} (h : atom limit a = .error flaw) :
    flaw.span = a.span := by
  simp only [atom] at h
  split at h
  · exact above_eq_error h
  · split at h
    · exact above_eq_error h
    · obtain rfl := Except.error.inj h
      rfl

/-- The fault of a type is where the type is written, or the type of its elements. -/
theorem typeFault_between {type : TypeExpr} {flaw : Flaw} (h : Spells next ts (.type type))
    (hts : Edged B next ts) (hfault : typeFault? type = some flaw) : flaw.span.Between B := by
  have whole {type : TypeExpr} {us : List Token} (h : Spells next us (.type type))
      (hus : Edged B next us) : type.span.Between B := by
    rw [spells_type_span h]
    exact hus.cover (h.ne_nil id)
  have element {e : TypeExpr} {us : List Token} (h : Spells next us (.type e))
      (hus : Edged B next us)
      (hfault : typeFault? (.slice ⟨0, 0⟩ e) = some flaw) :
      flaw.span.Between B := by
    have hspan := whole h hus
    cases e with
    | name span text =>
      simp only [typeFault?] at hfault
      split_ifs at hfault
      obtain rfl := Option.some.inj hfault
      exact hspan
    | _ =>
      obtain rfl := Option.some.inj hfault
      exact hspan
  have hspan := whole h hts
  cases h with
  | sliceType _ _ he => exact element he hts.tail.tail hfault
  | arrayType _ _ _ he => exact element he hts.tail.back.tail hfault
  | openArrayType _ _ _ he => exact element he hts.tail.tail.tail hfault
  | mapType | pointerType | qualifiedType | namedType =>
    obtain rfl := Option.some.inj hfault
    exact hspan

end Built

def Operand.FailsBetween (B : Nat → Prop) (limit : Nat) (o : Operand) : Prop :=
  runLevels o.signCount ≤ limit → ∀ flaw, o.build limit = .error flaw → flaw.span.Between B

def Operand.KnownIn (B : Nat → Prop) (limit : Nat) (vars : List Nat) (next : Nat) (ts : List Token)
    (o : Operand) : Prop :=
  o.SettledIn limit vars next ts ∧ Edged B next ts ∧ o.FailsBetween B limit

theorem joins_between {ots us : List Token} {op : Placed InfixOp} (h : Joins ots us op)
    (hots : Edged B next ots) : op.span.Between B := by
  cases h with
  | one => exact hots.token (by simp)
  | @andNot t u => exact hots.cover (List.cons_ne_nil t [u])

/-- A tree of operands fails between places of the set. -/
theorem Chain.fails_between {c : Chain (Placed InfixOp) Operand}
    (h : Rows (fun next ts o => o.KnownIn B limit vars next ts) next ts c)
    (hts : Edged B next ts) (htight : c.Tight fun op => op.value.precedence)
    (hruns : c.All fun o => runLevels o.signCount ≤ limit) {flaw : Flaw}
    (hflaw : (c.bimap id fun o => o.build limit).fold (Built.join limit) = .error flaw) :
    flaw.span.Between B := by
  induction h with
  | leaf ho => exact ho.2.2 hruns flaw hflaw
  | @node next ts ots us l op r hl hop hr ihl ihr =>
    obtain ⟨htl, htr, -⟩ := htight
    have hots := Phrase.Level.joins_ne_nil hop
    have hne : ∀ next ts o, Operand.KnownIn B limit vars next ts o → ts ≠ [] :=
      fun _ _ _ ho => ho.1.ne_nil
    rw [bimap, fold_node] at hflaw
    have hedge : Edged B (startOf ots) ts := hts.before_operator hots
    rcases bind_eq_error hflaw with hflaw | ⟨bl, hbl, hflaw⟩
    · exact ihl hedge htl hruns.1 hflaw
    · rcases bind_eq_error hflaw with hflaw | ⟨br, hbr, hflaw⟩
      · exact ihr hts.back.back htr hruns.2 hflaw
      · have hleft := stands_of_fold (hl.mono fun _ _ _ ho => ho.1) htl hruns.1 hbl
        have hright := stands_of_fold (hr.mono fun _ _ _ ho => ho.1) htr hruns.2 hbr
        rcases Built.join_eq_error hflaw with hspan | hspan
        · rw [hspan]
          exact joins_between hop (hts.back.front (hr.ne_nil hne))
        · have hcover := hts.cover (List.append_ne_nil_of_left_ne_nil hleft.ne_nil _)
          rw [Token.cover_append hleft.ne_nil
            (List.append_ne_nil_of_right_ne_nil _ hright.ne_nil),
            Token.stopOf_append hright.ne_nil] at hcover
          rw [hspan, Span.cover, hleft.span, hright.span]
          exact hcover

/-- Where the first run of signs that is too long starts, a token of the row starts. -/
theorem spells_signStart {o : Operand} (h : Spells next ts (.operand o)) (ho : 0 < o.signCount) :
    o.signStart = startOf ts := by
  cases h with
  | signed => rfl
  | unsigned h =>
    have hzero := spells_no_sign h
    simp only at hzero
    omega

theorem Phrase.runFault_between : ∀ {p : Phrase} {ts : List Token},
    p.Rows (fun next ts o => o.KnownIn B limit vars next ts) next ts →
    (p.stop = next ∨ p.stop = Token.stopOf ts) → Edged B next ts →
      ∀ flaw, p.runFault? limit = some flaw → flaw.span.Between B
  | .last o stop, ts, h, hstop, hts, flaw, hflaw => by
    cases h with
    | last ho =>
      simp only [runFault?, runFault?.check] at hflaw
      split_ifs at hflaw with hrun
      obtain rfl := Option.some.inj hflaw
      change Span.Between B ⟨o.signStart, stop⟩
      rw [spells_signStart ho.1.1 hrun.1]
      exact hts.reach ho.1.ne_nil hstop
  | .join o op rest, ts, h, hstop, hts, flaw, hflaw => by
    cases h with
    | @join ts ots us _ _ _ ho hop hr =>
      rw [runFault?, Option.or_eq_some_iff] at hflaw
      have hne : us ≠ [] := by
        cases hr with
        | last ho => exact ho.1.ne_nil
        | join ho => exact List.append_ne_nil_of_left_ne_nil ho.1.ne_nil _
      have hstop' : rest.stop = next ∨ rest.stop = Token.stopOf us := by
        rwa [Token.stopOf_append (List.append_ne_nil_of_right_ne_nil _ hne),
          Token.stopOf_append hne] at hstop
      rcases hflaw with hflaw | ⟨-, hflaw⟩
      · simp only [runFault?.check] at hflaw
        split_ifs at hflaw with hrun
        obtain rfl := Option.some.inj hflaw
        change Span.Between B ⟨o.signStart, rest.stop⟩
        have hreach := hts.reach (List.append_ne_nil_of_left_ne_nil ho.1.ne_nil _) hstop
        rwa [Phrase.startOf_append ho.1.ne_nil, ← spells_signStart ho.1.1 hrun.1] at hreach
      · exact runFault_between hr hstop' hts.back.back flaw hflaw

/-- A phrase fails between places of the set. -/
theorem Phrase.fails_between {p : Phrase}
    (h : p.Rows (fun next ts o => o.KnownIn B limit vars next ts) next ts)
    (hstop : p.stop = next ∨ p.stop = Token.stopOf ts) (hts : Edged B next ts) {flaw : Flaw}
    (hflaw : p.build limit = .error flaw) : flaw.span.Between B := by
  rw [build, assemble] at hflaw
  split at hflaw
  · next flaw' hrun =>
    obtain rfl := Except.error.inj hflaw
    exact runFault_between h hstop hts _ hrun
  · next hnone =>
    rw [runFault_eq_none] at hnone
    rw [row_tree] at hflaw
    exact Chain.fails_between (Rows.tree (fun _ _ _ ho => ho.1.ne_nil) h) hts
      (Chain.tight_ofRow _ _) ((Chain.all_ofRow _ _ _).mpr hnone) hflaw

def Form.FailsBetween (B : Nat → Prop) (limit : Nat) (vars : List Nat) (next : Nat)
    (ts : List Token) : Form → Prop
  | .phrase _ p => p.Rows (fun next ts o => o.KnownIn B limit vars next ts) next ts
  | .operand o | .indexed o | .primary o => o.FailsBetween B limit
  | .phrases ps => ∀ flaw, Phrase.buildAll limit ps = .error flaw → flaw.span.Between B
  | .element e => ∀ flaw, e.build limit = .error flaw → flaw.span.Between B
  | .elements es => ∀ flaw, Element.buildAll limit es = .error flaw → flaw.span.Between B
  | .type _ => True

/-- What is above others covers the whole row, and it is there that it is too high. -/
theorem above_between {below : Nat} {e : Expr} {flaw : Flaw} (hne : ts ≠ []) (hts : Edged B next ts)
    (hspan : e.span = Token.cover ts) (hflaw : Built.above limit e below = .error flaw) :
    flaw.span.Between B := by
  rw [Built.above_eq_error hflaw, hspan]
  exact hts.cover hne

structure Form.Fails (B : Nat → Prop) (limit : Nat) (vars : List Nat) (next : Nat) (ts : List Token) (f : Form) :
    Prop where
  spelled : Spells next ts f
  between (hvars : ∀ v ∈ f.variables, v ∈ vars) (hts : Edged B next ts) : f.FailsBetween B limit vars next ts

namespace Form.Fails

variable {l c m e : Token} {o : Operand} {p k v : Phrase} {t : TypeExpr}

theorem in_row {joined : Bool} (h : (phrase joined p).Fails B limit vars next ts)
    (hvars : ∀ v ∈ p.variables, v ∈ vars) (hts : Edged B next ts) {flaw : Flaw}
    (hflaw : p.build limit = .error flaw) : flaw.span.Between B :=
  Phrase.fails_between (h.between hvars hts) (spells_stop h.spelled) hts hflaw

theorem last (joined : Bool) (h : (operand o).Fails B limit vars next ts) :
    (phrase joined (.last o (o.lastStop joined next))).Fails B limit vars next ts := by
  refine ⟨.last h.spelled, fun hvars hts => ?_⟩
  exact .last ⟨⟨h.spelled, hvars, spells_settled h.spelled hvars⟩, hts, h.between hvars hts⟩

theorem join {ots : List Token} {joined : Bool} {op : Placed InfixOp}
    (h : (operand o).Fails B limit vars (startOf ots) ts) (hop : Joins ots us op)
    (hp : (phrase true p).Fails B limit vars next us) :
    (phrase joined (.join o op p)).Fails B limit vars next (ts ++ (ots ++ us)) := by
  refine ⟨.join h.spelled hop hp.spelled, fun hvars hts => ?_⟩
  have hboth := List.forall_mem_append.mp hvars
  have hots := Phrase.Level.joins_ne_nil hop
  have hedge : Edged B (startOf ots) ts := hts.before_operator hots
  exact .join ⟨⟨h.spelled, hboth.1, spells_settled h.spelled hboth.1⟩, hedge, h.between hboth.1 hedge⟩ hop
    (hp.between hboth.2 hts.back.back)

/-- Where the operand is built, the sign fails by itself or together with it. -/
theorem signed {op : PrefixOp} {s : Symbol} (hm : m.value = .symbol s) (hs : PrefixOp.ofSymbol? s = some op)
    (h : (operand o).Fails B limit vars next ts) :
    (operand (.signed ⟨op, m.span⟩ o)).Fails B limit vars next (m :: ts) := by
  refine ⟨.signed hm hs h.spelled, fun hvars hts hruns flaw hflaw => ?_⟩
  have hruns' := runs_of_signed hruns
  rw [Operand.build] at hflaw
  rcases bind_eq_error hflaw with hflaw | ⟨built, hbuilt, hflaw⟩
  · exact h.between hvars hts.tail hruns' flaw hflaw
  · have hstands := spells_settled h.spelled hvars hruns' built hbuilt
    rcases Built.sign_eq_error hflaw with hspan | hspan
    · rw [hspan]
      exact hts.token List.mem_cons_self
    · rw [hspan, hstands.span]
      have hcover := Token.cover_from m [] hstands.ne_nil
      change (m.span.cover _).Between B
      rw [hcover]
      exact hts.cover (List.cons_ne_nil _ _)

/-- Where base and position are built, the position is out of range, or the whole is too high. -/
theorem index (h : (indexed o).Fails B limit vars l.span.start ts) (hl : l.value = .symbol (.opening .square))
    (hp : (phrase false p).Fails B limit vars e.span.start us) (he : e.value = .symbol (.closing .square)) :
    (indexed (.index o p e.span.stop)).Fails B limit vars next (ts ++ l :: (us ++ [e])) := by
  refine ⟨.index h.spelled hl hp.spelled he, fun hvars hts hruns flaw hflaw => ?_⟩
  have hboth := List.forall_mem_append.mp hvars
  have hfront : Edged B l.span.start ts := hts.front (List.cons_ne_nil _ _)
  have hinner : Edged B e.span.start us := hts.back.tail.front (List.cons_ne_nil _ _)
  have hzero : runLevels o.signCount ≤ limit := runs_of_indexed h.spelled
  rw [Operand.build] at hflaw
  rcases bind_eq_error hflaw with hflaw | ⟨x, hx, hflaw⟩
  · exact h.between hboth.1 hfront hzero flaw hflaw
  · rcases bind_eq_error hflaw with hflaw | ⟨y, hy, hflaw⟩
    · exact hp.in_row hboth.2 hinner hflaw
    · have hstands := spells_settled h.spelled hboth.1 hzero x hx
      have hposition := Phrase.stands_of_build (spells_settled hp.spelled hboth.2) hy
      rcases Built.index_eq_error hflaw with hspan | hspan
      · have hcover := hts.cover (List.append_ne_nil_of_left_ne_nil hstands.ne_nil _)
        rw [Token.cover_closed hstands.ne_nil] at hcover
        rw [hspan, hstands.span]
        exact hcover
      · rw [hspan, hposition.span]
        exact hinner.cover hposition.ne_nil

theorem atom {a : Atom} (hm : m.value = .atom a) : (primary (.atom ⟨a, m.span⟩)).Fails B limit vars next [m] := by
  refine ⟨.atom hm, fun _ hts _ flaw hflaw => ?_⟩
  rw [Built.atom_eq_error hflaw]
  exact hts.token List.mem_cons_self

theorem group (hl : l.value = .symbol (.opening .round)) (h : (phrase false p).Fails B limit vars e.span.start ts)
    (he : e.value = .symbol (.closing .round)) :
    (primary (.group (l.span.cover e.span) p)).Fails B limit vars next (l :: (ts ++ [e])) := by
  refine ⟨.group hl h.spelled he, fun hvars hts _ flaw hflaw => ?_⟩
  have hinner : Edged B e.span.start ts := hts.tail.front (List.cons_ne_nil _ _)
  rw [Operand.build] at hflaw
  rcases bind_eq_error hflaw with hflaw | ⟨x, hx, hflaw⟩
  · exact h.in_row hvars hinner hflaw
  · refine above_between (List.cons_ne_nil _ _) hts ?_ hflaw
    exact Token.cover_from l ts (List.cons_ne_nil e [])

theorem call {ps : List Phrase} {text : List Char} (hm : m.value = .atom (.name text))
    (hl : l.value = .symbol (.opening .round)) (h : (phrases ps).Fails B limit vars e.span.start ts)
    (he : e.value = .symbol (.closing .round)) :
    (primary (.call (m.span.cover e.span) text ps)).Fails B limit vars next (m :: l :: (ts ++ [e])) := by
  refine ⟨.call hm hl h.spelled he, fun hvars hts _ flaw hflaw => ?_⟩
  have hinner : Edged B e.span.start ts := hts.tail.tail.front (List.cons_ne_nil _ _)
  rw [Operand.build] at hflaw
  rcases bind_eq_error hflaw with hflaw | ⟨xs, hxs, hflaw⟩
  · exact h.between hvars hinner flaw hflaw
  · refine above_between (List.cons_ne_nil _ _) hts ?_ hflaw
    exact Token.cover_from m (l :: ts) (List.cons_ne_nil e [])

/-- The type is refused before any of the elements is built. -/
theorem composite {es : List Element} (h : Spells l.span.start ts (type t)) (hc : t.IsComposite)
    (hl : l.value = .symbol (.opening .curly)) (hes : (elements es).Fails B limit vars e.span.start us)
    (he : e.value = .symbol (.closing .curly)) :
    (primary (.composite ⟨startOf ts, e.span.stop⟩ t es)).Fails B limit vars next (ts ++ l :: (us ++ [e])) := by
  refine ⟨.composite h hc hl hes.spelled he, fun hvars hts _ flaw hflaw => ?_⟩
  have helements := (List.forall_mem_append.mp hvars).2
  have hfront : Edged B l.span.start ts := hts.front (List.cons_ne_nil _ _)
  have hinner : Edged B e.span.start us := hts.back.tail.front (List.cons_ne_nil _ _)
  rw [Operand.build] at hflaw
  split at hflaw
  · next flaw' hfault =>
    obtain rfl := Except.error.inj hflaw
    exact Built.typeFault_between h hfront hfault
  · rcases bind_eq_error hflaw with hflaw | ⟨xs, hxs, hflaw⟩
    · exact hes.between helements hinner flaw hflaw
    · refine above_between (List.append_ne_nil_of_left_ne_nil (h.ne_nil id) _) hts ?_ hflaw
      exact (Token.cover_closed (h.ne_nil id) l us e).symm

theorem onePhrase (h : (phrase false p).Fails B limit vars next ts) : (phrases [p]).Fails B limit vars next ts := by
  refine ⟨.onePhrase h.spelled, fun hvars hts flaw hflaw => ?_⟩
  simp only [Form.variables, Phrase.variablesOfAll, List.append_nil] at hvars
  rw [Phrase.buildAll] at hflaw
  rcases bind_eq_error hflaw with hflaw | ⟨x, hx, hflaw⟩
  · exact h.in_row hvars hts hflaw
  · cases hflaw

theorem morePhrases {ps : List Phrase} (h : (phrase false p).Fails B limit vars c.span.start ts)
    (hc : c.value = .symbol .comma) (hs : (phrases ps).Fails B limit vars next us) :
    (phrases (p :: ps)).Fails B limit vars next (ts ++ c :: us) := by
  refine ⟨.morePhrases h.spelled hc hs.spelled, fun hvars hts flaw hflaw => ?_⟩
  have hboth := List.forall_mem_append.mp hvars
  rw [Phrase.buildAll] at hflaw
  rcases bind_eq_error hflaw with hflaw | ⟨x, hx, hflaw⟩
  · exact h.in_row hboth.1 (hts.front (List.cons_ne_nil _ _)) hflaw
  · rcases bind_eq_error hflaw with hflaw | ⟨xs, hxs, hflaw⟩
    · exact hs.between hboth.2 hts.back.tail flaw hflaw
    · cases hflaw

/-- An element with a key is refused as a whole, from its key to where its value stops. -/
theorem keyed (hk : Spells c.span.start ts (phrase false k)) (hc : c.value = .symbol .colon)
    (hv : Spells next us (phrase false v)) :
    (element (.keyed ⟨startOf ts, v.stop⟩ k v)).Fails B limit vars next (ts ++ c :: us) := by
  refine ⟨.keyed hk hc hv, fun _ hts flaw hflaw => ?_⟩
  obtain rfl := Except.error.inj hflaw
  have hstop : v.stop = next ∨ v.stop = Token.stopOf (ts ++ c :: us) := by
    rw [Token.stopOf_append (List.cons_ne_nil _ _), Token.stopOf_cons (hv.ne_nil id)]
    exact spells_stop hv
  have hreach := hts.reach (List.append_ne_nil_of_left_ne_nil (hk.ne_nil id) _) hstop
  rwa [Phrase.startOf_append (hk.ne_nil id)] at hreach

theorem oneElement {a : Element} (h : (element a).Fails B limit vars next ts) :
    (elements [a]).Fails B limit vars next ts := by
  refine ⟨.oneElement h.spelled, fun hvars hts flaw hflaw => ?_⟩
  simp only [Form.variables, Element.variablesOfAll, List.append_nil] at hvars
  rw [Element.buildAll] at hflaw
  rcases bind_eq_error hflaw with hflaw | ⟨x, hx, hflaw⟩
  · exact h.between hvars hts flaw hflaw
  · cases hflaw

theorem moreElements {a : Element} {es : List Element} (h : (element a).Fails B limit vars c.span.start ts)
    (hc : c.value = .symbol .comma) (hs : (elements es).Fails B limit vars next us) :
    (elements (a :: es)).Fails B limit vars next (ts ++ c :: us) := by
  refine ⟨.moreElements h.spelled hc hs.spelled, fun hvars hts flaw hflaw => ?_⟩
  have hboth := List.forall_mem_append.mp hvars
  rw [Element.buildAll] at hflaw
  rcases bind_eq_error hflaw with hflaw | ⟨x, hx, hflaw⟩
  · exact h.between hboth.1 (hts.front (List.cons_ne_nil _ _)) flaw hflaw
  · rcases bind_eq_error hflaw with hflaw | ⟨xs, hxs, hflaw⟩
    · exact hs.between hboth.2 hts.back.tail flaw hflaw
    · cases hflaw

/-- A type is not built. -/
theorem type (h : Spells next ts (.type t)) : (Form.type t).Fails B limit vars next ts :=
  ⟨h, fun _ _ => trivial⟩

end Form.Fails

theorem fails_of_spells {f : Form} (h : Spells next ts f) : f.Fails B limit vars next ts := by
  induction h with
  | @last _ _ joined _ _ ih => exact ih.last joined
  | join _ hop _ ih ihr => exact ih.join hop ihr
  | signed ht hs _ ih => exact ih.signed ht hs
  | unsigned h ih => exact ⟨.unsigned h, ih.between⟩
  | base h ih => exact ⟨.base h, ih.between⟩
  | index _ hl _ hr ihb ihp => exact ihb.index hl ihp hr
  | atom ht => exact .atom ht
  | group hl _ hr ih => exact .group hl ih hr
  | call hf hl _ hr ih => exact .call hf hl ih hr
  | composite ht hc hl _ hr _ ihes => exact .composite ht hc hl ihes hr
  | noPhrase => exact ⟨.noPhrase, fun _ _ _ hflaw => by cases hflaw⟩
  | onePhrase _ ih => exact ih.onePhrase
  | morePhrases _ hc _ ih ihs => exact ih.morePhrases hc ihs
  | plain h ih => exact ⟨.plain h, fun hvars hts _ hflaw => ih.in_row hvars hts hflaw⟩
  | keyed hk hc hv _ _ => exact .keyed hk hc hv
  | noElement => exact ⟨.noElement, fun _ _ _ hflaw => by cases hflaw⟩
  | oneElement _ ih => exact ih.oneElement
  | moreElements _ hc _ ih ihs => exact ih.moreElements hc ihs
  | mapType hw hl hk hr hv _ _ => exact .type (.mapType hw hl hk hr hv)
  | sliceType hl hr he _ => exact .type (.sliceType hl hr he)
  | arrayType hl hp hr he _ _ => exact .type (.arrayType hl hp hr he)
  | openArrayType hl hd hr he _ => exact .type (.openArrayType hl hd hr he)
  | pointerType hm he _ => exact .type (.pointerType hm he)
  | qualifiedType ht hd hu htd hdu => exact .type (.qualifiedType ht hd hu htd hdu)
  | namedType ht => exact .type (.namedType ht)

theorem Phrase.fails_of_spells {p : Phrase} {joined : Bool} (h : Spells next ts (.phrase joined p))
    (hts : Edged B next ts) {flaw : Flaw} (hflaw : p.build limit = .error flaw) : flaw.span.Between B := by
  have hfails : (Form.phrase joined p).Fails B limit p.variables next ts := Formula.fails_of_spells h
  exact hfails.in_row (fun _ hv => hv) hts hflaw

end Building

/-- The fault of a source is at a place that can be sliced out of it. -/
theorem build_fits {limit : Nat} {cs : List Char} {flaw : Flaw} (h : build limit cs = .error flaw) :
    flaw.span.Fits cs := by
  rw [build] at h
  split at h
  · next offset hscan =>
    obtain rfl := Except.error.inj h
    exact Nesting.deeper_fits hscan
  · simp only at h
    split at h
    · obtain rfl := Except.error.inj h
      exact unreadable_fits cs
    · next p hp =>
      obtain ⟨-, us, f, hlist, -, hspells⟩ := Nesting.tokens_of_phrase hp
      obtain ⟨hlaid, rfl⟩ := Laid.of_list hlist
      have hedged : Token.Edged (Boundary cs) (byteSize cs) us := by
        refine ⟨hlaid.lined, fun t ht => ?_, fun t ht => ?_, ⟨cs, [], by simp, rfl⟩⟩
        all_goals
          obtain ⟨-, pre, post, rfl, hspan⟩ := hlaid.stands ht
          have hfits := Span.fits_append pre t.value.text post
          rw [Nat.zero_add] at hspan
          rw [← hspan] at hfits
        · exact hfits.2.2
        · exact hfits.2.1
      have hbetween := Phrase.fails_of_spells hspells hedged h
      exact Span.fits_of_boundary hbetween.1 hbetween.2.1 hbetween.2.2

namespace Evaluation

variable {α β : Type} {flaw : Flaw}

theorem bind_fault {x : Evaluation α} {f : α → Evaluation β}
    (h : (x >>= f).outcome = .error flaw) :
    x.outcome = .error flaw ∨ ∃ a, (f a).outcome = .error flaw := by
  change (Evaluation.bind x f).outcome = _ at h
  rw [Evaluation.bind] at h
  cases hx : x.outcome with
  | error flaw' =>
    rw [hx] at h
    cases h
    exact .inl rfl
  | ok a =>
    rw [hx] at h
    exact .inr ⟨a, h⟩

theorem pure_no_fault {a : α} (h : (pure a : Evaluation α).outcome = .error flaw) : False := by
  cases h

theorem fault_span {span : Span} {kind : FailureKind}
    (h : (fault span kind : Evaluation α).outcome = .error flaw) : flaw.span = span := by
  obtain rfl := Except.error.inj h
  rfl

theorem operation_fault {span : Span} {x : Except FailureKind α}
    (h : (operation span x).outcome = .error flaw) : flaw.span = span := by
  cases x with
  | ok a => exact (pure_no_fault h).elim
  | error kind => exact fault_span h

theorem invoke_fault {span : Span} {name : String} {f : Function} {args : List Literal}
    (h : (invoke span name f args).outcome = .error flaw) : flaw.span = span := by
  simp only [invoke] at h
  split at h
  · obtain rfl := Except.error.inj h
    rfl
  · obtain rfl := Except.error.inj h
    rfl
  · cases h

end Evaluation

namespace Expr

open Evaluation

variable {scope : Scope} {flaw : Flaw}

theorem lookup_fault {span : Span} {name : String}
    (h : (lookup scope span name).outcome = .error flaw) : flaw.span = span := by
  simp only [lookup] at h
  split at h
  · exact fault_span h
  · exact fault_span h
  · exact (pure_no_fault h).elim

theorem item_fault {span positionSpan : Span} {base : Base} {position : Literal}
    (h : (item span positionSpan base position).outcome = .error flaw) :
    flaw.span = span ∨ flaw.span = positionSpan := by
  simp only [item] at h
  split at h
  · split at h
    · exact (pure_no_fault h).elim
    · exact .inr (fault_span h)
  · exact .inl (fault_span h)
  · split at h
    · exact (pure_no_fault h).elim
    · exact .inr (fault_span h)

theorem indexable_fault {span : Span} {base : Base}
    (h : (indexable span base).outcome = .error flaw) : flaw.span = span := by
  simp only [indexable] at h
  split at h
  · exact (pure_no_fault h).elim
  · exact fault_span h
  · exact (pure_no_fault h).elim

theorem self_mem_nodes (e : Expr) : e ∈ e.nodes := mem_nodes_iff.mpr (.inl rfl)

/-- The fault of a part is a fault of the whole. -/
theorem fault_below {e c : Expr} (hc : c ∈ e.children)
    (h : ∃ n ∈ c.nodes, n.span = flaw.span) : ∃ n ∈ e.nodes, n.span = flaw.span := by
  obtain ⟨n, hn, hspan⟩ := h
  exact ⟨n, mem_nodes_iff.mpr (.inr ⟨c, hc, hn⟩), hspan⟩

theorem fault_here {e : Expr} (h : flaw.span = e.span) : ∃ n ∈ e.nodes, n.span = flaw.span :=
  ⟨e, self_mem_nodes e, h.symm⟩

mutual

/-- Evaluation fails at a node of the tree. -/
theorem evaluate_fault : ∀ (e : Expr) (role : Role) (flaw : Flaw),
    (e.evaluate scope role).outcome = .error flaw → ∃ n ∈ e.nodes, n.span = flaw.span
  | constant _ _, role, flaw, h => by
    rw [evaluate] at h
    exact (pure_no_fault h).elim
  | ident span name, role, flaw, h => by
    rw [evaluate] at h
    rcases bind_fault h with h | ⟨v, h⟩
    · exact fault_here (lookup_fault h)
    · exact (pure_no_fault h).elim
  | unary span op operand, role, flaw, h => by
    rw [evaluate] at h
    rcases bind_fault h with h | ⟨v, h⟩
    · exact fault_below (by simp [children]) (evaluate_fault operand .value flaw h)
    · rcases bind_fault h with h | ⟨w, h⟩
      · exact fault_here (operation_fault h)
      · exact (pure_no_fault h).elim
  | arith span op left right, role, flaw, h
  | compare span op left right, role, flaw, h => by
    rw [evaluate] at h
    rcases bind_fault h with h | ⟨v, h⟩
    · exact fault_below (by simp [children]) (evaluate_fault left .value flaw h)
    · rcases bind_fault h with h | ⟨w, h⟩
      · exact fault_below (by simp [children]) (evaluate_fault right .value flaw h)
      · rcases bind_fault h with h | ⟨u, h⟩
        · exact fault_here (operation_fault h)
        · exact (pure_no_fault h).elim
  | logic span op left right, role, flaw, h => by
    rw [evaluate] at h
    rcases bind_fault h with h | ⟨v, h⟩
    · exact fault_below (by simp [children]) (evaluate_fault left .value flaw h)
    · rcases bind_fault h with h | ⟨a, h⟩
      · exact fault_below (c := left) (by simp [children]) (fault_here (operation_fault h))
      · split at h
        · exact (pure_no_fault h).elim
        · exact (pure_no_fault h).elim
        · rcases bind_fault h with h | ⟨w, h⟩
          · exact fault_below (by simp [children]) (evaluate_fault right .value flaw h)
          · rcases bind_fault h with h | ⟨b, h⟩
            · exact fault_below (c := right) (by simp [children]) (fault_here (operation_fault h))
            · exact (pure_no_fault h).elim
  | index span base position, role, flaw, h => by
    rw [evaluate] at h
    rcases bind_fault h with h | ⟨b, h⟩
    · exact fault_below (by simp [children]) (evaluate_fault base .base flaw h)
    · rcases bind_fault h with h | ⟨b', h⟩
      · exact fault_here (indexable_fault h)
      · rcases bind_fault h with h | ⟨p, h⟩
        · exact fault_below (by simp [children]) (evaluate_fault position .value flaw h)
        · rcases bind_fault h with h | ⟨v, h⟩
          · rcases item_fault h with hspan | hspan
            · exact fault_here hspan
            · exact fault_below (c := position) (by simp [children]) (fault_here hspan)
          · exact (pure_no_fault h).elim
  | call span name args, role, flaw, h => by
    rw [evaluate] at h
    split at h
    · exact fault_here (fault_span h)
    · rcases bind_fault h with h | ⟨vs, h⟩
      · obtain ⟨c, hc, hn⟩ := evaluateAll_fault args flaw h
        exact fault_below hc hn
      · rcases bind_fault h with h | ⟨v, h⟩
        · exact fault_here (invoke_fault h)
        · exact (pure_no_fault h).elim
  | composite span elements, .value, flaw, h => by
    rw [evaluate] at h
    exact fault_here (fault_span h)
  | composite span elements, .base, flaw, h => by
    rw [evaluate] at h
    rcases bind_fault h with h | ⟨vs, h⟩
    · obtain ⟨c, hc, hn⟩ := evaluateAll_fault elements flaw h
      exact fault_below hc hn
    · exact (pure_no_fault h).elim
  | group _ inner, role, flaw, h => by
    rw [evaluate] at h
    exact fault_below (by simp [children]) (evaluate_fault inner role flaw h)

theorem evaluateAll_fault : ∀ (es : List Expr) (flaw : Flaw),
    (evaluateAll scope es).outcome = .error flaw →
      ∃ e ∈ es, ∃ n ∈ e.nodes, n.span = flaw.span
  | [], flaw, h => by
    rw [evaluateAll] at h
    exact (pure_no_fault h).elim
  | e :: es, flaw, h => by
    rw [evaluateAll] at h
    rcases bind_fault h with h | ⟨v, h⟩
    · exact ⟨e, List.mem_cons_self, evaluate_fault e .value flaw h⟩
    · rcases bind_fault h with h | ⟨vs, h⟩
      · obtain ⟨c, hc, hn⟩ := evaluateAll_fault es flaw h
        exact ⟨c, List.mem_cons_of_mem e hc, hn⟩
      · exact (pure_no_fault h).elim

end

end Expr

/-- The failure carries its source as it is, and a place that can be sliced out of it. -/
def Failure.Fits (f : Failure) (source : String) : Prop :=
  f.source = source ∧ ∃ span, f.span = some span ∧ span.Fits source.toList

theorem Flaw.fits_inSource {flaw : Flaw} {source : String} (h : flaw.span.Fits source.toList) :
    (flaw.inSource source).Fits source :=
  ⟨rfl, flaw.span, rfl, h⟩

namespace Compiled

variable {c : Compiled}

theorem evaluate_fits (h : ∀ n ∈ c.expr.nodes, n.Placed c.source.toList) {bindings : Bindings}
    {f : Failure} (hf : c.evaluate bindings = .error f) : f.Fits c.source := by
  rw [evaluate] at hf
  cases hvalue : (c.evaluation bindings).outcome with
  | ok v =>
    rw [hvalue] at hf
    cases hf
  | error flaw =>
    rw [hvalue] at hf
    obtain rfl := Except.error.inj hf
    obtain ⟨n, hn, hspan⟩ := c.expr.evaluate_fault .value flaw hvalue
    exact Flaw.fits_inSource (hspan ▸ (h n hn).fits)

theorem evaluateBool_fits (h : ∀ n ∈ c.expr.nodes, n.Placed c.source.toList) {bindings : Bindings}
    {f : Failure} (hf : c.evaluateBool bindings = .error f) : f.Fits c.source := by
  rw [evaluateBool] at hf
  split at hf
  · next failure hvalue =>
    obtain rfl := Except.error.inj hf
    exact evaluate_fits h hvalue
  · cases hf
  · obtain rfl := Except.error.inj hf
    exact Flaw.fits_inSource (h c.expr (Expr.self_mem_nodes c.expr)).fits

end Compiled

/-- A failure to compile fits its source. -/
theorem compile_error_fits {limit : Nat} {source : String} {f : Failure}
    (h : compile limit source = .error f) : f.Fits source := by
  rw [compile] at h
  split at h
  · next flaw hflaw =>
    obtain rfl := Except.error.inj h
    exact Flaw.fits_inSource (build_fits hflaw)
  · cases h

theorem Engine.compile_eq_ok {e : Engine} {source : String} {c : Compiled}
    (h : e.compile source = .ok c) :
    c.source = source ∧ Formula.compile e.maxDepth source = .ok c.expr := by
  rw [compile] at h
  cases hc : Formula.compile e.maxDepth source with
  | error f =>
    rw [hc] at h
    cases h
  | ok expr =>
    rw [hc] at h
    obtain rfl := Except.ok.inj h
    exact ⟨rfl, rfl⟩

theorem Engine.compile_eq_error {e : Engine} {source : String} {f : Failure}
    (h : e.compile source = .error f) : Formula.compile e.maxDepth source = .error f := by
  rw [compile] at h
  cases hc : Formula.compile e.maxDepth source with
  | error f' =>
    rw [hc] at h
    exact congrArg _ (Except.error.inj h)
  | ok expr =>
    rw [hc] at h
    cases h

/-- Whatever the source, the limit, the functions and the bindings: a failure to compile or to evaluate
carries the source as it is and a place between two edges of characters in it; every node of a compiled
tree is on such a place, which is not empty, and the nodes right below it are on smaller places inside
it, one behind the other; and every such place is sliced out of the source as it stands there. -/
theorem places_fit (e : Engine) (source : String) (bindings : Bindings) :
    (∀ f, e.compile source = .error f ∨ e.evaluate source bindings = .error f ∨
      e.evaluateBool source bindings = .error f ∨
      (∃ c, e.compile source = .ok c ∧
        (c.evaluate bindings = .error f ∨ c.evaluateBool bindings = .error f)) →
          f.source = source ∧ ∃ span, f.span = some span ∧ span.start ≤ span.stop ∧
            span.stop ≤ byteSize source.toList ∧ Boundary source.toList span.start ∧
            Boundary source.toList span.stop) ∧
    (∀ c, e.compile source = .ok c → ∀ n ∈ c.expr.nodes, n.Placed source.toList) ∧
    ∀ span : Span, span.Fits source.toList → ∃ pre post,
      source.toList = pre ++ (span.textIn source.toList ++ post) ∧ byteSize pre = span.start ∧
        span.start + byteSize (span.textIn source.toList) = span.stop := by
  have placed : ∀ c, e.compile source = .ok c →
      c.source = source ∧ ∀ n ∈ c.expr.nodes, n.Placed source.toList := by
    intro c hc
    obtain ⟨hsource, hcompile⟩ := Engine.compile_eq_ok hc
    exact ⟨hsource, compile_placed hcompile⟩
  have compiled : ∀ f, e.compile source = .error f → f.Fits source :=
    fun f hf => compile_error_fits (Engine.compile_eq_error hf)
  have evaluated : ∀ c f, e.compile source = .ok c →
      (c.evaluate bindings = .error f ∨ c.evaluateBool bindings = .error f) → f.Fits source := by
    intro c f hc hf
    obtain ⟨hsource, hnodes⟩ := placed c hc
    rw [← hsource] at hnodes ⊢
    rcases hf with hf | hf
    · exact Compiled.evaluate_fits hnodes hf
    · exact Compiled.evaluateBool_fits hnodes hf
  refine ⟨fun f hf => ?_, fun c hc => (placed c hc).2, fun span hspan => hspan.sliced⟩
  have hfits : f.Fits source := by
    rcases hf with hf | hf | hf | ⟨c, hc, hf⟩
    · exact compiled f hf
    · rw [Engine.evaluate] at hf
      split at hf
      · next failure hc => exact Except.error.inj hf ▸ compiled failure hc
      · next c hc => exact evaluated c f hc (.inl hf)
    · rw [Engine.evaluateBool] at hf
      split at hf
      · next failure hc => exact Except.error.inj hf ▸ compiled failure hc
      · next c hc => exact evaluated c f hc (.inr hf)
    · exact evaluated c f hc hf
  exact hfits

/-- A variable of two bytes that has no value, a phrase that breaks off behind it, and a tree with an
index and a call. -/
theorem places_fit_sample :
    (∃ f, Engine.standard.evaluate "2 * é" NameMap.empty = .error f ∧ f.Fits "2 * é") ∧
    (∃ f, Engine.standard.compile "é *" = .error f ∧ f.Fits "é *") ∧
    ∃ c, Engine.standard.compile "é[0] + min(1, -é)" = .ok c ∧
      ∀ n ∈ c.expr.nodes, n.Placed "é[0] + min(1, -é)".toList := by
  obtain ⟨f, hf⟩ : ∃ f, Engine.standard.evaluate "2 * é" NameMap.empty = .error f :=
    exists_error (by decide +kernel)
  obtain ⟨g, hg⟩ : ∃ g, Engine.standard.compile "é *" = .error g := exists_error (by decide +kernel)
  obtain ⟨c, hc⟩ : ∃ c, Engine.standard.compile "é[0] + min(1, -é)" = .ok c :=
    exists_ok (by decide +kernel)
  refine ⟨⟨f, hf, ?_⟩, ⟨g, hg, ?_⟩, ⟨c, hc, ?_⟩⟩
  · exact (places_fit Engine.standard "2 * é" NameMap.empty).1 f (.inr (.inl hf))
  · exact (places_fit Engine.standard "é *" NameMap.empty).1 g (.inl hg)
  · exact (places_fit Engine.standard _ NameMap.empty).2.1 c hc

end Formula
