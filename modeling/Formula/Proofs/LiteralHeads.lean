import Formula.Proofs.GrammarComplete

/-!
Where composite literals are read. Before a name is read as a variable, a literal is looked for there; so
the phrase of a row is the one that it spells with clear variables. A literal is decided by its own
tokens: its variables stand in its brackets, and what they might head ends before these do.
-/

namespace Formula

open Formula.Parser

def Tried (v : Nat) (ts : List Token) : Prop :=
  ∃ pre t post n, ts = pre ++ t :: post ∧ t.span.start = v ∧ (t :: post).length ≤ n + 1 ∧
    (Phrase.Level.composite (Phrase.level n)).run (t :: post) = none

theorem Tried.of_suffix {v : Nat} {ts us : List Token} (h : Tried v us) (hsuffix : us <:+ ts) :
    Tried v ts := by
  obtain ⟨pre, t, post, n, rfl, ht, hlen, hnone⟩ := h
  obtain ⟨front, rfl⟩ := hsuffix
  exact ⟨front ++ pre, t, post, n, by simp, ht, hlen, hnone⟩

namespace Parser

variable {α β : Type} {n : Nat} {seen : List Nat} {p q : Parser α} {vars : α → List Nat}

/-- On at most `n` tokens, the reader takes from their front, and at every variable of its result that
was not seen before it has looked for a literal. -/
def Tries (n : Nat) (seen : List Nat) (p : Parser α) (vars : α → List Nat) : Prop :=
  ∀ ts a rest, ts.length ≤ n → p.run ts = some (a, rest) →
    rest <:+ ts ∧ ∀ v ∈ vars a, v ∈ seen ∨ Tried v ts

def TakesOne (p : Parser α) : Prop := ∀ ts a rest, p.run ts = some (a, rest) → ∃ t, ts = t :: rest

theorem takes_sign (s : Symbol) : TakesOne (sign s) := by
  intro ts t rest h
  exact ⟨t, (run_sign_eq_some.mp h).1⟩

theorem takes_expect (goals : List Goal) (f : Token → Option α) : TakesOne (expect goals f) := by
  intro ts a rest h
  obtain ⟨t, rfl, -⟩ := run_expect_eq_some.mp h
  exact ⟨t, rfl⟩

/-- A reader whose result has no variables only has to take from the front. -/
theorem tries_plain (h : ∀ ts a rest, p.run ts = some (a, rest) → rest <:+ ts) :
    Tries n seen p fun _ => [] :=
  fun ts a rest _ hrun => ⟨h ts a rest hrun, fun _ hv => by cases hv⟩

theorem TakesOne.tries (h : TakesOne p) : Tries n seen p fun _ => [] := by
  refine tries_plain fun ts a rest hrun => ?_
  obtain ⟨t, rfl⟩ := h ts a rest hrun
  exact List.suffix_cons t rest

theorem tries_here : Tries n seen here fun _ => [] := by
  refine tries_plain fun ts a rest hrun => ?_
  rw [run_here] at hrun
  obtain ⟨-, rfl⟩ := Prod.mk.inj (Option.some.inj hrun)
  exact List.suffix_refl _

theorem tries_pure {a : α} (h : ∀ v ∈ vars a, v ∈ seen) : Tries n seen (pure a) vars := by
  intro ts b rest _ hrun
  obtain ⟨rfl, rfl⟩ := run_pure_eq_some.mp hrun
  exact ⟨List.suffix_refl _, fun v hv => .inl (h v hv)⟩

/-- What the first reader has seen need not be tried by the second. -/
theorem Tries.bind {f : α → Parser β} {vars' : β → List Nat} (hp : Tries n seen p vars)
    (hf : ∀ a, Tries n (vars a ++ seen) (f a) vars') : Tries n seen (p >>= f) vars' := by
  intro ts b rest hlen hrun
  obtain ⟨a, mid, ha, hb⟩ := run_bind_eq_some.mp hrun
  obtain ⟨hmid, hvars⟩ := hp ts a mid hlen ha
  obtain ⟨hrest, hvars'⟩ := hf a mid b rest (Nat.le_trans hmid.length_le hlen) hb
  refine ⟨hrest.trans hmid, fun v hv => ?_⟩
  rcases hvars' v hv with hseen | htried
  · rcases List.mem_append.mp hseen with hv | hv
    · exact hvars v hv
    · exact .inl hv
  · exact .inr (htried.of_suffix hmid)

/-- A token that is taken makes room for what is read behind it. -/
theorem Tries.token {f : α → Parser β} {vars' : β → List Nat} (hp : TakesOne p)
    (hf : ∀ a, Tries n seen (f a) vars') : Tries (n + 1) seen (p >>= f) vars' := by
  intro ts b rest hlen hrun
  obtain ⟨a, mid, ha, hb⟩ := run_bind_eq_some.mp hrun
  obtain ⟨t, rfl⟩ := hp ts a mid ha
  rw [List.length_cons] at hlen
  obtain ⟨hrest, hvars⟩ := hf a mid b rest (by omega) hb
  refine ⟨hrest.trans (List.suffix_cons t mid), fun v hv => ?_⟩
  rcases hvars v hv with hseen | htried
  · exact .inl hseen
  · exact .inr (htried.of_suffix (List.suffix_cons t mid))

theorem Tries.goal {g : Goal} (hp : Tries n seen p vars) : Tries n seen (goal g p) vars := by
  intro ts a rest hlen hrun
  rw [run_goal] at hrun
  exact hp ts a rest hlen hrun

theorem Tries.or (hp : Tries n seen p vars) (hq : Tries n seen q vars) :
    Tries n seen (p <|> q) vars := by
  intro ts a rest hlen hrun
  rw [run_orElse, Option.or_eq_some_iff] at hrun
  rcases hrun with hrun | ⟨-, hrun⟩
  · exact hp ts a rest hlen hrun
  · exact hq ts a rest hlen hrun

theorem Tries.optional (hp : Tries n seen p vars) :
    Tries n seen (optional p) fun found => (found.map vars).getD [] := by
  intro ts found rest hlen hrun
  rw [run_optional] at hrun
  rcases h : p.run ts with _ | ⟨a, rest'⟩
  · rw [h] at hrun
    obtain ⟨rfl, rfl⟩ := Prod.mk.inj (Option.some.inj hrun)
    exact ⟨List.suffix_refl _, fun v hv => by cases hv⟩
  · rw [h] at hrun
    obtain ⟨rfl, rfl⟩ := Prod.mk.inj (Option.some.inj hrun)
    exact hp ts a rest' hlen h

theorem Tries.many (hp : Tries n seen p vars) :
    Tries n seen (many p) fun as => as.flatMap vars := by
  intro ts as rest hlen hrun
  refine run_many_induction (R := fun ts as rest => ts.length ≤ n →
    rest <:+ ts ∧ ∀ v ∈ as.flatMap vars, v ∈ seen ∨ Tried v ts) ?_ ?_ hrun hlen
  · exact fun ts _ => ⟨List.suffix_refl _, fun v hv => by cases hv⟩
  · intro ts a mid as rest hturn ih hlen
    obtain ⟨hmid, hvars⟩ := hp ts a mid hlen hturn
    obtain ⟨hrest, hvars'⟩ := ih (Nat.le_trans hmid.length_le hlen)
    refine ⟨hrest.trans hmid, fun v hv => ?_⟩
    rw [List.flatMap_cons, List.mem_append] at hv
    rcases hv with hv | hv
    · exact hvars v hv
    · rcases hvars' v hv with hseen | htried
      · exact .inl hseen
      · exact .inr (htried.of_suffix hmid)

theorem Tries.weaken (hp : Tries n [] p vars) : Tries n seen p vars := by
  intro ts a rest hlen hrun
  obtain ⟨hrest, hvars⟩ := hp ts a rest hlen hrun
  exact ⟨hrest, fun v hv => .inr ((hvars v hv).resolve_left List.not_mem_nil)⟩

theorem Tries.commas (hp : Tries n [] p vars) :
    Tries n seen (commaList p) fun as => as.flatMap vars := by
  refine hp.weaken.bind fun first => ?_
  refine (Tries.bind (takes_sign .comma).tries fun _ => hp.weaken).many.bind fun more => ?_
  refine (takes_sign .comma).tries.optional.bind fun _ => tries_pure fun v hv => ?_
  simp only [List.flatMap_cons, List.mem_append] at hv ⊢
  tauto

end Parser

theorem variablesOfAll_eq (ps : List Phrase) :
    Phrase.variablesOfAll ps = ps.flatMap Phrase.variables := by
  induction ps with
  | nil => rfl
  | cons p ps ih => rw [Phrase.variablesOfAll, ih, List.flatMap_cons]

theorem element_variablesOfAll_eq (es : List Element) :
    Element.variablesOfAll es = es.flatMap Element.variables := by
  induction es with
  | nil => rfl
  | cons e es ih => rw [Element.variablesOfAll, ih, List.flatMap_cons]

namespace Phrase

theorem variables_ofRow (stop : Nat) (first : Operand) (row : List (Placed InfixOp × Operand)) :
    (ofRow stop first row).variables =
      first.variables ++ row.flatMap fun pair => pair.2.variables := by
  induction row generalizing first with
  | nil => simp [ofRow, Phrase.variables]
  | cons pair row ih => rw [ofRow, Phrase.variables, ih, List.flatMap_cons]

namespace Level

theorem variables_indexedBy (base : Operand) (indexes : List (Phrase × Nat)) :
    (indexedBy base indexes).variables =
      base.variables ++ indexes.flatMap fun pair => pair.1.variables := by
  induction indexes generalizing base with
  | nil => simp [indexedBy]
  | cons pair indexes ih =>
    rw [List.flatMap_cons, ← List.append_assoc]
    exact ih (.index base pair.1 pair.2)

theorem variables_signed_by (signs : List (Placed PrefixOp)) (o : Operand) :
    (signs.foldr .signed o).variables = o.variables := by
  induction signs with
  | nil => rfl
  | cons sign signs ih => exact ih

variable {n : Nat} {seen : List Nat} {below : Level}
  (hphrase : Tries n [] below.phrase Phrase.variables)
  (htype : Tries n [] below.type TypeExpr.variables)

include htype in
theorem mapType_tries : Tries (n + 1) seen (mapType below) TypeExpr.variables := by
  refine Tries.goal (.token (takes_expect _ _) fun word => ?_)
  refine (takes_sign _).tries.bind fun _ => htype.weaken.bind fun key => ?_
  refine (takes_sign _).tries.bind fun _ => htype.weaken.bind fun value => tries_pure fun v hv => ?_
  simp only [TypeExpr.variables, List.mem_append] at hv ⊢
  tauto

include htype in
theorem sliceType_tries : Tries (n + 1) seen (sliceType below) TypeExpr.variables := by
  refine Tries.goal (.token (takes_sign _) fun bracket => ?_)
  refine (takes_sign _).tries.bind fun _ => htype.weaken.bind fun element => tries_pure fun v hv => ?_
  simp_all [TypeExpr.variables]

include hphrase htype in
theorem arrayType_tries : Tries (n + 1) seen (arrayType below) TypeExpr.variables := by
  refine Tries.goal (.token (takes_sign _) fun bracket => ?_)
  have hlength : Tries n seen ((do
      let _ ← goal .ellipsis (sign .ellipsis)
      return none) <|> (do
      let length ← below.phrase
      return some length)) fun length => (length.map Phrase.variables).getD [] := by
    refine Tries.or ?_ ?_
    · exact (takes_sign _).tries.goal.bind fun _ => tries_pure (by simp)
    · exact hphrase.weaken.bind fun length => tries_pure (by simp +contextual)
  refine hlength.bind fun length => (takes_sign _).tries.bind fun _ => ?_
  refine htype.weaken.bind fun element => tries_pure fun v hv => ?_
  cases length with
  | none => exact List.mem_append_left _ hv
  | some length =>
    simp only [TypeExpr.variables, List.mem_append, Option.map_some, Option.getD_some] at hv ⊢
    tauto

include hphrase htype in
theorem compositeType_tries : Tries (n + 1) seen (compositeType below) TypeExpr.variables :=
  (mapType_tries htype).or ((sliceType_tries htype).or (arrayType_tries hphrase htype))

theorem qualifiedName_variables {ts rest : List Token} {t : TypeExpr}
    (h : qualifiedName.run ts = some (t, rest)) : t.variables = [] := by
  rw [qualifiedName, run_goal] at h
  simp only [run] at h
  split at h
  · split at h
    · split_ifs at h
      obtain ⟨rfl, -⟩ := Prod.mk.inj (Option.some.inj h)
      rfl
    · cases h
  · cases h

include hphrase htype in
theorem anyType_tries : Tries (n + 1) seen (anyType below) TypeExpr.variables := by
  have hpointer : Tries (n + 1) seen (pointerType below) TypeExpr.variables := by
    refine Tries.goal (.token (takes_sign _) fun mark => ?_)
    refine htype.weaken.bind fun target => tries_pure fun v hv => ?_
    simp_all [TypeExpr.variables]
  have hqualified : Tries (n + 1) seen qualifiedName TypeExpr.variables := by
    intro ts t rest _ hrun
    obtain ⟨us, rfl, -⟩ := qualifiedName_sound ts t rest hrun
    refine ⟨List.suffix_append us rest, fun v hv => ?_⟩
    rw [qualifiedName_variables hrun] at hv
    cases hv
  have hnamed : Tries (n + 1) seen namedType TypeExpr.variables :=
    (takes_expect _ _).tries.bind fun text => tries_pure (by simp [TypeExpr.variables])
  exact ((compositeType_tries hphrase htype).or (hpointer.or (hqualified.or hnamed))).goal

include hphrase in
theorem element_tries : Tries n seen (element below) Element.variables := by
  have hsecond (seen : List Nat) : Tries n seen (do
      let _ ← sign .colon
      below.phrase) Phrase.variables := (takes_sign _).tries.bind fun _ => hphrase.weaken
  refine Tries.goal (tries_here.bind fun start => hphrase.weaken.bind fun first => ?_)
  refine (hsecond _).optional.bind fun second => tries_pure fun v hv => ?_
  cases second with
  | none => simpa [Element.variables] using .inl hv
  | some value =>
    simp only [Element.variables, List.mem_append, Option.map_some, Option.getD_some] at hv ⊢
    tauto

theorem variables_of_elements (found : Option (List Element)) :
    Element.variablesOfAll (found.getD []) =
      (found.map fun es => es.flatMap Element.variables).getD [] := by
  cases found with
  | none => rfl
  | some es => exact element_variablesOfAll_eq es

theorem variables_of_phrases (found : Option (List Phrase)) :
    Phrase.variablesOfAll (found.getD []) =
      (found.map fun ps => ps.flatMap Phrase.variables).getD [] := by
  cases found with
  | none => rfl
  | some ps => exact variablesOfAll_eq ps

include hphrase htype in
theorem composite_tries : Tries (n + 1) seen (composite below) Operand.variables := by
  refine Tries.goal (tries_here.bind fun start => ?_)
  refine (compositeType_tries hphrase htype).bind fun type => .token (takes_sign _) fun _ => ?_
  refine (Tries.commas (element_tries hphrase)).optional.bind fun elements => ?_
  refine (takes_sign _).tries.bind fun bracket => tries_pure fun v hv => ?_
  rw [Operand.variables, variables_of_elements] at hv
  simp only [List.mem_append] at hv ⊢
  tauto

include hphrase in
theorem call_tries : Tries (n + 1) seen (call below) Operand.variables := by
  refine Tries.goal (.token (takes_expect _ _) fun function => (takes_sign _).tries.bind fun _ => ?_)
  refine (Tries.commas hphrase).optional.bind fun args => ?_
  refine (takes_sign _).tries.bind fun bracket => tries_pure fun v hv => ?_
  rw [Operand.variables, variables_of_phrases] at hv
  simp only [List.mem_append] at hv ⊢
  tauto

include hphrase in
theorem group_tries : Tries (n + 1) seen (group below) Operand.variables := by
  refine Tries.goal (.token (takes_sign _) fun opening => hphrase.weaken.bind fun inner => ?_)
  refine (takes_sign _).tries.bind fun closing => tries_pure fun v hv => ?_
  simp only [Operand.variables, List.mem_append] at hv ⊢
  tauto

include hphrase in
theorem index_tries : Tries (n + 1) seen (index below) fun pair => pair.1.variables := by
  refine Tries.goal (.token (takes_sign _) fun _ => hphrase.weaken.bind fun position => ?_)
  refine (takes_sign _).tries.bind fun bracket => tries_pure fun v hv => ?_
  simp only [List.mem_append]
  tauto

end Level

open Level

section

variable {n : Nat} {seen : List Nat} (hphrase : Tries n [] (level n).phrase Phrase.variables)
  (htype : Tries n [] (level n).type TypeExpr.variables)

include hphrase htype in
/-- The primaries are tried in their order: an atom only where there is no composite literal. -/
theorem primary_tries : Tries (n + 1) seen (primary (level n)) Operand.variables := by
  intro ts o rest hlen hrun
  rw [primary, run_orElse, Option.or_eq_some_iff, run_orElse, Option.or_eq_some_iff, run_orElse,
    Option.or_eq_some_iff] at hrun
  rcases hrun with hrun | ⟨hnone, hrun | ⟨-, hrun | ⟨-, hrun⟩⟩⟩
  · exact composite_tries hphrase htype ts o rest hlen hrun
  · exact call_tries hphrase ts o rest hlen hrun
  · exact group_tries hphrase ts o rest hlen hrun
  · obtain ⟨t, rfl, hatom⟩ := run_expect_eq_some.mp hrun
    refine ⟨List.suffix_cons t rest, fun v hv => .inr ⟨[], t, rest, n, rfl, ?_, hlen, hnone⟩⟩
    split at hatom
    · obtain rfl := Option.some.inj hatom
      exact (Operand.variables_atom hv).1.symm
    · cases hatom

include hphrase htype in
theorem operand_tries : Tries (n + 1) seen (operand (level n)) Operand.variables := by
  have hsigns (seen : List Nat) : Tries (n + 1) seen prefixOp fun _ => [] := (takes_expect _ _).tries
  refine (hsigns _).many.bind fun signs => ?_
  refine Tries.bind (primary_tries hphrase htype) fun base => ?_
  refine (index_tries hphrase).many.bind fun indexes => tries_pure fun v hv => ?_
  rw [variables_signed_by] at hv
  have hv' : v ∈ (indexedBy base indexes).variables := hv
  rw [variables_indexedBy] at hv'
  simp only [List.mem_append] at hv' ⊢
  tauto

include hphrase htype in
theorem anyPhrase_tries : Tries (n + 1) seen (anyPhrase (level n)) Phrase.variables := by
  have hop (seen : List Nat) : Tries (n + 1) seen infixOp fun _ => [] := by
    refine tries_plain fun ts op rest hrun => ?_
    obtain ⟨us, rfl, -⟩ := infixOp_sound hrun
    exact List.suffix_append us rest
  have hpair (seen : List Nat) : Tries (n + 1) seen (joinedOperand (level n))
      fun pair => pair.2.variables := by
    refine (hop _).bind fun op => (operand_tries hphrase htype).bind fun second => tries_pure ?_
    simp +contextual
  refine Tries.goal ((operand_tries hphrase htype).bind fun first => (hpair _).many.bind fun row => ?_)
  refine tries_here.bind fun next => tries_pure fun v hv => ?_
  rw [variables_ofRow] at hv
  simp only [List.mem_append] at hv ⊢
  tauto

end

/-- At every level, a literal is looked for at the variables of what is read. -/
theorem level_tries (n : Nat) : Tries n [] (level n).phrase Phrase.variables ∧
    Tries n [] (level n).type TypeExpr.variables := by
  induction n with
  | zero => constructor <;> intro ts a rest _ hrun <;> cases hrun
  | succ n ih => exact ⟨anyPhrase_tries ih.1 ih.2, anyType_tries ih.1 ih.2⟩

end Phrase

namespace Token

def Ranked (ts : List Token) : Prop := ts.Pairwise fun t u => t.span.start < u.span.start

theorem Ranked.front {ts us : List Token} (h : Ranked (ts ++ us)) : Ranked ts :=
  (List.pairwise_append.mp h).1

theorem Ranked.behind {ts us : List Token} (h : Ranked (ts ++ us)) : Ranked us :=
  (List.pairwise_append.mp h).2.1

/-- No two tokens start at one offset. -/
theorem Ranked.unique {pre pre' post post' : List Token} {t t' : Token}
    (h : Ranked (pre ++ t :: post)) (he : pre ++ t :: post = pre' ++ t' :: post')
    (hstart : t.span.start = t'.span.start) : pre = pre' ∧ t = t' ∧ post = post' := by
  have h' : Ranked (pre' ++ t' :: post') := he ▸ h
  rcases List.append_eq_append_iff.mp he with ⟨mid, rfl, hmid⟩ | ⟨mid, rfl, hmid⟩
  all_goals
    cases mid with
    | nil =>
      obtain ⟨rfl, rfl⟩ := List.cons.inj hmid
      simp
    | cons u mid =>
      obtain ⟨rfl, rfl⟩ := List.cons.inj hmid
      simp only [Ranked, List.pairwise_append, List.pairwise_cons] at h h'
      have hlt := h.2.2
      have hlt' := h'.2.2
      grind

theorem Ranked.eq_of_start {ts : List Token} {t u : Token} (h : Ranked ts) (ht : t ∈ ts) (hu : u ∈ ts)
    (hstart : t.span.start = u.span.start) : t = u := by
  obtain ⟨pre, post, hpre⟩ := List.append_of_mem ht
  obtain ⟨pre', post', hpre'⟩ := List.append_of_mem hu
  exact ((hpre ▸ h).unique (hpre.symm.trans hpre') hstart).2.1

def Inside (v : Nat) (ts : List Token) : Prop :=
  ∃ pre t post, ts = pre ++ t :: post ∧ t.span.start = v ∧
    Nesting.closed (brackets pre) < Nesting.opened (brackets pre)

theorem closed_append (ts us : List Token) : Nesting.closed (brackets (ts ++ us)) =
    Nesting.closed (brackets ts) + Nesting.closed (brackets us) := by
  rw [brackets_append, Nesting.closed, List.countP_append]
  rfl

theorem opened_append (ts us : List Token) : Nesting.opened (brackets (ts ++ us)) =
    Nesting.opened (brackets ts) + Nesting.opened (brackets us) := by
  rw [brackets_append, Nesting.opened, List.countP_append]
  rfl

/-- Tokens in front that close no more than they open do not let anything out. -/
theorem Inside.behind {v : Nat} {ts us : List Token} (h : Inside v us)
    (hts : Nesting.closed (brackets ts) ≤ Nesting.opened (brackets ts)) : Inside v (ts ++ us) := by
  obtain ⟨pre, t, post, rfl, ht, hlt⟩ := h
  refine ⟨ts ++ pre, t, post, by simp, ht, ?_⟩
  rw [closed_append, opened_append]
  omega

theorem Inside.before {v : Nat} {ts us : List Token} (h : Inside v ts) : Inside v (ts ++ us) := by
  obtain ⟨pre, t, post, rfl, ht, hlt⟩ := h
  exact ⟨pre, t, post ++ us, by simp, ht, hlt⟩

end Token

open Token

section Inside

variable {next v : Nat} {ts us : List Token} {f : Form} {l r : Token}

/-- The brackets in front of a part of what is spelled close no more than they open. -/
theorem spells_front (h : Spells next (ts ++ us) f) :
    Nesting.closed (brackets ts) ≤ Nesting.opened (brackets ts) := by
  have hfed := (spells_paired h).fed 0 (brackets ts) (brackets us) brackets_append
  omega

theorem spells_closed (h : Spells next ts f) :
    Nesting.closed (brackets ts) = Nesting.opened (brackets ts) :=
  (spells_paired h).closed_eq_opened

/-- The brackets behind a part of what is spelled open no more than they close. -/
theorem spells_behind (h : Spells next (ts ++ us) f) :
    Nesting.opened (brackets us) ≤ Nesting.closed (brackets us) := by
  have hfront := spells_front h
  have hboth := spells_closed h
  rw [closed_append, opened_append] at hboth
  omega

/-- What stands behind a bracket that opens is inside of it. -/
theorem inside_of_variable {b : Bracket} (h : Spells next ts f) (hl : l.value = .symbol (.opening b))
    (hv : v ∈ f.variables) : Inside v (l :: (ts ++ us)) := by
  obtain ⟨t, ht, hstart, -⟩ := spells_variables h v hv
  obtain ⟨pre, post, rfl⟩ := List.append_of_mem ht
  have hle := spells_front h
  refine ⟨l :: pre, t, post ++ us, by simp, hstart, ?_⟩
  rw [brackets_opening hl]
  simp only [Nesting.closed, Nesting.opened, List.countP_cons] at hle ⊢
  simp only [Bool.not_true, if_true]
  simp
  omega

/-- A pair of brackets with what stands in them closes what it opens. -/
theorem wrap_closed {b c : Bracket} (hl : l.value = .symbol (.opening b)) (h : Spells next ts f)
    (hr : r.value = .symbol (.closing c)) :
    Nesting.closed (brackets (l :: (ts ++ [r]))) ≤ Nesting.opened (brackets (l :: (ts ++ [r]))) := by
  have heq := spells_closed h
  rw [brackets_opening hl, brackets_append, brackets_closing hr]
  simp only [Nesting.closed, Nesting.opened, List.countP_cons, List.countP_append] at heq ⊢
  simp [brackets] at heq ⊢
  omega

end Inside

/-- The variables of a composite type stand in its brackets. -/
theorem spells_type_inside {next : Nat} {ts : List Token} {f : Form} (h : Spells next ts f) :
    match f with
    | .type t => ∀ v ∈ t.variables, Inside v ts
    | _ => True := by
  induction h with
  | @mapType next ts us k v w l r hw hl hk hr hv ihk ihv =>
    intro x hx
    rcases List.mem_append.mp hx with hx | hx
    · have hopen : Nesting.closed (brackets [w, l]) ≤ Nesting.opened (brackets [w, l]) := by
        simp [brackets, bracket?, hw, hl, Nesting.closed]
      have hbefore : Inside x (ts ++ r :: us) := (ihk x hx).before
      exact hbefore.behind hopen
    · have hword : Nesting.closed (brackets [w]) ≤ Nesting.opened (brackets [w]) := by
        rw [brackets_atom hw]
        exact Nat.le_refl _
      have hbehind := ((ihv x hx).behind (wrap_closed hl hk hr)).behind hword
      simpa using hbehind
  | @sliceType next ts e l r hl hr he ih =>
    intro x hx
    have hpair : Nesting.closed (brackets [l, r]) ≤ Nesting.opened (brackets [l, r]) := by
      simp [brackets, bracket?, hl, hr, Nesting.closed, Nesting.opened]
    exact (ih x hx).behind hpair
  | @arrayType next ts us p e l r hl hp hr he ihp ihe =>
    intro x hx
    rcases List.mem_append.mp hx with hx | hx
    · exact inside_of_variable hp hl hx
    · have hbehind := (ihe x hx).behind (wrap_closed hl hp hr)
      simpa using hbehind
  | @openArrayType next ts e l d r hl hd hr he ih =>
    intro x hx
    have hpair : Nesting.closed (brackets [l, d, r]) ≤ Nesting.opened (brackets [l, d, r]) := by
      simp [brackets, bracket?, hl, hd, hr, Nesting.closed, Nesting.opened]
    exact (ih x hx).behind hpair
  | @pointerType next ts e m hm he ih =>
    intro x hx
    have hmark : Nesting.closed (brackets [m]) ≤ Nesting.opened (brackets [m]) := by
      simp [brackets, bracket?, hm, Nesting.closed]
    exact (ih x hx).behind hmark
  | qualifiedType | namedType => exact fun v hv => by cases hv
  | _ => trivial

/-- The variables of a composite literal stand in its brackets. -/
theorem spells_literal_inside {next : Nat} {ts : List Token} {o : Operand}
    (h : Spells next ts (.primary o)) (ho : o.IsLiteral) : ∀ v ∈ o.variables, Inside v ts := by
  cases h with
  | @composite _ ts us t es l r ht hc hl hes hr =>
    intro v hv
    rcases List.mem_append.mp hv with hv | hv
    · exact (spells_type_inside ht v hv).before
    · exact (inside_of_variable hes hl hv).behind (Nat.le_of_eq (spells_closed ht))
  | _ => exact ho.elim

namespace Phrase

open Level

theorem composite_isLiteral {below : Level} {ts rest : List Token} {o : Operand}
    (h : (composite below).run ts = some (o, rest)) : o.IsLiteral := by
  simp only [composite, run_goal, run_bind_eq_some, run_pure_eq_some] at h
  obtain ⟨-, -, -, -, -, -, -, -, -, -, -, -, -, -, -, rfl, -⟩ := h
  trivial

/-- A literal that is read at one level with room for the tokens has clear variables, and is read at
every such level. -/
theorem literal_stable {n : Nat} {ts rest : List Token} {o : Operand} (hranked : Ranked ts)
    (hlen : ts.length ≤ n + 1) (h : (composite (level n)).run ts = some (o, rest)) :
    Clear o.variables ts ∧
      ∀ m, ts.length ≤ m + 1 → (composite (level m)).run ts = some (o, rest) := by
  -- By induction on the tokens: the variables stand behind the first of them.
  induction hl : ts.length using Nat.strong_induction_on generalizing n ts rest o with
  | _ len ih =>
    obtain ⟨us, rfl, hspells⟩ := composite_sound (level_sound n).1 (level_sound n).2 _ _ _ h
    have hlit := composite_isLiteral h
    have htries : Tries (n + 1) [] (composite (level n)) Operand.variables :=
      composite_tries (level_tries n).1 (level_tries n).2
    have htried := htries _ _ _ hlen h
    have hclear : Clear o.variables (us ++ rest) := by
      rintro pre t post text hts - hv ⟨m, hm, hread⟩
      obtain ⟨pre', t', post', k, hts', hstart, hk, hnone⟩ :=
        (htried.2 _ hv).resolve_left List.not_mem_nil
      rw [hts] at hranked hts' hl
      obtain ⟨rfl, rfl, rfl⟩ := hranked.unique hts' hstart.symm
      obtain ⟨a, u, b, rfl, hu, hinside⟩ := spells_literal_inside hspells hlit _ hv
      have hsplit : pre ++ t :: post = a ++ u :: (b ++ rest) := by
        rw [← hts]
        simp
      obtain ⟨rfl, rfl, rfl⟩ := hranked.unique hsplit hu.symm
      have hne : pre ≠ [] := by
        rintro rfl
        exact absurd hinside (Nat.lt_irrefl 0)
      have hpos := List.length_pos_iff.mpr hne
      obtain ⟨⟨o', rest'⟩, hread⟩ := Option.ne_none_iff_exists'.mp hread
      have hstable := (ih _ (by
        rw [← hl, List.length_append]
        omega) hranked.behind hm hread rfl).2 k hk
      rw [hnone] at hstable
      cases hstable
    exact ⟨hclear, fun m hm => literal_read hspells hlit hclear (hl.symm ▸ hm)⟩

end Phrase

section HeadsLiteral

open Phrase Level

variable {ts us rest : List Token}

/-- At the head of a row stands a literal exactly where a front of it spells one, its variables clear. -/
theorem headsLiteral_iff (hranked : Ranked ts) : HeadsLiteral ts ↔
    ∃ next o us rest, ts = us ++ rest ∧ o.IsLiteral ∧ Spells next us (.primary o) ∧
      Clear o.variables ts := by
  constructor
  · rintro ⟨n, hlen, hread⟩
    obtain ⟨⟨o, rest⟩, hread⟩ := Option.ne_none_iff_exists'.mp hread
    obtain ⟨hclear, -⟩ := literal_stable hranked hlen hread
    obtain ⟨us, rfl, hspells⟩ := composite_sound (level_sound n).1 (level_sound n).2 _ _ _ hread
    exact ⟨_, o, us, rest, rfl, composite_isLiteral hread, hspells, hclear⟩
  · rintro ⟨next, o, us, rest, rfl, hlit, hspells, hclear⟩
    refine ⟨(us ++ rest).length, Nat.le_succ _, ?_⟩
    rw [literal_read hspells hlit hclear (Nat.le_succ _)]
    exact Option.some_ne_none _

/-- The variables of a phrase that is read are clear. -/
theorem clear_ofTokens {p : Phrase} (hranked : Ranked ts) (h : ofTokens? ts = some p) :
    Clear p.variables ts := by
  rw [ofTokens?, Option.map_eq_some_iff] at h
  obtain ⟨⟨p', rest⟩, h, rfl⟩ := h
  simp only [whole, run_bind_eq_some, run_pure_eq_some] at h
  obtain ⟨p', mid, hread, e, rest', -, rfl, rfl⟩ := h
  obtain ⟨-, htried⟩ := (level_tries ts.length).1 _ _ _ (Nat.le_refl _) hread
  rintro pre t post text rfl - hv ⟨m, hm, hread⟩
  obtain ⟨pre', t', post', k, hts', hstart, hk, hnone⟩ := (htried _ hv).resolve_left List.not_mem_nil
  obtain ⟨rfl, rfl, rfl⟩ := hranked.unique hts' hstart.symm
  obtain ⟨⟨o, rest⟩, hread⟩ := Option.ne_none_iff_exists'.mp hread
  have hstable := (literal_stable hranked.behind hm hread).2 k hk
  rw [hnone] at hstable
  cases hstable

/-- Whether the variables of a literal are clear is decided by its own tokens. -/
theorem literal_local {next : Nat} {rest' : List Token} {o : Operand} (ho : o.IsLiteral)
    (h : Spells next us (.primary o)) (hranked : Ranked (us ++ rest))
    (hranked' : Ranked (us ++ rest')) (hclear : Clear o.variables (us ++ rest)) :
    Clear o.variables (us ++ rest') := by
  induction hl : us.length using Nat.strong_induction_on generalizing next us rest rest' o with
  | _ len ih =>
    intro pre t post text hts ht hv hheads
    obtain ⟨a, u, b, rfl, hu, hinside⟩ := spells_literal_inside h ho _ hv
    have hsplit : pre ++ t :: post = a ++ u :: (b ++ rest') := by
      rw [← hts]
      simp
    obtain ⟨rfl, rfl, rfl⟩ := (hts ▸ hranked').unique hsplit hu.symm
    have hranked₁ : Ranked (t :: b ++ rest') := by
      rw [List.append_assoc] at hranked'
      exact hranked'.behind
    have hranked₂ : Ranked (t :: b ++ rest) := by
      rw [List.append_assoc] at hranked
      exact hranked.behind
    obtain ⟨next', o', ws, rest'', hws, ho', hspells, hclear'⟩ := (headsLiteral_iff hranked₁).mp hheads
    obtain ⟨c, hc⟩ : ∃ c, t :: b = ws ++ c := by
      rcases List.append_eq_append_iff.mp hws with ⟨c, hc, -⟩ | ⟨c, hc, -⟩
      · have hfront := spells_front (hc ▸ hspells)
        have hclosed := spells_closed h
        rw [closed_append, opened_append] at hclosed
        omega
      · exact ⟨c, hc⟩
    obtain rfl : rest'' = c ++ rest' := by
      rw [hc, List.append_assoc] at hws
      exact (List.append_cancel_left hws).symm
    have hne : pre ≠ [] := by
      rintro rfl
      exact absurd hinside (Nat.lt_irrefl 0)
    have hpos := List.length_pos_iff.mpr hne
    have hshort : ws.length < len := by
      rw [← hl, hc, List.length_append, List.length_append]
      omega
    rw [hc, List.append_assoc] at hranked₁ hranked₂
    rw [hws] at hclear'
    have hclear₂ := ih _ hshort ho' hspells hranked₁ hranked₂ hclear' rfl
    refine hclear pre t (b ++ rest) text (by simp) ht hv ?_
    rw [← List.cons_append, hc, List.append_assoc, headsLiteral_iff hranked₂]
    exact ⟨next', o', ws, c ++ rest, rfl, ho', hspells, hclear₂⟩

variable {rest' : List Token}

/-- A literal that ends with a part of the tokens is one whatever stands behind that part. -/
theorem HeadsLiteral.of_front (hranked : Ranked (us ++ rest)) (hranked' : Ranked (us ++ rest'))
    (hfront : ∀ next o ls more, us ++ rest = ls ++ more → Spells next ls (.primary o) →
      ∃ ms, us = ls ++ ms) (h : HeadsLiteral (us ++ rest)) : HeadsLiteral (us ++ rest') := by
  obtain ⟨next, o, ls, more, hsplit, ho, hspells, hclear⟩ := (headsLiteral_iff hranked).mp h
  obtain ⟨ms, rfl⟩ := hfront next o ls more hsplit hspells
  rw [List.append_assoc] at hranked hranked' hclear ⊢
  have hclear' := literal_local ho hspells hranked hranked' hclear
  exact (headsLiteral_iff hranked').mpr ⟨next, o, ls, _, rfl, ho, hspells, hclear'⟩

/-- A literal ends before what is no code. -/
theorem HeadsLiteral.before (hranked : Ranked (us ++ rest)) (hranked' : Ranked (us ++ rest'))
    (hcode : ∀ t ∈ rest.head?, ¬ t.IsCode) (h : HeadsLiteral (us ++ rest)) :
    HeadsLiteral (us ++ rest') := by
  refine h.of_front hranked hranked' fun next o ls more hsplit hspells => ?_
  rcases List.append_eq_append_iff.mp hsplit with ⟨_ | ⟨m, ms⟩, hls, hrest⟩ | ⟨ms, hus, -⟩
  · exact ⟨[], by simpa using hls.symm⟩
  · exact absurd (spells_code hspells m (by simp [hls])) (hcode m (by simp [hrest]))
  · exact ⟨ms, hus⟩

/-- A literal ends before a bracket that closes more than what it starts with has opened. -/
theorem HeadsLiteral.within {r : Token} {b : Bracket} (hranked : Ranked (us ++ r :: rest))
    (hranked' : Ranked (us ++ rest')) (hr : r.value = .symbol (.closing b))
    (hopen : Nesting.opened (brackets us) ≤ Nesting.closed (brackets us))
    (h : HeadsLiteral (us ++ r :: rest)) : HeadsLiteral (us ++ rest') := by
  refine h.of_front hranked hranked' fun next o ls more hsplit hspells => ?_
  rcases List.append_eq_append_iff.mp hsplit with ⟨_ | ⟨m, ms⟩, hls, hrest⟩ | ⟨ms, hus, -⟩
  · exact ⟨[], by simpa using hls.symm⟩
  · obtain ⟨rfl, -⟩ := List.cons.inj hrest
    have hsplit' : ls = (us ++ [r]) ++ ms := by rw [hls]; simp
    have hle := spells_front (hsplit' ▸ hspells)
    rw [closed_append, opened_append, brackets_closing hr] at hle
    simp only [brackets, List.filterMap_nil, Nesting.closed, Nesting.opened, List.countP_cons,
      List.countP_nil] at hle hopen
    simp at hle
    omega
  · exact ⟨ms, hus⟩

end HeadsLiteral

end Formula
