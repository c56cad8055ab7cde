import Formula.Proofs.Variables
import Mathlib.Data.List.Chain

/-!
What the grammar spells is read. The choices of the readers are ordered, but the token that a row
starts with and the one behind it decide all of them but one: a name is a variable only where it heads
no composite literal.
-/

namespace Formula

open Formula.Parser

def Form.StartsWith (l : Lexeme) : Form → Prop
  | .phrase _ _ | .operand _ | .element _ =>
    (∃ a, l = .atom a) ∨ (∃ s op, l = .symbol s ∧ PrefixOp.ofSymbol? s = some op) ∨
      l = .symbol (.opening .round) ∨ l = .symbol (.opening .square)
  | .indexed _ | .primary _ =>
    (∃ a, l = .atom a) ∨ l = .symbol (.opening .round) ∨ l = .symbol (.opening .square)
  | .type t =>
    (∃ a, l = .atom a) ∨ l = .symbol (.opening .square) ∨ ¬ t.IsComposite ∧ l = .symbol (.op .mul)
  | .phrases _ | .elements _ => True

theorem mem_head_append {ts us : List Token} (hts : ts ≠ []) {t : Token}
    (h : t ∈ (ts ++ us).head?) : t ∈ ts.head? := by
  obtain ⟨u, ts', rfl⟩ := List.exists_cons_of_ne_nil hts
  exact h

/-- A row that spells a form starts as such a form may. -/
theorem spells_start {next : Nat} {ts : List Token} {f : Form} (h : Spells next ts f) :
    ∀ t ∈ ts.head?, f.StartsWith t.value := by
  induction h with
  | last _ ih => exact ih
  | plain _ ih => exact ih
  | join h _ _ ih _ => exact fun t ht => ih t (mem_head_append (h.ne_nil id) ht)
  | index h _ _ _ ih _ => exact fun t ht => ih t (mem_head_append (h.ne_nil id) ht)
  | keyed h _ _ ih _ => exact fun t ht => ih t (mem_head_append (h.ne_nil id) ht)
  | base _ ih => exact ih
  | unsigned _ ih =>
    intro t ht
    rcases ih t ht with h | h | h
    · exact .inl h
    · exact .inr (.inr (.inl h))
    · exact .inr (.inr (.inr h))
  | composite h hc _ _ _ ih _ =>
    intro t ht
    rcases ih t (mem_head_append (h.ne_nil id) ht) with h | h | h
    · exact .inl h
    · exact .inr (.inr h)
    · exact absurd hc h.1
  | pointerType hm => simp [Form.StartsWith, TypeExpr.IsComposite, hm]
  | signed ht hs => simp [Form.StartsWith, ht, hs]
  | _ => simp_all [Form.StartsWith]

def Lexeme.EndsPhrase (l : Lexeme) : Prop :=
  (∃ b, l = .symbol (.closing b)) ∨ l = .symbol .comma ∨ l = .symbol .colon ∨ l = .finish

def Form.Allows (l : Lexeme) : Form → Prop
  | .phrase _ _ => l.EndsPhrase
  | .operand _ => l ≠ .symbol (.opening .round) ∧ l ≠ .symbol (.opening .square)
  | .indexed _ | .primary _ => l ≠ .symbol (.opening .round)
  | .phrases _ | .elements _ => ∃ b, l = .symbol (.closing b)
  | .element _ => l.EndsPhrase ∧ l ≠ .symbol .colon
  | .type _ => l ≠ .symbol .dot ∧ l ≠ .symbol (.opening .square)

/-- A token that is the word of map types stands before no bracket as map types have. -/
def Token.StartsNoMap (w l : Token) : Prop :=
  w.value = .atom (.name "map".toList) → l.value ≠ .symbol (.opening .square)

def NoMapType (ts : List Token) : Prop := ts.IsChain Token.StartsNoMap

theorem NoMapType.behind {ts us : List Token} (h : NoMapType (ts ++ us)) : NoMapType us :=
  List.IsChain.right_of_append h

theorem noMapType_of_not_mem {ts : List Token}
    (h : .atom (.name "map".toList) ∉ ts.map (·.value)) : NoMapType ts := by
  refine List.Pairwise.isChain (List.pairwise_of_forall_mem_list fun t ht u _ hword => ?_)
  exact absurd (hword ▸ List.mem_map_of_mem ht) h

def HeadsLiteral (ts : List Token) : Prop :=
  ∃ n, ts.length ≤ n + 1 ∧ (Phrase.Level.composite (Phrase.level n)).run ts ≠ none

def Operand.IsLiteral : Operand → Prop
  | .composite _ _ _ => True
  | _ => False

def Clear (vars : List Nat) (ts : List Token) : Prop :=
  ∀ pre t post text, ts = pre ++ t :: post → t.value = .atom (.name text) → t.span.start ∈ vars →
    ¬ HeadsLiteral (t :: post)

section Clear

variable {vars vars' : List Nat} {ts us : List Token}

theorem Clear.mono (h : Clear vars ts) (hsub : ∀ v ∈ vars', v ∈ vars) : Clear vars' ts :=
  fun pre t post text hts ht hv => h pre t post text hts ht (hsub _ hv)

theorem Clear.left (h : Clear (vars ++ vars') ts) : Clear vars ts :=
  h.mono fun _ => List.mem_append_left vars'

theorem Clear.right (h : Clear (vars ++ vars') ts) : Clear vars' ts :=
  h.mono fun _ => List.mem_append_right vars

theorem Clear.behind (h : Clear vars (ts ++ us)) : Clear vars us := by
  intro pre t post text hus
  exact h (ts ++ pre) t post text (by rw [hus, List.append_assoc])

theorem Clear.tail {t : Token} (h : Clear vars (t :: ts)) : Clear vars ts :=
  behind (show Clear vars ([t] ++ ts) from h)

end Clear

namespace Phrase

/-- A reader of forms that take a token fails where no such form starts. -/
theorem run_eq_none {α : Type} {p : Parser α} {form : α → Form} (hp : Follows p form)
    (hne : ∀ a, ¬ Spells.MayBeEmpty (form a)) {ts : List Token}
    (h : ∀ t ∈ ts.head?, ∀ a, ¬ (form a).StartsWith t.value) : p.run ts = none := by
  rcases hr : p.run ts with _ | ⟨a, rest⟩
  · rfl
  · obtain ⟨us, rfl, hus⟩ := hp _ _ _ hr
    obtain ⟨u, us', rfl⟩ := List.exists_cons_of_ne_nil fun h0 => hne a (hus.mayBeEmpty h0)
    exact absurd (spells_start hus u rfl) (h u rfl a)

theorem advances_of_follows {α : Type} {p : Parser α} {form : α → Form} (hp : Follows p form)
    (hne : ∀ a, ¬ Spells.MayBeEmpty (form a)) : Advances p := by
  intro ts a rest h
  obtain ⟨us, rfl, hus⟩ := hp _ _ _ h
  have hpos := List.length_pos_iff.mpr fun h0 => hne a (hus.mayBeEmpty h0)
  rw [List.length_append]
  omega

/-- What ends a phrase starts none. -/
theorem endsPhrase_starts_none {t : Token} (h : t.value.EndsPhrase) (joined : Bool) (p : Phrase) :
    ¬ (Form.phrase joined p).StartsWith t.value := by
  rintro (⟨a, ha⟩ | ⟨s, op, hs, hop⟩ | hr | hr)
  · rcases h with ⟨b, h⟩ | h | h | h <;> cases ha.symm.trans h
  · rcases h with ⟨b, h⟩ | h | h | h <;> cases hs.symm.trans h <;> cases hop
  · rcases h with ⟨b, h⟩ | h | h | h <;> cases hr.symm.trans h
  · rcases h with ⟨b, h⟩ | h | h | h <;> cases hr.symm.trans h

theorem endsPhrase_no_infix {ts : List Token} (h : ∀ t ∈ ts.head?, t.value.EndsPhrase) :
    infixOp.run ts = none := by
  cases ts with
  | nil => rfl
  | cons t ts =>
    rcases h t rfl with ⟨b, h⟩ | h | h | h <;> simp [infixOp, run, h]

theorem infixOp_read {ots us : List Token} {op : Placed InfixOp} (h : Joins ots us op) :
    infixOp.run (ots ++ us) = some (op, us) := by
  cases h with
  | @one t us op ht hb =>
    by_cases hop : op = .band
    · subst hop
      cases us with
      | nil => simp [infixOp, run, ht]
      | cons u us =>
        have hnot : ¬ (u.value = .symbol (.op .bxor) ∧ t.span.stop = u.span.start) :=
          fun hu => hb rfl u rfl hu.1 hu.2
        simp only [infixOp, run, List.singleton_append, ht, if_neg hnot]
    · simp only [infixOp, run, List.singleton_append, ht]
  | andNot ht hu hs =>
    rw [Token.Touches] at hs
    simp [infixOp, run, ht, hu, hs]

theorem prefixOp_read {t : Token} {s : Symbol} {op : PrefixOp} (ht : t.value = .symbol s)
    (hs : PrefixOp.ofSymbol? s = some op) (rest : List Token) :
    prefixOp.run (t :: rest) = some (⟨op, t.span⟩, rest) := by
  simp [prefixOp, run_expect_cons, ht, hs]

theorem prefixOp_advances : Advances prefixOp := by
  intro ts op rest h
  obtain ⟨t, s, rfl, -⟩ := prefixOp_sound h
  exact Nat.lt_succ_self _

/-- Where an operand without signs starts, there is no sign. -/
theorem no_prefixOp {ts : List Token} {o : Operand}
    (h : ∀ t ∈ ts.head?, (Form.primary o).StartsWith t.value) : prefixOp.run ts = none := by
  cases ts with
  | nil => rfl
  | cons t ts =>
    rcases h t rfl with ⟨a, h⟩ | h | h <;> simp [prefixOp, run_expect_cons, h, PrefixOp.ofSymbol?]

section CommaList

variable {α : Type} {p : Parser α} {ts us rest : List Token} {a : α}

theorem commaList_one (hp : p.run ts = some (a, rest))
    (h : ∀ t ∈ rest.head?, t.value ≠ .symbol .comma) : (commaList p).run ts = some ([a], rest) := by
  have hcomma : (sign .comma).run rest = none := by
    cases rest with
    | nil => rfl
    | cons t rest => rw [run_sign_cons, if_neg (h t rfl)]
  have hstop : (many (sign .comma >>= fun _ => p)).run rest = some ([], rest) :=
    run_many_stop (by rw [run_bind, hcomma]; rfl)
  simp only [commaList, run_bind, hp, Option.bind_some, hstop, run_optional, hcomma, run_pure]

theorem commaList_last {c : Token} (hc : c.value = .symbol .comma)
    (hp : p.run ts = some (a, c :: rest)) (h : p.run rest = none) :
    (commaList p).run ts = some ([a], rest) := by
  have hcomma : (sign .comma).run (c :: rest) = some (c, rest) := by rw [run_sign_cons, if_pos hc]
  have hstop : (many (sign .comma >>= fun _ => p)).run (c :: rest) = some ([], c :: rest) :=
    run_many_stop (by rw [run_bind, hcomma]; exact h)
  simp only [commaList, run_bind, hp, Option.bind_some, hstop, run_optional, hcomma, run_pure]

theorem commaList_more {c : Token} {as : List α} (hadv : Advances p)
    (hc : c.value = .symbol .comma) (hp : p.run ts = some (a, c :: us))
    (h : (commaList p).run us = some (as, rest)) :
    (commaList p).run ts = some (a :: as, rest) := by
  simp only [commaList, run_bind_eq_some, run_pure_eq_some] at h
  obtain ⟨b, ts₁, hb, bs, ts₂, hbs, comma, ts₃, h₃, rfl, rfl⟩ := h
  have hstep : (sign .comma >>= fun _ => p).run (c :: us) = some (b, ts₁) := by
    rw [run_bind, run_sign_cons, if_pos hc]
    exact hb
  have hadv' : Advances (sign .comma >>= fun _ => p) := by
    intro ts a rest hrun
    simp only [run_bind_eq_some, run_sign_eq_some] at hrun
    obtain ⟨c, ts', ⟨rfl, -⟩, ha⟩ := hrun
    have hlt := hadv _ _ _ ha
    rw [List.length_cons]
    omega
  have hmany := run_many_step hadv' hstep
  rw [hbs, Option.map_some] at hmany
  simp only [commaList, run_bind, hp, Option.bind_some, hmany, h₃, run_pure]

theorem commaList_eq_none (h : (commaList p).run ts = none) : p.run ts = none := by
  rcases hp : p.run ts with _ | ⟨a, mid⟩
  · rfl
  · simp only [commaList, run_bind, hp, Option.bind_some, run_many, run_optional, run_pure] at h
    cases h

theorem optional_list_none (h : p.run ts = none) :
    (optional (commaList p)).run ts = some (none, ts) := by
  have hlist : (commaList p).run ts = none := by
    rw [commaList, run_bind, h]
    rfl
  rw [run_optional, hlist]

theorem optional_list_one (hp : p.run ts = some (a, rest))
    (h : ∀ t ∈ rest.head?, t.value ≠ .symbol .comma) :
    (optional (commaList p)).run ts = some (some [a], rest) := by
  rw [run_optional, commaList_one hp h]

/-- An item and a comma go before the list behind them, whether there is one or not. -/
theorem optional_list_more {c : Token} {found : Option (List α)} (hadv : Advances p)
    (hc : c.value = .symbol .comma) (hp : p.run ts = some (a, c :: us))
    (h : (optional (commaList p)).run us = some (found, rest)) :
    (optional (commaList p)).run ts = some (some (a :: found.getD []), rest) := by
  rw [run_optional] at h ⊢
  rcases hlist : (commaList p).run us with _ | ⟨as, rest'⟩
  · simp only [hlist, Option.some.injEq, Prod.mk.injEq] at h
    obtain ⟨rfl, rfl⟩ := h
    rw [commaList_last hc hp (commaList_eq_none hlist)]
    rfl
  · simp only [hlist, Option.some.injEq, Prod.mk.injEq] at h
    obtain ⟨rfl, rfl⟩ := h
    rw [commaList_more hadv hc hp hlist]
    rfl

end CommaList

namespace Level

variable (below : Level)

def joinedOperand : Parser (Placed InfixOp × Operand) := do
  let op ← infixOp
  let second ← operand below
  return (op, second)

def primary : Parser Operand := composite below <|> call below <|> group below <|> atom

def indexedBy (base : Operand) (indexes : List (Phrase × Nat)) : Operand :=
  indexes.foldl (fun base (position, stop) => .index base position stop) base

variable {below} {ts rest : List Token}

theorem run_anyPhrase {first : Operand} {row : List (Placed InfixOp × Operand)} {mid : List Token}
    (h₁ : (operand below).run ts = some (first, mid))
    (h₂ : (many (joinedOperand below)).run mid = some (row, rest)) :
    (anyPhrase below).run ts =
      some (ofRow (rowEnd (startOf rest) false first row) first row, rest) := by
  rw [joinedOperand] at h₂
  rw [rowEnd_eq_rowStop]
  simp only [anyPhrase, run_goal, run_bind, h₁, h₂, Option.bind_some, run_here, run_pure]

theorem run_operand_unsigned {base : Operand} {indexes : List (Phrase × Nat)} {mid : List Token}
    (h₀ : prefixOp.run ts = none) (h₁ : (primary below).run ts = some (base, mid))
    (h₂ : (many (index below)).run mid = some (indexes, rest)) :
    (operand below).run ts = some (indexedBy base indexes, rest) := by
  rw [primary] at h₁
  simp only [operand, run_bind, run_many_stop h₀, h₁, h₂, Option.bind_some, run_pure]
  rfl

/-- A sign before an operand goes onto what is read behind it. -/
theorem run_operand_signed {t : Token} {s : Symbol} {op : PrefixOp} (ht : t.value = .symbol s)
    (hs : PrefixOp.ofSymbol? s = some op) : (operand below).run (t :: ts) =
      ((operand below).run ts).map fun (o, rest) => (.signed ⟨op, t.span⟩ o, rest) := by
  have hmany := run_many_step prefixOp_advances (prefixOp_read ht hs ts)
  obtain ⟨signs, mid, hsigns⟩ : ∃ signs mid, (many prefixOp).run ts = some (signs, mid) :=
    ⟨_, _, run_many prefixOp ts⟩
  simp only [operand, run_bind, hmany, hsigns, Option.map_some, Option.bind_some]
  rcases (composite below <|> call below <|> group below <|> atom).run mid with _ | ⟨base, mid'⟩
  · rfl
  · simp only [Option.bind_some]
    rcases (many (index below)).run mid' with _ | ⟨indexes, rest⟩ <;> rfl

theorem index_read {l r : Token} {p : Phrase} {us : List Token}
    (hl : l.value = .symbol (.opening .square)) (hr : r.value = .symbol (.closing .square))
    (hp : below.phrase.run (us ++ r :: rest) = some (p, r :: rest)) :
    (index below).run (l :: (us ++ r :: rest)) = some ((p, r.span.stop), rest) := by
  simp only [index, run_goal, run_bind, run_sign_cons, if_pos hl, Option.bind_some, hp, if_pos hr,
    run_pure]

theorem index_advances (hphrase : Follows below.phrase (.phrase false)) :
    Advances (index below) := by
  intro ts a rest h
  simp only [index, run_goal, run_bind_eq_some, run_pure_eq_some, run_sign_eq_some] at h
  obtain ⟨l, ts₁, ⟨rfl, -⟩, p, ts₂, h₂, r, ts₃, ⟨rfl, -⟩, rfl, rfl⟩ := h
  obtain ⟨us, rfl, -⟩ := hphrase _ _ _ h₂
  simp only [List.length_cons, List.length_append]
  omega

/-- Where no index starts, the indexes are over. -/
theorem index_missing (h : ∀ t ∈ ts.head?, t.value ≠ .symbol (.opening .square)) :
    (index below).run ts = none := by
  cases ts with
  | nil => rfl
  | cons t ts =>
    simp only [index, run_goal, run_bind, run_sign_cons, if_neg (h t rfl), Option.bind_none]

theorem joinedOperand_advances (hphrase : Follows below.phrase (.phrase false))
    (htype : Follows below.type .type) : Advances (joinedOperand below) := by
  intro ts a rest h
  simp only [joinedOperand, run_bind_eq_some, run_pure_eq_some] at h
  obtain ⟨op, ts₁, h₁, second, ts₂, h₂, -, rfl⟩ := h
  obtain ⟨ots, rfl, hop⟩ := infixOp_sound h₁
  have hlt := advances_of_follows (operand_sound hphrase htype) (fun _ h => h) _ _ _ h₂
  rw [List.length_append]
  omega

theorem mapType_missing {t : Token} (hmap : ∀ u ∈ ts.head?, t.StartsNoMap u) :
    (mapType below).run (t :: ts) = none := by
  simp only [mapType, run_goal, run_bind, mapWord, run_expect_cons]
  split_ifs with hword
  · cases ts with
    | nil => rfl
    | cons u ts =>
      simp only [Option.map_some, Option.bind_some, run_sign_cons, if_neg (hmap u rfl hword),
        Option.bind_none]
  · rfl

/-- A composite type starts with a bracket or with the word of map types. -/
theorem compositeType_missing {t : Token} (hmap : ∀ u ∈ ts.head?, t.StartsNoMap u)
    (h : t.value ≠ .symbol (.opening .square)) : (compositeType below).run (t :: ts) = none := by
  simp only [compositeType, run_orElse, mapType_missing hmap, sliceType, arrayType, run_goal, run_bind,
    run_sign_cons, if_neg h, Option.bind_none, Option.or_none]

theorem composite_missing {t : Token} (hmap : ∀ u ∈ ts.head?, t.StartsNoMap u)
    (h : t.value ≠ .symbol (.opening .square)) : (composite below).run (t :: ts) = none := by
  simp only [composite, run_goal, run_bind, run_here, Option.bind_some, compositeType_missing hmap h,
    Option.bind_none]

theorem symbol_startsNoMap {t : Token} {s : Symbol} (h : t.value = .symbol s) (u : Token) :
    t.StartsNoMap u := by
  intro hword
  cases h.symm.trans hword

/-- A literal is no name, so that no composite literal starts with it. -/
theorem literal_missing {t : Token} {a : Atom} (ht : t.value = .atom a)
    (ha : ∀ text, a ≠ .name text) : (composite below).run (t :: rest) = none := by
  refine composite_missing (fun u _ hword => ?_) (by simp [ht])
  rw [ht] at hword
  exact absurd (Lexeme.atom.inj hword) (ha _)

theorem atom_read {t : Token} {a : Atom} (ht : t.value = .atom a)
    (hcomposite : (composite below).run (t :: rest) = none)
    (h : ∀ u ∈ rest.head?, u.value ≠ .symbol (.opening .round)) :
    (primary below).run (t :: rest) = some (.atom ⟨a, t.span⟩, rest) := by
  have hopening : (sign (.opening .round)).run rest = none := by
    cases rest with
    | nil => rfl
    | cons u rest => rw [run_sign_cons, if_neg (h u rfl)]
  have hcall : (call below).run (t :: rest) = none := by
    cases a with
    | name text => simp [call, run_goal, run_bind, name, run_expect_cons, ht, hopening]
    | _ => simp [call, run_goal, run_bind, name, run_expect_cons, ht]
  have hgroup : (group below).run (t :: rest) = none := by
    simp [group, run_goal, run_bind, run_sign_cons, ht]
  simp [primary, run_orElse, hcomposite, hcall, hgroup, atom, run_expect_cons, ht]

theorem group_read {l r : Token} {p : Phrase} {us : List Token}
    (hl : l.value = .symbol (.opening .round)) (hr : r.value = .symbol (.closing .round))
    (hp : below.phrase.run (us ++ r :: rest) = some (p, r :: rest)) :
    (primary below).run (l :: (us ++ r :: rest)) =
      some (.group (l.span.cover r.span) p, rest) := by
  have hcomposite : (composite below).run (l :: (us ++ r :: rest)) = none :=
    composite_missing (fun u _ => symbol_startsNoMap hl u) (by simp [hl])
  have hcall : (call below).run (l :: (us ++ r :: rest)) = none := by
    simp [call, run_goal, run_bind, name, run_expect_cons, hl]
  have hgroup : (group below).run (l :: (us ++ r :: rest)) =
      some (.group (l.span.cover r.span) p, rest) := by
    simp only [group, run_goal, run_bind, run_sign_cons, if_pos hl, Option.bind_some, hp, if_pos hr,
      run_pure]
  simp only [primary, run_orElse, hcomposite, hcall, hgroup, Option.none_or, Option.some_or]

theorem call_read {f l r : Token} {text : List Char} {ps : Option (List Phrase)} {us : List Token}
    (hf : f.value = .atom (.name text))
    (hl : l.value = .symbol (.opening .round)) (hr : r.value = .symbol (.closing .round))
    (hps : (optional (commaList below.phrase)).run (us ++ r :: rest) = some (ps, r :: rest)) :
    (primary below).run (f :: l :: (us ++ r :: rest)) =
      some (.call (f.span.cover r.span) text (ps.getD []), rest) := by
  have hcomposite : (composite below).run (f :: l :: (us ++ r :: rest)) = none :=
    composite_missing (by simp [Token.StartsNoMap, hl]) (by simp [hf])
  have hcall : (call below).run (f :: l :: (us ++ r :: rest)) =
      some (.call (f.span.cover r.span) text (ps.getD []), rest) := by
    simp only [call, run_goal, run_bind, name, run_expect_cons, hf, Option.map_some,
      Option.bind_some, run_sign_cons, if_pos hl, hps, if_pos hr, run_pure]
  simp only [primary, run_orElse, hcomposite, hcall, Option.none_or, Option.some_or]

theorem composite_read {l r : Token} {t : TypeExpr} {es : Option (List Element)} {us vs : List Token}
    (hl : l.value = .symbol (.opening .curly)) (hr : r.value = .symbol (.closing .curly))
    (hne : us ≠ [])
    (ht : (compositeType below).run (us ++ l :: (vs ++ r :: rest)) =
      some (t, l :: (vs ++ r :: rest)))
    (hes : (optional (commaList (element below))).run (vs ++ r :: rest) = some (es, r :: rest)) :
    (composite below).run (us ++ l :: (vs ++ r :: rest)) =
      some (.composite ⟨startOf us, r.span.stop⟩ t (es.getD []), rest) := by
  simp only [composite, run_goal, run_bind, run_here, Option.bind_some, ht, run_sign_cons,
    if_pos hl, hes, if_pos hr, run_pure, startOf_append hne]

theorem plain_element_read {p : Phrase} (hp : below.phrase.run ts = some (p, rest))
    (h : ∀ t ∈ rest.head?, t.value ≠ .symbol .colon) :
    (element below).run ts = some (.plain p, rest) := by
  have hcolon : (sign .colon >>= fun _ => below.phrase).run rest = none := by
    cases rest with
    | nil => rfl
    | cons t rest =>
      rw [run_bind, run_sign_cons, if_neg (h t rfl)]
      rfl
  simp only [element, run_goal, run_bind (here), run_here, Option.bind_some,
    run_bind (below.phrase), hp, run_bind (optional _), run_optional, hcolon, run_pure]

theorem keyed_element_read {k v : Phrase} {c : Token} {us : List Token}
    (hc : c.value = .symbol .colon) (hk : below.phrase.run ts = some (k, c :: us))
    (hv : below.phrase.run us = some (v, rest)) :
    (element below).run ts = some (.keyed ⟨startOf ts, v.stop⟩ k v, rest) := by
  have hcolon : (sign .colon >>= fun _ => below.phrase).run (c :: us) = some (v, rest) := by
    rw [run_bind, run_sign_cons, if_pos hc]
    exact hv
  simp only [element, run_goal, run_bind (here), run_here, Option.bind_some,
    run_bind (below.phrase), hk, run_bind (optional _), run_optional, hcolon, run_pure]

theorem mapType_read {w l r : Token} {k v : TypeExpr} {us vs : List Token}
    (hw : w.value = .atom (.name "map".toList)) (hl : l.value = .symbol (.opening .square))
    (hr : r.value = .symbol (.closing .square))
    (hk : below.type.run (us ++ r :: vs) = some (k, r :: vs))
    (hv : below.type.run vs = some (v, rest)) :
    (compositeType below).run (w :: l :: (us ++ r :: vs)) =
      some (.map (w.span.cover v.span) k v, rest) := by
  have hmap : (mapType below).run (w :: l :: (us ++ r :: vs)) =
      some (.map (w.span.cover v.span) k v, rest) := by
    simp only [mapType, run_goal, run_bind, mapWord, run_expect_cons, if_pos hw, Option.map_some,
      Option.bind_some, run_sign_cons, if_pos hl, hk, if_pos hr, hv, run_pure]
  simp only [compositeType, run_orElse, hmap, Option.some_or]

theorem sliceType_read {l r : Token} {e : TypeExpr}
    (hl : l.value = .symbol (.opening .square)) (hr : r.value = .symbol (.closing .square))
    (he : below.type.run ts = some (e, rest)) :
    (compositeType below).run (l :: r :: ts) = some (.slice (l.span.cover e.span) e, rest) := by
  have hmap : (mapType below).run (l :: r :: ts) = none :=
    mapType_missing fun u _ => symbol_startsNoMap hl u
  have hslice : (sliceType below).run (l :: r :: ts) = some (.slice (l.span.cover e.span) e, rest) := by
    simp only [sliceType, run_goal, run_bind, run_sign_cons, if_pos hl, if_pos hr, Option.bind_some,
      he, run_pure]
  simp only [compositeType, run_orElse, hmap, hslice, Option.none_or, Option.some_or]

theorem arrayType_read {l r : Token} {p : Phrase} {e : TypeExpr} {us vs : List Token}
    (hl : l.value = .symbol (.opening .square)) (hr : r.value = .symbol (.closing .square))
    (hus : ∀ t ∈ us.head?, (Form.phrase false p).StartsWith t.value) (hne : us ≠ [])
    (hp : below.phrase.run (us ++ r :: vs) = some (p, r :: vs))
    (he : below.type.run vs = some (e, rest)) :
    (compositeType below).run (l :: (us ++ r :: vs)) =
      some (.array (l.span.cover e.span) p e, rest) := by
  obtain ⟨u, us, rfl⟩ := List.exists_cons_of_ne_nil hne
  have hmap : (mapType below).run (l :: (u :: us ++ r :: vs)) = none :=
    mapType_missing fun u _ => symbol_startsNoMap hl u
  have hstart : u.value ≠ .symbol (.closing .square) ∧ u.value ≠ .symbol .ellipsis := by
    rcases hus u rfl with ⟨a, h⟩ | ⟨s, op, h, hop⟩ | h | h
    · simp [h]
    · constructor <;> intro hu <;> cases h.symm.trans hu <;> cases hop
    · simp [h]
    · simp [h]
  have hslice : (sliceType below).run (l :: (u :: us ++ r :: vs)) = none := by
    simp [sliceType, run_goal, run_bind, run_sign_cons, hl, hstart.1]
  have hellipsis : (sign .ellipsis).run (u :: us ++ r :: vs) = none := by
    rw [List.cons_append, run_sign_cons, if_neg hstart.2]
  have harray : (arrayType below).run (l :: (u :: us ++ r :: vs)) =
      some (.array (l.span.cover e.span) p e, rest) := by
    simp only [arrayType, run_goal, run_bind, run_orElse, run_sign_cons, if_pos hl,
      Option.bind_some, hellipsis, Option.bind_none, Option.none_or, hp, if_pos hr, he, run_pure]
  simp only [compositeType, run_orElse, hmap, hslice, harray, Option.none_or]

theorem openArrayType_read {l d r : Token} {e : TypeExpr}
    (hl : l.value = .symbol (.opening .square)) (hd : d.value = .symbol .ellipsis)
    (hr : r.value = .symbol (.closing .square)) (he : below.type.run ts = some (e, rest)) :
    (compositeType below).run (l :: d :: r :: ts) =
      some (.openArray (l.span.cover e.span) e, rest) := by
  have hmap : (mapType below).run (l :: d :: r :: ts) = none :=
    mapType_missing fun u _ => symbol_startsNoMap hl u
  have hslice : (sliceType below).run (l :: d :: r :: ts) = none := by
    simp [sliceType, run_goal, run_bind, run_sign_cons, hl, hd]
  have harray : (arrayType below).run (l :: d :: r :: ts) =
      some (.openArray (l.span.cover e.span) e, rest) := by
    simp only [arrayType, run_goal, run_bind, run_orElse, run_sign_cons, if_pos hl, if_pos hd,
      if_pos hr, Option.bind_some, Option.some_or, he, run_pure]
  simp only [compositeType, run_orElse, hmap, hslice, harray, Option.none_or]

/-- A composite type is read as a type, too. -/
theorem anyType_of_composite {t : TypeExpr} (h : (compositeType below).run ts = some (t, rest)) :
    (anyType below).run ts = some (t, rest) := by
  simp only [anyType, run_goal, run_orElse, h, Option.some_or]

theorem pointerType_read {m : Token} {e : TypeExpr} (hm : m.value = .symbol (.op .mul))
    (he : below.type.run ts = some (e, rest)) :
    (anyType below).run (m :: ts) = some (.pointer (m.span.cover e.span) e, rest) := by
  have hcomposite : (compositeType below).run (m :: ts) = none :=
    compositeType_missing (fun u _ => symbol_startsNoMap hm u) (by simp [hm])
  have hpointer : (pointerType below).run (m :: ts) =
      some (.pointer (m.span.cover e.span) e, rest) := by
    simp only [pointerType, run_goal, run_bind, run_sign_cons, if_pos hm, Option.bind_some, he,
      run_pure]
  simp only [anyType, run_goal, run_orElse, hcomposite, hpointer, Option.none_or, Option.some_or]

theorem qualifiedType_read {t d u : Token} {a b : List Char} (ht : t.value = .atom (.name a))
    (hd : d.value = .symbol .dot)
    (hu : u.value = .atom (.name b)) (htd : t.Touches d) (hdu : d.Touches u) :
    (anyType below).run (t :: d :: u :: rest) = some (.qualified (t.span.cover u.span) a b, rest) := by
  have hcomposite : (compositeType below).run (t :: d :: u :: rest) = none :=
    compositeType_missing (by simp [Token.StartsNoMap, hd]) (by simp [ht])
  have hpointer : (pointerType below).run (t :: d :: u :: rest) = none := by
    simp [pointerType, run_goal, run_bind, run_sign_cons, ht]
  have hqualified : qualifiedName.run (t :: d :: u :: rest) =
      some (.qualified (t.span.cover u.span) a b, rest) := by
    rw [Token.Touches] at htd hdu
    rw [qualifiedName, run_goal]
    simp [run, ht, hd, hu, htd, hdu]
  simp only [anyType, run_goal, run_orElse, hcomposite, hpointer, hqualified, Option.none_or,
    Option.some_or]

theorem namedType_read {t : Token} {text : List Char} (ht : t.value = .atom (.name text))
    (h : ∀ u ∈ rest.head?, (Form.type (.name t.span text)).Allows u.value) :
    (anyType below).run (t :: rest) = some (.name t.span text, rest) := by
  have hcomposite : (compositeType below).run (t :: rest) = none :=
    compositeType_missing (fun u hu _ => (h u hu).2) (by simp [ht])
  have hpointer : (pointerType below).run (t :: rest) = none := by
    simp [pointerType, run_goal, run_bind, run_sign_cons, ht]
  have hqualified : qualifiedName.run (t :: rest) = none := by
    rw [qualifiedName, run_goal]
    rcases rest with _ | ⟨d, _ | ⟨u, rest⟩⟩
    · rfl
    · rfl
    · have hd := (h d rfl).1
      cases hu : u.value with
      | atom b => cases b <;> simp [run, ht, hu, hd]
      | _ => simp [run, ht, hu]
  have hnamed : namedType.run (t :: rest) = some (.name t.span text, rest) := by
    simp [namedType, run_bind, name, run_expect_cons, ht, run_pure]
  simp only [anyType, run_goal, run_orElse, hcomposite, hpointer, hqualified, hnamed, Option.none_or]

end Level

open Level

def ReadFrom (n : Nat) (ts rest : List Token) : Form → Prop
  | .phrase joined p => (ts ++ rest).length ≤ n + 1 → ∃ first row mid,
      p = ofRow (rowEnd (startOf rest) joined first row) first row ∧
      (operand (level n)).run (ts ++ rest) = some (first, mid) ∧
      (many (joinedOperand (level n))).run mid = some (row, rest)
  | .operand o => (ts ++ rest).length ≤ n + 1 → (operand (level n)).run (ts ++ rest) = some (o, rest)
  | .indexed o => (ts ++ rest).length ≤ n + 1 → ∃ base indexes mid,
      (primary (level n)).run (ts ++ rest) = some (base, mid) ∧ o = indexedBy base indexes ∧
      ∀ more left, (many (index (level n))).run rest = some (more, left) →
        (many (index (level n))).run mid = some (indexes ++ more, left)
  | .primary o => (ts ++ rest).length ≤ n + 1 → (primary (level n)).run (ts ++ rest) = some (o, rest)
  | .phrases ps => (ts ++ rest).length ≤ n → ∃ found,
      (optional (commaList (level n).phrase)).run (ts ++ rest) = some (found, rest) ∧
      found.getD [] = ps
  | .element e => (ts ++ rest).length ≤ n → (element (level n)).run (ts ++ rest) = some (e, rest)
  | .elements es => (ts ++ rest).length ≤ n → ∃ found,
      (optional (commaList (element (level n)))).run (ts ++ rest) = some (found, rest) ∧
      found.getD [] = es
  | .type t => ((ts ++ rest).length ≤ n → (level n).type.run (ts ++ rest) = some (t, rest)) ∧
      (t.IsComposite → (ts ++ rest).length ≤ n + 1 →
        (compositeType (level n)).run (ts ++ rest) = some (t, rest))

theorem level_above {n : Nat} {ts rest : List Token} (hne : ts ≠ []) (hlen : (ts ++ rest).length ≤ n) :
    ∃ m, n = m + 1 := by
  have hpos := List.length_pos_iff.mpr hne
  rw [List.length_append] at hlen
  exact ⟨n - 1, by omega⟩

/-- A phrase is read at every level that has room for the tokens. -/
theorem phrase_read {n : Nat} {ts rest : List Token} {p : Phrase} (hne : ts ≠ [])
    (hlen : (ts ++ rest).length ≤ n) (h : ∀ n, ReadFrom n ts rest (.phrase false p)) :
    (level n).phrase.run (ts ++ rest) = some (p, rest) := by
  -- A row of at least one token leaves a level to go down to.
  obtain ⟨n, rfl⟩ := level_above hne hlen
  obtain ⟨first, row, mid, rfl, h₁, h₂⟩ := h n hlen
  exact run_anyPhrase h₁ h₂

/-- A composite type is read at every level that has room for the tokens. -/
theorem compositeType_read {n : Nat} {ts rest : List Token} {t : TypeExpr} (hne : ts ≠ [])
    (h : ∀ n, (ts ++ rest).length ≤ n + 1 → (compositeType (level n)).run (ts ++ rest) = some (t, rest)) :
    ReadFrom n ts rest (.type t) := by
  refine ⟨fun hlen => ?_, fun _ => h n⟩
  obtain ⟨n, rfl⟩ := level_above hne hlen
  exact anyType_of_composite (h n hlen)

/-- A type that no composite literal has is read at every level that has room for the tokens. -/
theorem simple_type_read {n : Nat} {ts rest : List Token} {t : TypeExpr} (hne : ts ≠ [])
    (hc : ¬ t.IsComposite)
    (h : ∀ n, (ts ++ rest).length ≤ n + 1 → (anyType (level n)).run (ts ++ rest) = some (t, rest)) :
    ReadFrom n ts rest (.type t) := by
  refine ⟨fun hlen => ?_, fun hc' => absurd hc' hc⟩
  obtain ⟨n, rfl⟩ := level_above hne hlen
  exact h n hlen

theorem join_read {n : Nat} {ts ots us rest : List Token} {joined : Bool} {o : Operand}
    {op : Placed InfixOp} {p : Phrase} (hop : Joins ots us op) (hne : us ≠ [])
    (h : ReadFrom n ts (ots ++ (us ++ rest)) (.operand o))
    (hp : ReadFrom n us rest (.phrase true p)) :
    ReadFrom n (ts ++ (ots ++ us)) rest (.phrase joined (.join o op p)) := by
  intro hlen
  simp only [List.length_append] at hlen
  obtain ⟨first, row, mid, rfl, h₁, h₂⟩ := hp (by rw [List.length_append]; omega)
  have hsound := level_sound n
  have hturn : (joinedOperand (level n)).run (ots ++ (us ++ rest)) = some ((op, first), mid) := by
    simp only [joinedOperand, run_bind, infixOp_read ((joins_append_iff hne).mpr hop),
      Option.bind_some, h₁, run_pure]
  refine ⟨o, (op, first) :: row, ots ++ (us ++ rest), rfl, ?_, ?_⟩
  · simpa using h (by simp only [List.length_append]; omega)
  · rw [run_many_step (joinedOperand_advances hsound.1 hsound.2) hturn, h₂]
    rfl

theorem indexed_read {n : Nat} {ts us rest : List Token} {b : Operand} {p : Phrase} {l r : Token}
    (hl : l.value = .symbol (.opening .square)) (hr : r.value = .symbol (.closing .square))
    (hne : ts ≠ []) (hb : ReadFrom n ts (l :: (us ++ r :: rest)) (.indexed b))
    (hp : (us ++ r :: rest).length ≤ n →
      (level n).phrase.run (us ++ r :: rest) = some (p, r :: rest)) :
    ReadFrom n (ts ++ l :: (us ++ [r])) rest (.indexed (.index b p r.span.stop)) := by
  intro hlen
  have hpos := List.length_pos_iff.mpr hne
  simp only [List.length_append, List.length_cons, List.length_nil] at hlen
  obtain ⟨base, indexes, mid, h₁, rfl, hmany⟩ := hb (by
    simp only [List.length_append, List.length_cons]
    omega)
  refine ⟨base, indexes ++ [(p, r.span.stop)], mid, by simpa using h₁, ?_, fun more left hmore => ?_⟩
  · simp [indexedBy]
  · have hstep := run_many_step (index_advances (level_sound n).1)
      (index_read hl hr (hp (by
        simp only [List.length_append, List.length_cons]
        omega)))
    rw [hmore, Option.map_some] at hstep
    simpa using hmany _ _ hstep

/-- A composite literal is read at every level that has room for the tokens, whatever stands behind. -/
theorem literal_of_parts {n : Nat} {ts us rest : List Token} {t : TypeExpr} {es : List Element}
    {l r : Token} (hne : ts ≠ []) (hc : t.IsComposite) (hl : l.value = .symbol (.opening .curly))
    (hr : r.value = .symbol (.closing .curly))
    (ht : ReadFrom n ts (l :: (us ++ r :: rest)) (.type t))
    (hes : ReadFrom n us (r :: rest) (.elements es))
    (hlen : (ts ++ l :: (us ++ r :: rest)).length ≤ n + 1) :
    (composite (level n)).run (ts ++ l :: (us ++ r :: rest)) =
      some (.composite ⟨startOf ts, r.span.stop⟩ t es, rest) := by
  have htype := ht.2 hc hlen
  rw [List.length_append, List.length_cons] at hlen
  obtain ⟨found, hfound, rfl⟩ := hes (by omega)
  exact composite_read hl hr hne htype hfound

theorem joins_starts {ots us : List Token} {op : Placed InfixOp} (h : Joins ots us op) :
    ∀ t ∈ ots.head?, ∃ o, t.value = .symbol (.op o) := by
  cases h with
  | one ht _ => simpa using ⟨_, ht⟩
  | andNot ht _ _ => simpa using ⟨_, ht⟩

/-- What ends a phrase may stand behind an operand. -/
theorem endsPhrase_allows {l : Lexeme} (h : l.EndsPhrase) (o : Operand) :
    (Form.operand o).Allows l := by
  rcases h with ⟨b, rfl⟩ | rfl | rfl | rfl <;> exact ⟨nofun, nofun⟩

/-- What tokens spell, and is read of them, whatever stands behind that may, if its variables are clear. What
nests is read one level down, before its bracket, so that the level and the tokens behind vary. -/
structure Reads (next : Nat) (ts : List Token) (f : Form) : Prop where
  spelled : Spells next ts f
  read (n : Nat) (rest : List Token) (hclear : Clear f.variables (ts ++ rest)) (hnext : startOf rest = next)
    (hrest : ∀ t ∈ rest.head?, f.Allows t.value) : ReadFrom n ts rest f

namespace Reads

variable {next n : Nat} {ts us rest : List Token} {l c m e : Token} {o : Operand} {p k v : Phrase} {t u : TypeExpr}

/-- A phrase is read before a token that ends phrases. -/
theorem before (h : Reads e.span.start ts (.phrase false p)) (he : e.value.EndsPhrase)
    (hclear : Clear p.variables (ts ++ e :: rest)) (hlen : (ts ++ e :: rest).length ≤ n) :
    (level n).phrase.run (ts ++ e :: rest) = some (p, e :: rest) := by
  refine phrase_read (h.spelled.ne_nil id) hlen fun m => h.read m (e :: rest) hclear rfl fun t ht => ?_
  obtain rfl := Option.some.inj ht
  exact he

theorem last (joined : Bool) (h : Reads next ts (.operand o)) :
    Reads next ts (.phrase joined (.last o (o.lastStop joined next))) := by
  refine ⟨.last h.spelled, fun n rest hclear hnext hrest hlen => ?_⟩
  subst hnext
  have hstop : (joinedOperand (level n)).run rest = none := by
    rw [joinedOperand, run_bind, endsPhrase_no_infix hrest]
    rfl
  have hoperand := h.read n rest hclear rfl (fun t ht => endsPhrase_allows (hrest t ht) o) hlen
  exact ⟨o, [], rest, rfl, hoperand, run_many_stop hstop⟩

theorem join {ots : List Token} {joined : Bool} {op : Placed InfixOp} (h : Reads (startOf ots) ts (.operand o))
    (hop : Joins ots us op) (hp : Reads next us (.phrase true p)) :
    Reads next (ts ++ (ots ++ us)) (.phrase joined (.join o op p)) := by
  refine ⟨.join h.spelled hop hp.spelled, fun n rest hclear hnext hrest => ?_⟩
  simp only [List.append_assoc] at hclear
  have hbehind : ∀ t ∈ (ots ++ (us ++ rest)).head?, (Form.operand o).Allows t.value := by
    intro t ht
    obtain ⟨o, ho⟩ := joins_starts hop t (mem_head_append (joins_ne_nil hop) ht)
    simp [Form.Allows, ho]
  exact join_read hop (hp.spelled.ne_nil id)
    (h.read n _ hclear.left (startOf_append (joins_ne_nil hop)) hbehind)
    (hp.read n rest hclear.right.behind.behind hnext hrest)

theorem signed {op : PrefixOp} {s : Symbol} (hm : m.value = .symbol s) (hs : PrefixOp.ofSymbol? s = some op)
    (h : Reads next ts (.operand o)) : Reads next (m :: ts) (.operand (.signed ⟨op, m.span⟩ o)) := by
  refine ⟨.signed hm hs h.spelled, fun n rest hclear hnext hrest hlen => ?_⟩
  rw [List.cons_append, List.length_cons] at hlen
  rw [List.cons_append] at hclear ⊢
  rw [run_operand_signed hm hs, h.read n rest hclear.tail hnext hrest (by omega)]
  rfl

/-- Nothing behind an operand is an index, so that the indexes read with its base are all. -/
theorem unsigned (h : Reads next ts (.indexed o)) : Reads next ts (.operand o) := by
  refine ⟨.unsigned h.spelled, fun n rest hclear hnext hrest hlen => ?_⟩
  obtain ⟨base, indexes, mid, h₁, rfl, hmany⟩ :=
    h.read n rest hclear hnext (fun t ht => (hrest t ht).1) hlen
  have hindexes := hmany [] rest (run_many_stop (index_missing fun t ht => (hrest t ht).2))
  rw [List.append_nil] at hindexes
  refine run_operand_unsigned (no_prefixOp (o := base) fun t ht => ?_) h₁ hindexes
  exact spells_start h.spelled t (mem_head_append (h.spelled.ne_nil id) ht)

theorem base (h : Reads next ts (.primary o)) : Reads next ts (.indexed o) := by
  refine ⟨.base h.spelled, fun n rest hclear hnext hrest hlen => ?_⟩
  exact ⟨o, [], rest, h.read n rest hclear hnext hrest hlen, rfl, fun more left hmore => hmore⟩

theorem index (h : Reads l.span.start ts (.indexed o)) (hl : l.value = .symbol (.opening .square))
    (hp : Reads e.span.start us (.phrase false p)) (he : e.value = .symbol (.closing .square)) :
    Reads next (ts ++ l :: (us ++ [e])) (.indexed (.index o p e.span.stop)) := by
  refine ⟨.index h.spelled hl hp.spelled he, fun n rest hclear _ _ => ?_⟩
  simp only [List.append_assoc, List.cons_append, List.nil_append] at hclear
  have hbase := h.read n _ hclear.left rfl (by simp [Form.Allows, hl])
  exact indexed_read hl he (h.spelled.ne_nil id) hbase fun hlen =>
    hp.before (.inl ⟨_, he⟩) hclear.right.behind.tail hlen

theorem atom {a : Atom} (hm : m.value = .atom a) : Reads next [m] (.primary (.atom ⟨a, m.span⟩)) := by
  refine ⟨.atom hm, fun n rest hclear _ hrest hlen => atom_read hm ?_ hrest⟩
  cases a with
  | name text =>
    by_contra hliteral
    exact hclear [] m rest text rfl hm (List.mem_singleton_self _) ⟨n, hlen, hliteral⟩
  | _ => exact literal_missing hm (by simp)

theorem group (hl : l.value = .symbol (.opening .round)) (h : Reads e.span.start ts (.phrase false p))
    (he : e.value = .symbol (.closing .round)) :
    Reads next (l :: (ts ++ [e])) (.primary (.group (l.span.cover e.span) p)) := by
  refine ⟨.group hl h.spelled he, fun n rest hclear _ _ hlen => ?_⟩
  simp only [List.append_assoc, List.cons_append, List.nil_append] at hclear hlen
  rw [List.length_cons] at hlen
  have hphrase := h.before (.inl ⟨_, he⟩) hclear.tail (n := n) (by omega)
  simpa using group_read hl he hphrase

theorem call {ps : List Phrase} {text : List Char} (hm : m.value = .atom (.name text))
    (hl : l.value = .symbol (.opening .round)) (h : Reads e.span.start ts (.phrases ps))
    (he : e.value = .symbol (.closing .round)) :
    Reads next (m :: l :: (ts ++ [e])) (.primary (.call (m.span.cover e.span) text ps)) := by
  refine ⟨.call hm hl h.spelled he, fun n rest hclear _ _ hlen => ?_⟩
  simp only [List.append_assoc, List.cons_append, List.nil_append] at hclear hlen
  rw [List.length_cons, List.length_cons] at hlen
  obtain ⟨found, hfound, rfl⟩ :=
    h.read n (e :: rest) hclear.tail.tail rfl (by simp [Form.Allows, he]) (by omega)
  simpa using call_read hm hl he hfound

theorem composite {es : List Element} (h : Reads l.span.start ts (.type t)) (hc : t.IsComposite)
    (hl : l.value = .symbol (.opening .curly)) (hes : Reads e.span.start us (.elements es))
    (he : e.value = .symbol (.closing .curly)) :
    Reads next (ts ++ l :: (us ++ [e])) (.primary (.composite ⟨startOf ts, e.span.stop⟩ t es)) := by
  refine ⟨.composite h.spelled hc hl hes.spelled he, fun n rest hclear _ _ hlen => ?_⟩
  simp only [List.append_assoc, List.cons_append, List.nil_append] at hclear hlen
  have htype := h.read n (l :: (us ++ e :: rest)) hclear.left rfl (by simp [Form.Allows, hl])
  have helements := hes.read n (e :: rest) hclear.right.behind.tail rfl (by simp [Form.Allows, he])
  have hliteral := literal_of_parts (h.spelled.ne_nil id) hc hl he htype helements hlen
  simp [Level.primary, run_orElse, hliteral]

theorem noPhrase : Reads next [] (.phrases []) := by
  refine ⟨.noPhrase, fun n rest _ _ hrest _ => ⟨none, optional_list_none ?_, rfl⟩⟩
  refine run_eq_none (level_sound n).1 (fun _ h => h) ?_
  exact fun t ht p => endsPhrase_starts_none (.inl (hrest t ht)) false p

theorem onePhrase (h : Reads next ts (.phrase false p)) : Reads next ts (.phrases [p]) := by
  refine ⟨.onePhrase h.spelled, fun n rest hclear hnext hrest hlen => ?_⟩
  have hphrase := phrase_read (h.spelled.ne_nil id) hlen fun m =>
    h.read m rest hclear.left hnext fun t ht => .inl (hrest t ht)
  refine ⟨_, optional_list_one hphrase fun t ht hcomma => ?_, rfl⟩
  obtain ⟨b, hb⟩ := hrest t ht
  cases hb.symm.trans hcomma

theorem morePhrases {ps : List Phrase} (h : Reads c.span.start ts (.phrase false p))
    (hc : c.value = .symbol .comma) (hs : Reads next us (.phrases ps)) :
    Reads next (ts ++ c :: us) (.phrases (p :: ps)) := by
  refine ⟨.morePhrases h.spelled hc hs.spelled, fun n rest hclear hnext hrest hlen => ?_⟩
  simp only [List.append_assoc, List.cons_append] at hclear hlen
  have hphrase := h.before (.inr (.inl hc)) hclear.left hlen
  rw [List.length_append, List.length_cons] at hlen
  obtain ⟨found, hfound, rfl⟩ := hs.read n rest hclear.right.behind.tail hnext hrest (by omega)
  have hadv := advances_of_follows (level_sound n).1 fun _ h => h
  exact ⟨_, by simpa using optional_list_more hadv hc hphrase hfound, rfl⟩

theorem plain (h : Reads next ts (.phrase false p)) : Reads next ts (.element (.plain p)) := by
  refine ⟨.plain h.spelled, fun n rest hclear hnext hrest hlen => ?_⟩
  exact plain_element_read (phrase_read (h.spelled.ne_nil id) hlen fun m =>
    h.read m rest hclear hnext fun t ht => (hrest t ht).1) fun t ht => (hrest t ht).2

theorem keyed (hk : Reads c.span.start ts (.phrase false k)) (hc : c.value = .symbol .colon)
    (hv : Reads next us (.phrase false v)) :
    Reads next (ts ++ c :: us) (.element (.keyed ⟨startOf ts, v.stop⟩ k v)) := by
  refine ⟨.keyed hk.spelled hc hv.spelled, fun n rest hclear hnext hrest hlen => ?_⟩
  simp only [List.append_assoc, List.cons_append] at hclear hlen
  have hkey := hk.before (.inr (.inr (.inl hc))) hclear.left hlen
  rw [List.length_append, List.length_cons] at hlen
  have hvalue : (level n).phrase.run (us ++ rest) = some (v, rest) :=
    phrase_read (hv.spelled.ne_nil id) (by omega) fun m =>
      hv.read m _ hclear.right.behind.tail hnext fun t ht => (hrest t ht).1
  simpa [startOf_append (hk.spelled.ne_nil id)] using keyed_element_read hc hkey hvalue

theorem noElement : Reads next [] (.elements []) := by
  refine ⟨.noElement, fun n rest _ _ hrest _ => ⟨none, optional_list_none ?_, rfl⟩⟩
  refine run_eq_none (element_sound (level_sound n).1) (fun _ h => h) ?_
  exact fun t ht e => endsPhrase_starts_none (.inl (hrest t ht)) false
    (.last (.atom ⟨.raw [], ⟨0, 0⟩⟩) 0)

theorem oneElement {a : Element} (h : Reads next ts (.element a)) : Reads next ts (.elements [a]) := by
  refine ⟨.oneElement h.spelled, fun n rest hclear hnext hrest hlen => ?_⟩
  have hends : ∀ t ∈ rest.head?, (Form.element a).Allows t.value := by
    intro t ht
    obtain ⟨b, hb⟩ := hrest t ht
    exact ⟨.inl ⟨b, hb⟩, fun hcolon => by cases hb.symm.trans hcolon⟩
  refine ⟨_, optional_list_one (h.read n rest hclear.left hnext hends hlen) fun t ht hcomma => ?_, rfl⟩
  obtain ⟨b, hb⟩ := hrest t ht
  cases hb.symm.trans hcomma

theorem moreElements {a : Element} {es : List Element} (h : Reads c.span.start ts (.element a))
    (hc : c.value = .symbol .comma) (hs : Reads next us (.elements es)) :
    Reads next (ts ++ c :: us) (.elements (a :: es)) := by
  refine ⟨.moreElements h.spelled hc hs.spelled, fun n rest hclear hnext hrest hlen => ?_⟩
  simp only [List.append_assoc, List.cons_append] at hclear hlen
  have helement := h.read n (c :: (us ++ rest)) hclear.left rfl
    (by simp [Form.Allows, Lexeme.EndsPhrase, hc]) hlen
  rw [List.length_append, List.length_cons] at hlen
  obtain ⟨found, hfound, rfl⟩ := hs.read n rest hclear.right.behind.tail hnext hrest (by omega)
  have hadv := advances_of_follows (element_sound (level_sound n).1) fun _ h => h
  exact ⟨_, by simpa using optional_list_more hadv hc helement hfound, rfl⟩

theorem mapType (hm : m.value = .atom (.name "map".toList)) (hl : l.value = .symbol (.opening .square))
    (hk : Reads e.span.start ts (.type t)) (he : e.value = .symbol (.closing .square))
    (hv : Reads next us (.type u)) :
    Reads next (m :: l :: (ts ++ e :: us)) (.type (.map (m.span.cover u.span) t u)) := by
  refine ⟨.mapType hm hl hk.spelled he hv.spelled, fun n rest hclear hnext hrest => ?_⟩
  simp only [List.append_assoc, List.cons_append] at hclear
  refine compositeType_read (by simp) fun n hlen => ?_
  simp only [List.append_assoc, List.cons_append, List.length_cons] at hlen
  have hkey := (hk.read n (e :: (us ++ rest)) hclear.tail.tail.left rfl (by simp [Form.Allows, he])).1
    (by omega)
  rw [List.length_append, List.length_cons] at hlen
  have hvalue := (hv.read n rest hclear.tail.tail.right.behind.tail hnext hrest).1 (by omega)
  simpa using mapType_read hm hl he hkey hvalue

theorem sliceType (hl : l.value = .symbol (.opening .square)) (he : e.value = .symbol (.closing .square))
    (h : Reads next ts (.type t)) : Reads next (l :: e :: ts) (.type (.slice (l.span.cover t.span) t)) := by
  refine ⟨.sliceType hl he h.spelled, fun n rest hclear hnext hrest => ?_⟩
  refine compositeType_read (by simp) fun n hlen => ?_
  simp only [List.cons_append, List.length_cons] at hlen
  exact sliceType_read hl he ((h.read n rest hclear.tail.tail hnext hrest).1 (by omega))

theorem arrayType (hl : l.value = .symbol (.opening .square)) (hp : Reads e.span.start ts (.phrase false p))
    (he : e.value = .symbol (.closing .square)) (h : Reads next us (.type t)) :
    Reads next (l :: (ts ++ e :: us)) (.type (.array (l.span.cover t.span) p t)) := by
  refine ⟨.arrayType hl hp.spelled he h.spelled, fun n rest hclear hnext hrest => ?_⟩
  simp only [List.append_assoc, List.cons_append] at hclear
  refine compositeType_read (by simp) fun n hlen => ?_
  simp only [List.append_assoc, List.cons_append, List.length_cons] at hlen
  have hphrase := hp.before (.inl ⟨_, he⟩) hclear.tail.left (n := n) (by omega)
  rw [List.length_append, List.length_cons] at hlen
  have hread := arrayType_read hl he (spells_start hp.spelled) (hp.spelled.ne_nil id) hphrase
    ((h.read n rest hclear.tail.right.behind.tail hnext hrest).1 (by omega))
  simpa using hread

theorem openArrayType (hl : l.value = .symbol (.opening .square)) (hm : m.value = .symbol .ellipsis)
    (he : e.value = .symbol (.closing .square)) (h : Reads next ts (.type t)) :
    Reads next (l :: m :: e :: ts) (.type (.openArray (l.span.cover t.span) t)) := by
  refine ⟨.openArrayType hl hm he h.spelled, fun n rest hclear hnext hrest => ?_⟩
  refine compositeType_read (by simp) fun n hlen => ?_
  simp only [List.cons_append, List.length_cons] at hlen
  exact openArrayType_read hl hm he ((h.read n rest hclear.tail.tail.tail hnext hrest).1 (by omega))

theorem pointerType (hm : m.value = .symbol (.op .mul)) (h : Reads next ts (.type t)) :
    Reads next (m :: ts) (.type (.pointer (m.span.cover t.span) t)) := by
  refine ⟨.pointerType hm h.spelled, fun n rest hclear hnext hrest => ?_⟩
  refine simple_type_read (by simp) id fun n hlen => ?_
  simp only [List.cons_append, List.length_cons] at hlen
  exact pointerType_read hm ((h.read n rest hclear.tail hnext hrest).1 (by omega))

theorem qualifiedType {a b : List Char} (hm : m.value = .atom (.name a)) (hc : c.value = .symbol .dot)
    (he : e.value = .atom (.name b)) (hmc : m.Touches c) (hce : c.Touches e) :
    Reads next [m, c, e] (.type (.qualified (m.span.cover e.span) a b)) :=
  ⟨.qualifiedType hm hc he hmc hce, fun _ _ _ _ _ =>
    simple_type_read (by simp) id fun _ _ => qualifiedType_read hm hc he hmc hce⟩

theorem namedType {text : List Char} (hm : m.value = .atom (.name text)) :
    Reads next [m] (.type (.name m.span text)) :=
  ⟨.namedType hm, fun _ _ _ _ hrest => simple_type_read (by simp) id fun _ _ => namedType_read hm hrest⟩

end Reads

theorem reads_of_spells {next : Nat} {ts : List Token} {f : Form} (h : Spells next ts f) : Reads next ts f := by
  induction h with
  | @last _ _ joined _ _ ih => exact ih.last joined
  | join _ hop _ ih ihr => exact ih.join hop ihr
  | signed ht hs _ ih => exact ih.signed ht hs
  | unsigned _ ih => exact ih.unsigned
  | base _ ih => exact ih.base
  | index _ hl _ hr ihb ihp => exact ihb.index hl ihp hr
  | atom ht => exact .atom ht
  | group hl _ hr ih => exact .group hl ih hr
  | call hf hl _ hr ih => exact .call hf hl ih hr
  | composite _ hc hl _ hr iht ihes => exact iht.composite hc hl ihes hr
  | noPhrase => exact .noPhrase
  | onePhrase _ ih => exact ih.onePhrase
  | morePhrases _ hc _ ih ihs => exact ih.morePhrases hc ihs
  | plain _ ih => exact ih.plain
  | keyed _ hc _ ihk ihv => exact ihk.keyed hc ihv
  | noElement => exact .noElement
  | oneElement _ ih => exact ih.oneElement
  | moreElements _ hc _ ih ihs => exact ih.moreElements hc ihs
  | mapType hw hl _ hr _ ihk ihv => exact .mapType hw hl ihk hr ihv
  | sliceType hl hr _ ih => exact .sliceType hl hr ih
  | arrayType hl _ hr _ ihp ihe => exact .arrayType hl ihp hr ihe
  | openArrayType hl hd hr _ ih => exact .openArrayType hl hd hr ih
  | pointerType hm _ ih => exact .pointerType hm ih
  | qualifiedType ht hd hu htd hdu => exact .qualifiedType ht hd hu htd hdu
  | namedType ht => exact .namedType ht

/-- What the grammar spells is read, whatever stands behind it that may, if its variables are clear. -/
theorem spells_read {next : Nat} {ts : List Token} {f : Form} (h : Spells next ts f) (n : Nat)
    (rest : List Token) (hclear : Clear f.variables (ts ++ rest)) (hnext : startOf rest = next)
    (hrest : ∀ t ∈ rest.head?, f.Allows t.value) : ReadFrom n ts rest f :=
  (reads_of_spells h).read n rest hclear hnext hrest

/-- What is spelled as a composite literal is read as one, whatever stands behind it. -/
theorem literal_read {next n : Nat} {ts rest : List Token} {o : Operand}
    (h : Spells next ts (.primary o)) (ho : o.IsLiteral) (hclear : Clear o.variables (ts ++ rest))
    (hlen : (ts ++ rest).length ≤ n + 1) :
    (composite (level n)).run (ts ++ rest) = some (o, rest) := by
  cases h with
  | @composite _ ts us t es l r ht hc hl hes hr =>
    simp only [List.append_assoc, List.cons_append, List.nil_append] at hclear hlen ⊢
    have htype := spells_read ht n (l :: (us ++ r :: rest)) hclear.left rfl
      (by simp [Form.Allows, hl])
    have helements := spells_read hes n (r :: rest) hclear.right.behind.tail rfl
      (by simp [Form.Allows, hr])
    exact literal_of_parts (ht.ne_nil id) hc hl hr htype helements hlen
  | _ => exact ho.elim

/-- The phrase that the tokens before the mark of the end spell is the phrase of them all, if its
variables are clear. -/
theorem ofTokens_clear {us : List Token} {e : Token} {p : Phrase} (he : e.value = .finish)
    (hclear : Clear p.variables (us ++ [e])) (h : Spells e.span.start us (.phrase false p)) :
    ofTokens? (us ++ [e]) = some p := by
  have hphrase : (level (us ++ [e]).length).phrase.run (us ++ [e]) = some (p, [e]) :=
    phrase_read (h.ne_nil id) (Nat.le_refl _) fun n =>
      spells_read h n [e] hclear rfl (by simp [Form.Allows, Lexeme.EndsPhrase, he])
  have hfinish : (expect [.finish] fun t : Token =>
      if t.value = .finish then some t else none).run [e] = some (e, []) := by
    rw [run_expect_cons, if_pos he]
    rfl
  have hwhole : (whole (us ++ [e])).run (us ++ [e]) = some (p, []) := by
    simp only [whole, run_bind, hphrase, Option.bind_some, hfinish, run_pure]
  rw [ofTokens?, hwhole]
  rfl

/-- Without map types all variables are clear. -/
theorem clear_of_noMapType {ts : List Token} (hmap : NoMapType ts) (vars : List Nat) :
    Clear vars ts := by
  rintro pre t post text rfl ht - ⟨n, -, hliteral⟩
  exact hliteral (composite_missing hmap.behind.rel_head? (by simp [ht]))

/-- Without map types the phrase that the tokens spell is the phrase of them all. -/
theorem ofTokens_complete {us : List Token} {e : Token} {p : Phrase} (he : e.value = .finish)
    (hmap : NoMapType us) (h : Spells e.span.start us (.phrase false p)) :
    ofTokens? (us ++ [e]) = some p := by
  have hmap' : NoMapType (us ++ [e]) := by
    refine hmap.append (List.isChain_singleton e) fun t _ u hu hword => ?_
    obtain rfl := Option.some.inj hu
    simp [he]
  exact ofTokens_clear he (clear_of_noMapType hmap' _) h

end Phrase

end Formula
