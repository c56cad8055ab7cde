import Formula.Compile
import Formula.Proofs.BracketScan
import Formula.Proofs.DepthLimit
import Formula.Proofs.OpenBrackets
import Formula.Proofs.PhraseRows
import Formula.Proofs.Precedence
import Formula.Proofs.RenderedText

namespace Formula

open Formula.Parser

variable {limit : Nat} {e : Expr}

/-- What is built is the expression but for parentheses and places, and not higher than what the
expression is written from is long. -/
def Built.Stands (b : Built) (e : Expr) : Prop :=
  b.expr.bare = e.bare ∧ b.height ≤ e.lexemes.length

structure Operand.Stands (limit : Nat) (o : Operand) (e : Expr) : Prop where
  built : ∃ b, o.build limit = .ok b ∧ b.Stands e
  signs : o.signCount < e.lexemes.length
  apart : ∀ text span, o = .atom ⟨.int text, span⟩ → negatedInt? text = none

structure Chain.Stands (limit : Nat) (c : Chain (Placed InfixOp) Operand) (e : Expr) : Prop where
  tight : c.Tight fun op => op.value.precedence
  binds : ∀ op ∈ c.operators, e.binding ≤ op.value.precedence
  runs : c.All fun o => runLevels o.signCount ≤ limit
  built : ∃ b, (c.bimap id fun o => o.build limit).fold (Built.join limit) = .ok b ∧ b.Stands e

def Phrase.Stands (limit : Nat) (p : Phrase) (e : Expr) : Prop :=
  ∃ c : Chain (Placed InfixOp) Operand, p.operands = c.toRow ∧ c.Stands limit e

/-- A node over what is built stands for an expression that it equals and is not too high for. -/
theorem Built.stands_above {node : Expr} {below : Nat} (hbare : node.bare = e.bare)
    (hheight : below + 1 ≤ e.lexemes.length) (hlimit : e.lexemes.length ≤ limit) :
    ∃ b, Built.above limit node below = .ok b ∧ b.Stands e := by
  have hfits : ¬ limit < below + 1 := Nat.not_lt.mpr (Nat.le_trans hheight hlimit)
  exact ⟨⟨node, below + 1⟩, if_neg hfits, hbare, hheight⟩

/-- An operand that is built as a node over what is built stands for the expression. -/
theorem Operand.stands_of_above {o : Operand} {node : Expr} {below : Nat}
    (hbuild : o.build limit = Built.above limit node below) (hbare : node.bare = e.bare)
    (hheight : below + 1 ≤ e.lexemes.length) (hlimit : e.lexemes.length ≤ limit)
    (hsigns : o.signCount < e.lexemes.length)
    (hapart : ∀ text span, o = .atom ⟨.int text, span⟩ → negatedInt? text = none) :
    o.Stands limit e := by
  have hnode := Built.stands_above hbare hheight hlimit
  exact ⟨hbuild ▸ hnode, hsigns, hapart⟩

/-- The expression of a phrase that stands for it: precedence makes the tree of the row again. -/
theorem Phrase.Stands.assembled {p : Phrase} (h : p.Stands limit e) :
    ∃ b, p.assemble limit (p.row limit) = .ok b ∧ b.Stands e := by
  obtain ⟨c, hrow, hc⟩ := h
  obtain ⟨b, hb, hstands⟩ := hc.built
  have htree : p.tree = c := by rw [tree, hrow, Chain.ofRow_toRow hc.tight]
  have hruns : p.runFault? limit = none := by
    have hall := hc.runs
    rw [← htree, tree, Chain.all_ofRow] at hall
    exact (runFault_eq_none p).mpr hall
  refine ⟨b, ?_, hstands⟩
  rw [assemble, hruns]
  simp only [row_tree, htree, hb]

/-- An operand alone is a tree. -/
theorem Operand.Stands.leaf {o : Operand} (h : o.Stands limit e) (hlimit : e.lexemes.length ≤ limit) :
    Chain.Stands limit (.leaf o) e := by
  have hsigns := h.signs
  have hruns : runLevels o.signCount ≤ limit := by
    rw [runLevels]
    split_ifs <;> omega
  exact ⟨trivial, fun _ hop => (nomatch hop), hruns, h.built⟩

theorem Built.join_sign {m : InfixOp.Meaning} {span : Span} (l r : Built) :
    Built.join limit l ⟨m.sign, span⟩ r =
      Built.above limit (.binary (l.expr.span.cover r.expr.span) m l.expr r.expr)
        (Built.highest [l, r]) := by
  rw [Built.join, m.sign_meaning]
  cases m <;> rfl

/-- Trees that bind tightly enough are joined by an operator. -/
theorem Chain.Stands.node {l r : Expr} {m : InfixOp.Meaning} {span : Span}
    {cl cr : Chain (Placed InfixOp) Operand} (hl : cl.Stands limit l) (hr : cr.Stands limit r)
    (hleft : m.binding ≤ l.binding) (hright : m.binding < r.binding) (place : Span)
    (hlimit : (Expr.binary place m l r).lexemes.length ≤ limit) :
    (Chain.node cl ⟨m.sign, span⟩ cr).Stands limit (.binary place m l r) := by
  have hlops : ∀ op ∈ cl.operators, m.sign.precedence ≤ op.value.precedence :=
    fun op hop => m.sign_precedence ▸ Nat.le_trans hleft (hl.binds op hop)
  have hrops : ∀ op ∈ cr.operators, m.sign.precedence < op.value.precedence :=
    fun op hop => m.sign_precedence ▸ Nat.lt_of_lt_of_le hright (hr.binds op hop)
  obtain ⟨bl, hbl, hlbare, hlheight⟩ := hl.built
  obtain ⟨br, hbr, hrbare, hrheight⟩ := hr.built
  have hhighest : Built.highest [bl, br] + 1 ≤ (Expr.binary place m l r).lexemes.length := by
    rw [Built.highest_pair, Expr.lexemes_binary, List.length_append, List.length_cons]
    omega
  constructor
  · exact ⟨hl.tight, hr.tight, hlops, hrops⟩
  · intro op hop
    rw [Expr.binding_binary, ← m.sign_precedence]
    rw [Chain.operators, Chain.toRow, List.map_append, List.map_cons] at hop
    rcases List.mem_append.mp hop with hop | hop
    · exact hlops op hop
    · rcases List.mem_cons.mp hop with rfl | hop
      · exact Nat.le_refl _
      · exact Nat.le_of_lt (hrops op hop)
  · exact ⟨hl.runs, hr.runs⟩
  · have hbare : (Expr.binary (bl.expr.span.cover br.expr.span) m bl.expr br.expr).bare =
        (Expr.binary place m l r).bare := by
      rw [Expr.bare_binary, Expr.bare_binary, hlbare, hrbare]
    rw [Chain.bimap, Chain.fold, hbl]
    simp only [hbr]
    exact Built.join_sign bl br ▸ Built.stands_above hbare hhighest hlimit

/-- Tokens that say what an expression is written from spell what stands for it: a phrase, and an
operand of each kind that the expression binds tightly enough for. -/
structure Expr.Read (limit : Nat) (e : Expr) (ts : List Token) (next : Nat) : Prop where
  primary : 8 ≤ e.binding → ∃ o, Spells next ts (.primary o) ∧ o.Stands limit e
  indexed : 7 ≤ e.binding → ∃ o, Spells next ts (.indexed o) ∧ o.Stands limit e
  operand : 6 ≤ e.binding → ∃ o, Spells next ts (.operand o) ∧ o.Stands limit e
  phrase : ∀ joined, ∃ p, Spells next ts (.phrase joined p) ∧ p.Stands limit e

def Expr.Reads (limit : Nat) (e : Expr) : Prop :=
  e.lexemes.length ≤ limit → ∀ ts next, ts.map Placed.value = e.lexemes → e.Read limit ts next

/-- The tokens on both sides of one that stands between two rows of lexemes. -/
theorem tokens_around {ts : List Token} {as bs : List Lexeme} {l : Lexeme}
    (h : ts.map Placed.value = as ++ l :: bs) : ∃ us t vs, ts = us ++ t :: vs ∧
      us.map Placed.value = as ∧ t.value = l ∧ vs.map Placed.value = bs := by
  obtain ⟨us, ws, rfl, hus, hws⟩ := List.map_eq_append_iff.mp h
  obtain ⟨t, vs, rfl, ht, hvs⟩ := List.map_eq_cons_iff.mp hws
  exact ⟨us, t, vs, rfl, hus, ht, hvs⟩

/-- The tokens of a row of lexemes and the ones before and behind it. -/
theorem tokens_between {ts : List Token} {ls : List Lexeme} {l r : Lexeme}
    (h : ts.map Placed.value = l :: (ls ++ [r])) : ∃ t us u, ts = t :: (us ++ [u]) ∧
      t.value = l ∧ us.map Placed.value = ls ∧ u.value = r := by
  obtain ⟨t, ws, rfl, ht, hws⟩ := List.map_eq_cons_iff.mp h
  obtain ⟨us, u, vs, rfl, hus, hu, hvs⟩ := tokens_around hws
  obtain rfl := List.map_eq_nil_iff.mp hvs
  exact ⟨t, us, u, rfl, ht, hus, hu⟩

namespace Expr

section

variable {ts : List Token} {next : Nat}

theorem phrase_of_operand (hlimit : e.lexemes.length ≤ limit)
    (h : ∃ o, Spells next ts (.operand o) ∧ o.Stands limit e) (joined : Bool) :
    ∃ p, Spells next ts (.phrase joined p) ∧ p.Stands limit e := by
  obtain ⟨o, ho, hstands⟩ := h
  exact ⟨_, .last ho, .leaf o, rfl, hstands.leaf hlimit⟩

theorem read_of_operand (hb : e.binding < 7) (hlimit : e.lexemes.length ≤ limit)
    (h : ∃ o, Spells next ts (.operand o) ∧ o.Stands limit e) : e.Read limit ts next :=
  ⟨fun h8 => by omega, fun h7 => by omega, fun _ => h, phrase_of_operand hlimit h⟩

theorem read_of_indexed (hb : e.binding < 8) (hlimit : e.lexemes.length ≤ limit)
    (h : ∃ o, Spells next ts (.indexed o) ∧ o.Stands limit e) : e.Read limit ts next := by
  obtain ⟨o, ho, hstands⟩ := h
  exact ⟨fun h8 => by omega, fun _ => ⟨o, ho, hstands⟩, fun _ => ⟨o, .unsigned ho, hstands⟩,
    phrase_of_operand hlimit ⟨o, .unsigned ho, hstands⟩⟩

theorem read_of_primary (hlimit : e.lexemes.length ≤ limit)
    (h : ∃ o, Spells next ts (.primary o) ∧ o.Stands limit e) : e.Read limit ts next := by
  obtain ⟨o, ho, hstands⟩ := h
  exact ⟨fun _ => ⟨o, ho, hstands⟩, fun _ => ⟨o, .base ho, hstands⟩,
    fun _ => ⟨o, .unsigned (.base ho), hstands⟩,
    phrase_of_operand hlimit ⟨o, .unsigned (.base ho), hstands⟩⟩

end

/-- A name or a literal that is built to the expression is all that it is written from. -/
theorem reads_atom {a : Atom} (he : e.lexemes = [.atom a])
    (hbuilt : ∀ span, 1 ≤ limit → ∃ b, Built.atom limit ⟨a, span⟩ = .ok b ∧ b.Stands e)
    (hleast : ∀ text, a = .int text → negatedInt? text = none) : e.Reads limit := by
  intro hlimit ts next hts
  have hone : e.lexemes.length = 1 := by rw [he, List.length_singleton]
  obtain ⟨t, rfl, ht⟩ := List.map_eq_singleton_iff.mp (hts.trans he)
  refine read_of_primary hlimit ⟨_, .atom ht, ?_, ?_, ?_⟩
  · exact hbuilt t.span (hone ▸ hlimit)
  · rw [hone]
    exact Nat.zero_lt_one
  · rintro text span heq
    injection heq with heq
    exact hleast text (congrArg Placed.value heq)

theorem reads_ident (span : Span) (name : String) : (ident span name).Reads limit := by
  refine reads_atom rfl (fun place hone => ?_) fun _ h => nomatch h
  have hbare : (ident place (String.ofList name.toList)).bare = (ident span name).bare := by
    rw [String.ofList_toList]
    rfl
  exact Built.stands_above hbare (Nat.le_refl 1) hone

theorem reads_int (span : Span) {n : Int64} (h : 0 ≤ n) :
    (constant span (.int n)).Reads limit := by
  obtain ⟨hvalue, hleast⟩ := decimal_value h
  refine reads_atom rfl (fun place hone => ?_) fun text ht => ?_
  · simp only [Built.atom, Atom.value?, hvalue]
    exact Built.stands_above rfl (Nat.le_refl 1) hone
  · injection ht with ht
    exact ht ▸ hleast

theorem reads_str (span : Span) (s : String) : (constant span (.str s)).Reads limit := by
  refine reads_atom rfl (fun place hone => ?_) fun _ h => nomatch h
  simp only [Built.atom, Atom.value?, decode_escaped, String.ofList_toList]
  exact Built.stands_above rfl (Nat.le_refl 1) hone

def prefixed : UnaryOp → PrefixOp
  | .neg => .neg
  | .not => .not

theorem ofSymbol_sign (o : UnaryOp) : PrefixOp.ofSymbol? o.sign = some (prefixed o) := by
  cases o <;> rfl

theorem sign_built {o : UnaryOp} {operand : Operand} {b : Built} {span : Span}
    (h : ∀ text place, operand = .atom ⟨.int text, place⟩ → negatedInt? text = none) :
    Built.sign limit ⟨prefixed o, span⟩ operand b =
      Built.above limit (.unary (span.cover b.expr.span) o b.expr) b.height := by
  have hmeaning : (prefixed o).meaning? = some o := by cases o <;> rfl
  rw [Built.sign, hmeaning]
  simp only
  split
  · next n hn =>
    split at hn
    · rw [h _ _ rfl] at hn
      cases hn
    · cases hn
  · rfl

theorem reads_unary (span : Span) (o : UnaryOp) (hb : 6 ≤ e.binding) (he : e.Reads limit) :
    (unary span o e).Reads limit := by
  intro hlimit ts next hts
  have hlimit' := hlimit
  rw [lexemes_unary, List.length_cons] at hlimit'
  obtain ⟨t, us, rfl, ht, hus⟩ := List.map_eq_cons_iff.mp hts
  obtain ⟨operand, hspells, hstands⟩ := (he (by omega) us next hus).operand hb
  obtain ⟨b, hbuild, hbare, hheight⟩ := hstands.built
  have hbuilt : (Operand.signed ⟨prefixed o, t.span⟩ operand).build limit =
      Built.above limit (unary (t.span.cover b.expr.span) o b.expr) b.height := by
    simp only [Operand.build, hbuild]
    exact sign_built hstands.apart
  have hnode : (unary (t.span.cover b.expr.span) o b.expr).bare = (unary span o e).bare := by
    rw [bare, bare, hbare]
  exact read_of_operand (Nat.lt_succ_self 6) hlimit ⟨_, .signed ht (ofSymbol_sign o) hspells,
    Operand.stands_of_above hbuilt hnode (Nat.succ_le_succ hheight) hlimit
      (Nat.succ_lt_succ hstands.signs) fun _ _ h => by cases h⟩

theorem reads_binary {l r : Expr} {m : InfixOp.Meaning} (span : Span) (hleft : m.binding ≤ l.binding)
    (hright : m.binding < r.binding) (hl : l.Reads limit) (hr : r.Reads limit) :
    (binary span m l r).Reads limit := by
  intro hlimit ts next hts
  have hlimit' := hlimit
  have hbinding := m.binding_le
  rw [lexemes_binary, List.length_append, List.length_cons] at hlimit'
  rw [lexemes_binary] at hts
  obtain ⟨us, t, ws, rfl, hus, ht, hws⟩ := tokens_around hts
  refine ⟨fun h => ?_, fun h => ?_, fun h => ?_, fun joined => ?_⟩
  iterate 3
    rw [binding_binary] at h
    omega
  obtain ⟨p, hp, cl, hrow, hcl⟩ := (hl (by omega) us t.span.start hus).phrase joined
  obtain ⟨q, hq, cr, hrow', hcr⟩ := (hr (by omega) ws next hws).phrase true
  have hop : Joins [t] ws ⟨m.sign, t.span⟩ := .one ht fun hband => absurd hband m.sign_ne.1
  refine ⟨_, Phrase.spells_append hop hq p us joined hp, .node cl ⟨m.sign, t.span⟩ cr, ?_,
    hcl.node hcr hleft hright span hlimit⟩
  rw [Phrase.operands_append, hrow, hrow', Chain.toRow]

theorem reads_group (span : Span) (he : e.Reads limit) : (group span e).Reads limit := by
  intro hlimit ts next hts
  have hlength : (group span e).lexemes.length = e.lexemes.length + 2 := by
    rw [lexemes_group, List.length_cons, List.length_append, List.length_singleton]
  rw [lexemes_group] at hts
  obtain ⟨l, us, r, rfl, hl, hus, hr⟩ := tokens_between hts
  obtain ⟨p, hp, hstands⟩ := (he (by omega) us r.span.start hus).phrase false
  obtain ⟨b, hbuild, hbare, hheight⟩ := hstands.assembled
  have hbuilt : (Operand.group (l.span.cover r.span) p).build limit =
      Built.above limit (group (l.span.cover r.span) b.expr) b.height := by
    simp only [Operand.build, hbuild]
    rfl
  exact read_of_primary hlimit ⟨_, .group hl hp hr,
    Operand.stands_of_above hbuilt hbare (by omega) hlimit (hlength ▸ Nat.succ_pos _)
      fun _ _ h => by cases h⟩

theorem reads_enclosed (he : e.Reads limit) (least : Nat) : (e.enclosed least).Reads limit := by
  rw [enclosed]
  split_ifs
  · exact reads_group _ he
  · exact he

theorem reads_index {base position : Expr} (span : Span) (hb : 7 ≤ base.binding)
    (hbase : base.Reads limit) (hposition : position.Reads limit)
    (hindex : Built.Indexable base.bare position.bare) :
    (index span base position).Reads limit := by
  intro hlimit ts next hts
  have hlength : (index span base position).lexemes.length =
      base.lexemes.length + (position.lexemes.length + 2) := by
    rw [lexemes_index, List.length_append, List.length_cons, List.length_append,
      List.length_singleton]
  rw [lexemes_index] at hts
  obtain ⟨us, vs, rfl, hus, hvs⟩ := List.map_eq_append_iff.mp hts
  obtain ⟨l, ws, r, rfl, hl, hws, hr⟩ := tokens_between hvs
  obtain ⟨o, ho, hstands⟩ := (hbase (by omega) us l.span.start hus).indexed hb
  obtain ⟨p, hp, hpstands⟩ := (hposition (by omega) ws r.span.start hws).phrase false
  obtain ⟨b, hbuild, hbare, hheight⟩ := hstands.built
  obtain ⟨b', hbuild', hbare', hheight'⟩ := hpstands.assembled
  have hhighest := Built.highest_pair b b'
  have hfault : Built.indexFault? ⟨b.expr.span.start, r.span.stop⟩ b.expr b'.expr = none := by
    rw [Built.indexFault_eq_none, hbare, hbare']
    exact hindex
  have hbuilt : (Operand.index o p r.span.stop).build limit = Built.above limit
      (index ⟨b.expr.span.start, r.span.stop⟩ b.expr b'.expr) (Built.highest [b, b']) := by
    have hjoined : Built.index limit b b' r.span.stop = Built.above limit
        (index ⟨b.expr.span.start, r.span.stop⟩ b.expr b'.expr) (Built.highest [b, b']) := by
      simp only [Built.index, hfault]
    simp only [Operand.build, hbuild, hbuild']
    exact hjoined
  have hnode : (index ⟨b.expr.span.start, r.span.stop⟩ b.expr b'.expr).bare =
      (index span base position).bare := by
    rw [bare, bare, hbare, hbare']
  exact read_of_indexed (Nat.lt_succ_self 7) hlimit ⟨_, .index ho hl hp hr,
    Operand.stands_of_above hbuilt hnode (by omega) hlimit (hlength ▸ Nat.succ_pos _)
      fun _ _ h => by cases h⟩

/-- Expressions with commas between them are read one by one. -/
theorem spells_listing {es : List Expr} (h : ∀ e ∈ es, e.Reads limit)
    (hlimit : (listing es).length ≤ limit) (ts : List Token) (next : Nat)
    (hts : ts.map Placed.value = listing es) :
    ∃ ps, Spells next ts (.phrases ps) ∧ ∃ bs, Phrase.buildAll limit ps = .ok bs ∧
      bares (bs.map (·.expr)) = bares es ∧ Built.highest bs ≤ (listing es).length := by
  induction es generalizing ts with
  | nil =>
    obtain rfl := List.map_eq_nil_iff.mp hts
    exact ⟨[], .noPhrase, [], rfl, rfl, Nat.le_refl 0⟩
  | cons e es ih =>
    obtain ⟨he, hes⟩ := List.forall_mem_cons.mp h
    rcases eq_or_ne es [] with rfl | hne
    · obtain ⟨p, hp, hstands⟩ := (he hlimit ts next hts).phrase false
      obtain ⟨b, hbuild, hbare, hheight⟩ := hstands.assembled
      refine ⟨[p], .onePhrase hp, [b], ?_, ?_, ?_⟩
      · simp only [Phrase.buildAll, hbuild]
        rfl
      · simp only [List.map_cons, List.map_nil, bares, hbare]
      · rw [Built.highest_cons]
        exact Nat.max_le.mpr ⟨hheight, Nat.zero_le _⟩
    · rw [listing_cons e hne] at hts hlimit ⊢
      rw [List.length_append, List.length_cons] at hlimit ⊢
      obtain ⟨us, c, ws, rfl, hus, hc, hws⟩ := tokens_around hts
      obtain ⟨p, hp, hstands⟩ := (he (by omega) us c.span.start hus).phrase false
      obtain ⟨b, hbuild, hbare, hheight⟩ := hstands.assembled
      obtain ⟨ps, hps, bs, hbuilds, hbares, hhighest⟩ := ih hes (by omega) ws hws
      refine ⟨p :: ps, .morePhrases hp hc hps, b :: bs, ?_, ?_, ?_⟩
      · simp only [Phrase.buildAll, hbuild, hbuilds]
        rfl
      · simp only [List.map_cons, bares, hbare, hbares]
      · rw [Built.highest_cons]
        omega

/-- Phrases with commas between them are elements without keys. -/
theorem spells_elements {next : Nat} : ∀ {ps : List Phrase} {ts : List Token},
    Spells next ts (.phrases ps) → Spells next ts (.elements (ps.map .plain))
  | [], _, h => by
    cases h
    exact .noElement
  | p :: ps, _, h => by
    cases h with
    | onePhrase h => exact .oneElement (.plain h)
    | morePhrases h hc hs => exact .moreElements (.plain h) hc (spells_elements hs)

theorem build_elements (ps : List Phrase) :
    Element.buildAll limit (ps.map .plain) = Phrase.buildAll limit ps := by
  induction ps with
  | nil => rfl
  | cons p ps ih => simp only [List.map_cons, Element.buildAll, Element.build, ih, Phrase.buildAll]

theorem reads_call (span : Span) (name : String) {args : List Expr}
    (h : ∀ a ∈ args, a.Reads limit) : (call span name args).Reads limit := by
  intro hlimit ts next hts
  have hlength : (call span name args).lexemes.length = (listing args).length + 3 := by
    rw [lexemes_call, List.length_cons, List.length_cons, List.length_append, List.length_singleton]
  rw [lexemes_call] at hts
  obtain ⟨f, us, rfl, hf, hus⟩ := List.map_eq_cons_iff.mp hts
  obtain ⟨l, vs, r, rfl, hl, hvs, hr⟩ := tokens_between hus
  obtain ⟨ps, hps, bs, hbuilds, hbares, hhighest⟩ :=
    spells_listing h (by omega) vs r.span.start hvs
  have hbuilt : (Operand.call (f.span.cover r.span) name.toList ps).build limit =
      Built.above limit (call (f.span.cover r.span) name (bs.map (·.expr))) (Built.highest bs) := by
    simp only [Operand.build, hbuilds, String.ofList_toList]
    rfl
  have hnode : (call (f.span.cover r.span) name (bs.map (·.expr))).bare =
      (call span name args).bare := by
    rw [bare, bare, hbares]
  exact read_of_primary hlimit ⟨_, .call hf hl hps hr,
    Operand.stands_of_above hbuilt hnode (by omega) hlimit (hlength ▸ Nat.succ_pos _)
      fun _ _ h => by cases h⟩

theorem reads_composite (span : Span) {es : List Expr} (h : ∀ e ∈ es, e.Reads limit) :
    (composite span es).Reads limit := by
  intro hlimit ts next hts
  have hlength : (composite span es).lexemes.length = (listing es).length + 5 := by
    simp only [lexemes_composite, List.length_cons, List.length_append, List.length_nil]
  rw [lexemes_composite] at hts
  obtain ⟨a, us, rfl, ha, hus⟩ := List.map_eq_cons_iff.mp hts
  obtain ⟨b, vs, rfl, hb, hvs⟩ := List.map_eq_cons_iff.mp hus
  obtain ⟨w, xs, rfl, hw, hxs⟩ := List.map_eq_cons_iff.mp hvs
  obtain ⟨l, ys, r, rfl, hl, hys, hr⟩ := tokens_between hxs
  obtain ⟨ps, hps, bs, hbuilds, hbares, hhighest⟩ :=
    spells_listing h (by omega) ys r.span.start hys
  have htype : Spells l.span.start [a, b, w] (.type (.slice (a.span.cover w.span)
      (.name w.span "lit".toList))) := .sliceType ha hb (.namedType hw)
  have hbuilt : (Operand.composite ⟨a.span.start, r.span.stop⟩
      (.slice (a.span.cover w.span) (.name w.span "lit".toList)) (ps.map .plain)).build limit =
      Built.above limit (composite ⟨a.span.start, r.span.stop⟩ (bs.map (·.expr)))
        (Built.highest bs) := by
    have hfault : Built.typeFault? (.slice (a.span.cover w.span) (.name w.span "lit".toList)) =
        none := rfl
    simp only [Operand.build, hfault, build_elements, hbuilds]
    rfl
  have hnode : (composite ⟨a.span.start, r.span.stop⟩ (bs.map (·.expr))).bare =
      (composite span es).bare := by
    rw [bare, bare, hbares]
  exact read_of_primary hlimit ⟨_, .composite htype trivial hl (spells_elements hps) hr,
    Operand.stands_of_above hbuilt hnode (by omega) hlimit (hlength ▸ Nat.succ_pos _)
      fun _ _ h => by cases h⟩

/-- Every tree that is written is read, once its operands stand in parentheses where they must. -/
theorem reads_parenthesized (e : Expr) (he : e.Writable) : e.parenthesized.Reads limit := by
  induction e using tree_induction with
  | constant span value =>
    cases value with
    | int n => exact reads_int span he
    | str s => exact reads_str span s
    | _ => cases he
  | ident span name => exact reads_ident span name
  | unary span o e ih =>
    exact reads_unary span o (le_binding_enclosed (by decide) _) (reads_enclosed (ih he) 6)
  | binary span m l r ihl ihr =>
    obtain ⟨hl, hr⟩ := (writable_binary span m l r).mp he
    have hbinding := m.binding_le
    rw [parenthesized_binary]
    exact reads_binary span (le_binding_enclosed (by omega) _) (le_binding_enclosed (by omega) _)
      (reads_enclosed (ihl hl) _) (reads_enclosed (ihr hr) _)
  | index span base position ihb ihp =>
    obtain ⟨hb, hp, hfault⟩ := he
    refine reads_index span (le_binding_enclosed (by decide) _) (reads_enclosed (ihb hb) 7) (ihp hp) ?_
    rw [bare_enclosed, bare_parenthesized, bare_parenthesized]
    exact (Built.indexFault_eq_none span base position).mp hfault
  | call span name args ih =>
    have hargs := (allWritable_iff args).mp he.2
    exact reads_call span name (forall_allParenthesized fun a ha => ih a ha (hargs a ha))
  | composite span es ih =>
    have hes := (allWritable_iff es).mp he
    exact reads_composite span (forall_allParenthesized fun e he => ih e he (hes e he))
  | group span inner ih => exact reads_group span (ih he)

end Expr

/-- Compiling an expression that is written out gives it back, but for parentheses and places, under
every limit that is not below the length of the text. -/
theorem compile_rendered {e : Expr} {limit : Nat} (he : e.Writable)
    (hlimit : e.rendered.length ≤ limit) :
    ∃ e', compile limit e.rendered = .ok e' ∧ e'.bare = e.bare := by
  obtain ⟨source, hsource⟩ : ∃ source, spaced e.parenthesized.words = source := ⟨_, rfl⟩
  have htext : e.rendered.toList = source := by rw [Expr.rendered, hsource, String.toList_ofList]
  have hlength : source.length ≤ limit := by
    rw [Expr.rendered, hsource, String.length_ofList] at hlimit
    exact hlimit
  have hsaid : said source = e.parenthesized.lexemes ++ [.finish] :=
    hsource ▸ said_spaced (e.readable_words he)
  have hcount := length_said_le source
  rw [hsaid, List.length_append, List.length_singleton] at hcount
  -- A text has no more brackets than characters, and so none that opens beyond the limit.
  have hpass : Nesting.firstDeeper? limit 0 (Nesting.brackets .code 0 source) = none := by
    rw [Nesting.firstDeeper_eq_none_iff _ (Nat.zero_le limit)]
    have hdeepest := Nesting.deepest_le 0 (Nesting.brackets .code 0 source)
    have hbrackets := Nesting.length_brackets_le .code 0 source
    omega
  obtain ⟨us, rest, hlist, hus, hrest⟩ := List.map_eq_append_iff.mp hsaid
  obtain ⟨last, rfl, hlast⟩ := List.map_eq_singleton_iff.mp hrest
  have hreads : e.parenthesized.Reads limit := e.reads_parenthesized he
  obtain ⟨p, hp, hstands⟩ := (hreads (by omega) us last.span.start hus).phrase false
  obtain ⟨b, hbuild, hbare, -⟩ := hstands.assembled
  have hphrase : Phrase.ofTokens? (Token.list source) = some p := by
    rw [hlist]
    exact Phrase.ofTokens_complete hlast
      (Expr.noMapType_of_unmapped hus (e.unmapped_lexemes he)) hp
  refine ⟨b.expr, ?_, hbare.trans e.bare_parenthesized⟩
  rw [compile, htext, build, hpass]
  simp only [hphrase, Phrase.build, hbuild]

def Expr.sample : Expr :=
  .arith ⟨0, 0⟩ .mul
    (.arith ⟨0, 0⟩ .sub (.ident ⟨0, 0⟩ "a")
      (.arith ⟨0, 0⟩ .sub (.ident ⟨0, 0⟩ "b") (.constant ⟨0, 0⟩ (.int 1))))
    (.index ⟨0, 0⟩ (.composite ⟨0, 0⟩ [.constant ⟨0, 0⟩ (.str "\"")]) (.constant ⟨0, 0⟩ (.int 0)))

theorem compile_rendered_sample :
    Expr.sample.rendered = "( a - ( b - 1 ) ) * []lit\x7b \"\\\"\" \x7d [ 0 ]" ∧
      ∃ e, compile 40 Expr.sample.rendered = .ok e ∧ e.bare = Expr.sample.bare := by
  have hdifference : IsName "a".toList ∧ "a" ≠ "map" := ⟨by decide +kernel, by decide⟩
  have hnested : IsName "b".toList ∧ "b" ≠ "map" := ⟨by decide +kernel, by decide⟩
  have hwritable : Expr.sample.Writable :=
    ⟨⟨hdifference, hnested, (by decide : (0 : Int64) ≤ 1)⟩, ⟨trivial, trivial⟩,
      (by decide : (0 : Int64) ≤ 0), by decide +kernel⟩
  exact ⟨by decide +kernel, compile_rendered hwritable (by decide +kernel)⟩

end Formula
