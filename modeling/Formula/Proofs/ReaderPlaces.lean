import Formula.Proofs.ReaderOutcomes
import Formula.Proofs.ShiftedTokens

/-!
Readers and places. A reader looks at where tokens stand only to see whether the signs of an operator, or
a point and the names beside it, touch. Where tokens move and none of these come together or apart, every
reader takes the moved tokens as it took them before, and what it makes of them has moved alike.
-/

namespace Formula

open Formula.Parser

def Token.Tight (t u : Token) : Prop :=
  t.value = .symbol (.op .band) ∧ u.value = .symbol (.op .bxor) ∨ t.value = .symbol .dot ∨ u.value = .symbol .dot

structure Recast.Moves (r : Recast) : Prop where
  names : ∀ v text, r.name v text = text
  origin : r.place 0 = 0

def Recast.Keeps (r : Recast) (ts : List Token) : Prop :=
  ts.IsChain fun t u => t.Tight u → ((r.token t).Touches (r.token u) ↔ t.Touches u)

/-- A reader takes moved tokens as another one takes them before they move: it fails where that one fails, and
else its result and the tokens that are left are those of the other one, changed and moved. -/
structure Recasts {α β : Type} (r : Recast) (f : α → β) (p : Parser α) (q : Parser β) : Prop where
  run : ∀ ts, r.Keeps ts → q.run (ts.map r.token) = (p.run ts).map (Prod.map f (List.map r.token))
  keeps : ∀ ts a rest, r.Keeps ts → p.run ts = some (a, rest) → r.Keeps rest

variable {r : Recast}

section Readers

variable {α β γ δ : Type} {f : α → β} {g : γ → δ} {p : Parser α} {q : Parser β}

theorem recasts_pure (f : α → β) (a : α) : Recasts r f (pure a) (pure (f a)) := by
  refine ⟨fun ts _ => rfl, fun ts b rest hkeeps h => ?_⟩
  obtain ⟨-, rfl⟩ := run_pure_eq_some.mp h
  exact hkeeps

theorem recasts_fail (f : α → β) : Recasts r f (fail : Parser α) fail :=
  ⟨fun _ _ => rfl, fun _ _ _ _ h => nomatch h⟩

theorem Recasts.bind {k : α → Parser γ} {l : β → Parser δ} (h : Recasts r f p q)
    (hk : ∀ a, Recasts r g (k a) (l (f a))) : Recasts r g (p >>= k) (q >>= l) := by
  constructor
  · intro ts hkeeps
    rw [run_bind, run_bind, h.run ts hkeeps]
    rcases hp : p.run ts with _ | ⟨a, rest⟩
    · rfl
    · exact (hk a).run rest (h.keeps ts a rest hkeeps hp)
  · intro ts c rest hkeeps hrun
    obtain ⟨a, mid, hp, hc⟩ := run_bind_eq_some.mp hrun
    exact (hk a).keeps mid c rest (h.keeps ts a mid hkeeps hp) hc

/-- The second reader does not depend on what the first one gives. -/
theorem Recasts.and_then {k : Parser γ} {l : Parser δ} (h : Recasts r f p q) (hk : Recasts r g k l) :
    Recasts r g (p >>= fun _ => k) (q >>= fun _ => l) :=
  h.bind fun _ => hk

theorem Recasts.orElse {p' : Parser α} {q' : Parser β} (h : Recasts r f p q) (h' : Recasts r f p' q') :
    Recasts r f (p <|> p') (q <|> q') := by
  constructor
  · intro ts hkeeps
    rw [run_orElse, run_orElse, h.run ts hkeeps, h'.run ts hkeeps]
    cases p.run ts <;> rfl
  · intro ts a rest hkeeps hrun
    rw [run_orElse, Option.or_eq_some_iff] at hrun
    rcases hrun with hrun | ⟨-, hrun⟩
    · exact h.keeps ts a rest hkeeps hrun
    · exact h'.keeps ts a rest hkeeps hrun

theorem Recasts.goal (h : Recasts r f p q) (g : Goal) : Recasts r f (Parser.goal g p) (Parser.goal g q) := by
  refine ⟨fun ts hkeeps => ?_, fun ts a rest hkeeps hrun => ?_⟩
  · rw [run_goal, run_goal, h.run ts hkeeps]
  · rw [run_goal] at hrun
    exact h.keeps ts a rest hkeeps hrun

theorem Recasts.optional (h : Recasts r f p q) :
    Recasts r (Option.map f) (Parser.optional p) (Parser.optional q) := by
  constructor
  · intro ts hkeeps
    rw [run_optional, run_optional, h.run ts hkeeps]
    cases p.run ts <;> rfl
  · intro ts a rest hkeeps hrun
    rw [run_optional, Option.some_inj] at hrun
    rcases hp : p.run ts with _ | ⟨b, mid⟩
    · rw [hp] at hrun
      exact (Prod.mk.inj hrun).2 ▸ hkeeps
    · rw [hp] at hrun
      exact (Prod.mk.inj hrun).2 ▸ h.keeps ts b mid hkeeps hp

theorem Recasts.many (h : Recasts r f p q) : Recasts r (List.map f) (Parser.many p) (Parser.many q) := by
  -- Both turn alike, and as there are as many tokens as before, they have as many turns.
  have turns (n : Nat) : ∀ ts, r.Keeps ts → repeated n q (ts.map r.token) =
      Prod.map (List.map f) (List.map r.token) (repeated n p ts) ∧ r.Keeps (repeated n p ts).2 := by
    induction n with
    | zero => exact fun ts hkeeps => ⟨rfl, hkeeps⟩
    | succ n ih =>
      intro ts hkeeps
      rw [repeated_succ, repeated_succ, h.run ts hkeeps]
      rcases hp : p.run ts with _ | ⟨a, rest⟩
      · exact ⟨rfl, hkeeps⟩
      · obtain ⟨hrest, hkept⟩ := ih rest (h.keeps ts a rest hkeeps hp)
        refine ⟨?_, hkept⟩
        simp only [Option.map_some, Prod.map_apply, hrest]
        rfl
  constructor
  · intro ts hkeeps
    rw [run_many, run_many, List.length_map, (turns ts.length ts hkeeps).1]
    rfl
  · intro ts as rest hkeeps hrun
    rw [run_many, Option.some_inj] at hrun
    have hkept := (turns ts.length ts hkeeps).2
    rwa [hrun] at hkept

theorem recasts_here (hr : r.Moves) : Recasts r r.place here here := by
  refine ⟨fun ts _ => ?_, fun ts a rest hkeeps hrun => ?_⟩
  · cases ts with
    | nil => simp [run_here, startOf, hr.origin]
    | cons t ts => rfl
  · rw [run_here, Option.some_inj] at hrun
    exact (Prod.mk.inj hrun).2 ▸ hkeeps

/-- A reader of one token follows one that takes the same tokens. -/
theorem recasts_expect {goals : List Goal} {pick : Token → Option α} {pick' : Token → Option β}
    (h : ∀ t, pick' (r.token t) = (pick t).map f) : Recasts r f (expect goals pick) (expect goals pick') := by
  constructor
  · intro ts _
    cases ts with
    | nil => rfl
    | cons t ts =>
      rw [List.map_cons, run_expect_cons, run_expect_cons, h]
      cases pick t <;> rfl
  · intro ts a rest hkeeps hrun
    obtain ⟨t, rfl, -⟩ := run_expect_eq_some.mp hrun
    exact hkeeps.tail

theorem Recast.Moves.token_eq (hr : r.Moves) (t : Token) : r.token t = ⟨t.value, r.span t.span⟩ :=
  Recast.token_of_names hr.names t

theorem Recast.Moves.atom_eq (hr : r.Moves) (a : Placed Atom) : r.atom a = ⟨a.value, r.span a.span⟩ := by
  obtain ⟨value, span⟩ := a
  cases value <;> simp [Recast.atom, hr.names]

theorem recasts_sign (hr : r.Moves) (s : Symbol) : Recasts r r.token (sign s) (sign s) := by
  constructor
  · intro ts _
    cases ts with
    | nil => rfl
    | cons t ts =>
      rw [List.map_cons, run_sign_cons, run_sign_cons, hr.token_eq]
      split_ifs <;> simp [hr.token_eq]
  · intro ts t rest hkeeps hrun
    obtain ⟨rfl, -⟩ := run_sign_eq_some.mp hrun
    exact hkeeps.tail

theorem Recasts.commaList (hr : r.Moves) (h : Recasts r f p q) :
    Recasts r (List.map f) (commaList p) (commaList q) := by
  refine h.bind fun first => ?_
  refine ((recasts_sign hr .comma).and_then h).many.bind fun more => ?_
  exact (recasts_sign hr .comma).optional.and_then (recasts_pure (List.map f) (first :: more))

end Readers

namespace Phrase

theorem recastAll_eq (ps : List Phrase) : recastAll r ps = ps.map (recast r) := by
  induction ps with
  | nil => rfl
  | cons p ps ih => rw [recastAll, ih, List.map_cons]

theorem elements_recast_eq (es : List Element) : Element.recastAll r es = es.map (Element.recast r) := by
  induction es with
  | nil => rfl
  | cons e es ih => rw [Element.recastAll, ih, List.map_cons]

theorem ofRow_recast (stop : Nat) (o : Operand) (rest : List (Placed InfixOp × Operand)) :
    (ofRow stop o rest).recast r =
      ofRow (r.place stop) (o.recast r) (rest.map (Prod.map r.op (Operand.recast r))) := by
  induction rest generalizing o with
  | nil => rfl
  | cons pair rest ih => exact congrArg _ (ih pair.2)

theorem rowStop_recast (next : Nat) (rest : List (Placed InfixOp × Operand)) :
    rowStop (r.place next) (rest.map (Prod.map r.op (Operand.recast r))) = r.place (rowStop next rest) := by
  rw [rowStop, rowStop, List.getLast?_map]
  cases rest.getLast? with
  | none => rfl
  | some pair =>
    simp only [Option.map_some, Option.bind_some, Prod.map_snd, Operand.indexStop_recast]
    cases pair.2.indexStop? <;> rfl

theorem prefixOp_recasts (hr : r.Moves) : Recasts r r.op prefixOp prefixOp := by
  refine recasts_expect fun t => ?_
  rw [hr.token_eq]
  obtain ⟨value, span⟩ := t
  cases value with
  | symbol s => cases h : PrefixOp.ofSymbol? s <;> simp [h, Recast.op]
  | _ => rfl

theorem infixOp_recasts (hr : r.Moves) : Recasts r r.op infixOp infixOp := by
  constructor
  · rintro (_ | ⟨t, ts⟩) hkeeps
    · rfl
    simp only [run, infixOp, List.map_cons, hr.token_eq]
    rcases hvalue : t.value with a | s | c | _
    case symbol =>
      rcases s with o | _ | _ | _ | _ | _ | _ | _
      case op =>
        cases o with
        | band =>
          rcases ts with _ | ⟨u, ts⟩
          · rfl
          by_cases hu : u.value = .symbol (.op .bxor)
          · have htouch := hkeeps.rel (.inl ⟨hvalue, hu⟩)
            simp only [Token.Touches, hr.token_eq] at htouch
            simp only [List.map_cons, hr.token_eq, hu, true_and, htouch]
            split_ifs
            · rfl
            · simp [hr.token_eq, hu, Recast.op]
          · simp [hr.token_eq, hu, Recast.op]
        | _ => rfl
      all_goals rfl
    all_goals rfl
  · intro ts op rest hkeeps hrun
    obtain ⟨us, rfl, hus⟩ := infixOp_sound hrun
    exact (List.isChain_append.mp hkeeps).2.1

theorem name_recasts (hr : r.Moves) : Recasts r r.op name name := by
  refine recasts_expect fun t => ?_
  rw [hr.token_eq]
  obtain ⟨value, span⟩ := t
  cases value with
  | atom a => cases a <;> rfl
  | _ => rfl

theorem atom_recasts (hr : r.Moves) : Recasts r (Operand.recast r) atom atom := by
  refine recasts_expect fun t => ?_
  rw [hr.token_eq]
  obtain ⟨value, span⟩ := t
  cases value with
  | atom a => simp [Operand.recast, hr.atom_eq]
  | _ => rfl

theorem mapWord_recasts (hr : r.Moves) : Recasts r r.token mapWord mapWord := by
  refine recasts_expect fun t => ?_
  simp only [hr.token_eq]
  split_ifs <;> simp [hr.token_eq]

theorem qualifiedName_recasts (hr : r.Moves) : Recasts r (TypeExpr.recast r) qualifiedName qualifiedName := by
  constructor
  · intro ts hkeeps
    rw [qualifiedName, run_goal, run_goal]
    rcases ts with _ | ⟨t, _ | ⟨d, _ | ⟨u, rest⟩⟩⟩
    iterate 3 rfl
    simp only [run, List.map_cons, hr.token_eq]
    split
    · by_cases hd : d.value = .symbol .dot
      · have htd := hkeeps.rel (.inr (.inr hd))
        have hdu := hkeeps.tail.rel (.inr (.inl hd))
        simp only [Token.Touches, hr.token_eq] at htd hdu
        simp only [htd, hdu]
        split_ifs <;> rfl
      · simp [hd]
    · rfl
  · intro ts t rest hkeeps hrun
    obtain ⟨us, rfl, hus⟩ := qualifiedName_sound ts t rest hrun
    exact (List.isChain_append.mp hkeeps).2.1

end Phrase

structure Phrase.Level.Recasts (r : Recast) (below : Phrase.Level) : Prop where
  phrase : Formula.Recasts r (Phrase.recast r) below.phrase below.phrase
  type : Formula.Recasts r (TypeExpr.recast r) below.type below.type

namespace Phrase.Level

variable {below : Level} (hr : r.Moves) (h : below.Recasts r)

include hr h

theorem mapType_recasts : Formula.Recasts r (TypeExpr.recast r) (mapType below) (mapType below) := by
  refine Formula.Recasts.goal ?_ _
  refine (mapWord_recasts hr).bind fun word => (recasts_sign hr _).bind fun _ => ?_
  refine h.type.bind fun key => (recasts_sign hr _).bind fun _ => h.type.bind fun value => ?_
  rw [TypeExpr.span_recast]
  exact recasts_pure _ (TypeExpr.map (word.span.cover value.span) key value)

theorem sliceType_recasts : Formula.Recasts r (TypeExpr.recast r) (sliceType below) (sliceType below) := by
  refine Formula.Recasts.goal ?_ _
  refine (recasts_sign hr _).bind fun bracket => (recasts_sign hr _).bind fun _ => h.type.bind fun element => ?_
  rw [TypeExpr.span_recast]
  exact recasts_pure _ (TypeExpr.slice (bracket.span.cover element.span) element)

theorem arrayType_recasts : Formula.Recasts r (TypeExpr.recast r) (arrayType below) (arrayType below) := by
  refine Formula.Recasts.goal ?_ _
  refine (recasts_sign hr _).bind fun bracket => ?_
  have hopen := ((recasts_sign hr .ellipsis).goal .ellipsis).and_then
    (recasts_pure (Option.map (Phrase.recast r)) none)
  have hlength : Formula.Recasts r (Option.map (Phrase.recast r))
      (do let length ← below.phrase; return some length) (do let length ← below.phrase; return some length) :=
    h.phrase.bind fun length => recasts_pure _ (some length)
  refine (hopen.orElse hlength).bind fun length => ?_
  refine (recasts_sign hr _).bind fun _ => h.type.bind fun element => ?_
  rw [TypeExpr.span_recast]
  cases length with
  | none => exact recasts_pure _ (TypeExpr.openArray (bracket.span.cover element.span) element)
  | some length => exact recasts_pure _ (TypeExpr.array (bracket.span.cover element.span) length element)

theorem pointerType_recasts :
    Formula.Recasts r (TypeExpr.recast r) (pointerType below) (pointerType below) := by
  refine Formula.Recasts.goal ?_ _
  refine (recasts_sign hr _).bind fun mark => h.type.bind fun target => ?_
  rw [TypeExpr.span_recast]
  exact recasts_pure _ (TypeExpr.pointer (mark.span.cover target.span) target)

omit h in
theorem namedType_recasts : Formula.Recasts r (TypeExpr.recast r) namedType namedType :=
  (name_recasts hr).bind fun text => recasts_pure _ (TypeExpr.name text.span text.value)

theorem compositeType_recasts :
    Formula.Recasts r (TypeExpr.recast r) (compositeType below) (compositeType below) :=
  (mapType_recasts hr h).orElse ((sliceType_recasts hr h).orElse (arrayType_recasts hr h))

theorem anyType_recasts : Formula.Recasts r (TypeExpr.recast r) (anyType below) (anyType below) :=
  Formula.Recasts.goal ((compositeType_recasts hr h).orElse ((pointerType_recasts hr h).orElse
    ((qualifiedName_recasts hr).orElse (namedType_recasts hr)))) _

theorem element_recasts : Formula.Recasts r (Element.recast r) (element below) (element below) := by
  refine Formula.Recasts.goal ?_ _
  refine (recasts_here hr).bind fun start => h.phrase.bind fun first => ?_
  refine ((recasts_sign hr .colon).and_then h.phrase).optional.bind fun second => ?_
  cases second with
  | none => exact recasts_pure _ (Element.plain first)
  | some value =>
    simp only [Option.map_some, Phrase.stop_recast]
    exact recasts_pure _ (Element.keyed ⟨start, value.stop⟩ first value)

theorem composite_recasts : Formula.Recasts r (Operand.recast r) (composite below) (composite below) := by
  refine Formula.Recasts.goal ?_ _
  refine (recasts_here hr).bind fun start => (compositeType_recasts hr h).bind fun type => ?_
  refine (recasts_sign hr _).bind fun _ => ((element_recasts hr h).commaList hr).optional.bind fun elements => ?_
  refine (recasts_sign hr _).bind fun bracket => ?_
  have helements : (elements.map (List.map (Element.recast r))).getD [] =
      Element.recastAll r (elements.getD []) := by
    rw [elements_recast_eq]
    cases elements <;> rfl
  rw [helements]
  exact recasts_pure _ (Operand.composite ⟨start, bracket.span.stop⟩ type (elements.getD []))

theorem call_recasts : Formula.Recasts r (Operand.recast r) (call below) (call below) := by
  refine Formula.Recasts.goal ?_ _
  refine (name_recasts hr).bind fun function => (recasts_sign hr _).bind fun _ => ?_
  refine (h.phrase.commaList hr).optional.bind fun args => (recasts_sign hr _).bind fun bracket => ?_
  have hargs : (args.map (List.map (Phrase.recast r))).getD [] = Phrase.recastAll r (args.getD []) := by
    rw [recastAll_eq]
    cases args <;> rfl
  rw [hargs]
  exact recasts_pure _ (Operand.call (function.span.cover bracket.span) function.value (args.getD []))

theorem group_recasts : Formula.Recasts r (Operand.recast r) (group below) (group below) := by
  refine Formula.Recasts.goal ?_ _
  refine (recasts_sign hr _).bind fun left => h.phrase.bind fun inner => (recasts_sign hr _).bind fun right => ?_
  exact recasts_pure _ (Operand.group (left.span.cover right.span) inner)

theorem index_recasts :
    Formula.Recasts r (Prod.map (Phrase.recast r) r.place) (index below) (index below) := by
  refine Formula.Recasts.goal ?_ _
  refine (recasts_sign hr _).bind fun _ => h.phrase.bind fun position => (recasts_sign hr _).bind fun bracket => ?_
  exact recasts_pure _ (position, bracket.span.stop)

omit hr h in
theorem indexedBy_recast (base : Operand) (indexes : List (Phrase × Nat)) :
    indexedBy (base.recast r) (indexes.map (Prod.map (Phrase.recast r) r.place)) =
      (indexedBy base indexes).recast r := by
  induction indexes generalizing base with
  | nil => rfl
  | cons pair indexes ih => exact ih (.index base pair.1 pair.2)

omit hr h in
theorem signed_recast (o : Operand) (signs : List (Placed PrefixOp)) :
    (signs.map r.op).foldr Operand.signed (o.recast r) = (signs.foldr Operand.signed o).recast r := by
  induction signs with
  | nil => rfl
  | cons s signs ih => exact congrArg (Operand.signed (r.op s)) ih

theorem operand_recasts : Formula.Recasts r (Operand.recast r) (operand below) (operand below) := by
  refine (prefixOp_recasts hr).many.bind fun signs => ?_
  have hbase := (composite_recasts hr h).orElse ((call_recasts hr h).orElse
    ((group_recasts hr h).orElse (atom_recasts hr)))
  refine hbase.bind fun base => (index_recasts hr h).many.bind fun indexes => ?_
  have hwhole : (signs.map r.op).foldr Operand.signed
        (indexedBy (base.recast r) (indexes.map (Prod.map (Phrase.recast r) r.place))) =
      (signs.foldr Operand.signed (indexedBy base indexes)).recast r := by
    rw [indexedBy_recast, signed_recast]
  have hpure := recasts_pure (r := r) (Operand.recast r) (signs.foldr Operand.signed (indexedBy base indexes))
  rwa [← hwhole] at hpure

theorem anyPhrase_recasts : Formula.Recasts r (Phrase.recast r) (anyPhrase below) (anyPhrase below) := by
  refine Formula.Recasts.goal ?_ _
  refine (operand_recasts hr h).bind fun first => ?_
  have hpair : Formula.Recasts r (Prod.map r.op (Operand.recast r))
      (do let op ← infixOp; let second ← operand below; return (op, second))
      (do let op ← infixOp; let second ← operand below; return (op, second)) :=
    (infixOp_recasts hr).bind fun op => (operand_recasts hr h).bind fun second => recasts_pure _ (op, second)
  refine hpair.many.bind fun rest => (recasts_here hr).bind fun next => ?_
  rw [rowStop_recast, ← ofRow_recast]
  exact recasts_pure _ _

end Phrase.Level

namespace Phrase

theorem level_recasts (hr : r.Moves) (n : Nat) : (level n).Recasts r := by
  induction n with
  | zero => exact ⟨recasts_fail _, recasts_fail _⟩
  | succ n ih => exact ⟨Level.anyPhrase_recasts hr ih, Level.anyType_recasts hr ih⟩

/-- Moved tokens are read as the phrase that they were read as, which has moved with them. -/
theorem ofTokens_recast (hr : r.Moves) {ts : List Token} (hkeeps : r.Keeps ts) :
    ofTokens? (ts.map r.token) = (ofTokens? ts).map (recast r) := by
  have hwhole : Recasts r (recast r) (whole ts) (whole ts) := by
    refine (level_recasts hr ts.length).phrase.bind fun phrase => ?_
    have hfinish : Recasts r r.token
        (expect [.finish] fun t => if t.value = .finish then some t else none)
        (expect [.finish] fun t => if t.value = .finish then some t else none) := by
      refine recasts_expect fun t => ?_
      simp only [hr.token_eq]
      split_ifs <;> simp [hr.token_eq]
    exact hfinish.and_then (recasts_pure _ phrase)
  have hlength : whole (ts.map r.token) = whole ts := by rw [whole, List.length_map, whole]
  rw [ofTokens?, ofTokens?, hlength, hwhole.run ts hkeeps]
  cases (whole ts).run ts <;> rfl

end Phrase

end Formula
