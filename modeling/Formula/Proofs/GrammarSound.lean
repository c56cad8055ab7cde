import Formula.Proofs.Grammar
import Formula.Proofs.ReaderOutcomes

namespace Formula

open Formula.Parser

/-- What the reader gives is spelled by the tokens that it takes. -/
def Follows {α : Type} (p : Parser α) (form : α → Form) : Prop :=
  ∀ ts a rest, p.run ts = some (a, rest) →
    ∃ us, ts = us ++ rest ∧ Spells (startOf rest) us (form a)

namespace Phrase

theorem startOf_append {us rest : List Token} (h : us ≠ []) :
    startOf (us ++ rest) = startOf us := by
  cases us with
  | nil => exact absurd rfl h
  | cons u us => rfl

theorem prefixOp_sound {ts rest : List Token} {op : Placed PrefixOp}
    (h : prefixOp.run ts = some (op, rest)) :
    ∃ t s, ts = t :: rest ∧ t.value = .symbol s ∧ PrefixOp.ofSymbol? s = some op.value ∧
      op.span = t.span := by
  obtain ⟨t, rfl, hf⟩ := run_expect_eq_some.mp h
  split at hf
  · next s hs =>
    obtain ⟨o, ho, rfl⟩ := Option.map_eq_some_iff.mp hf
    exact ⟨t, s, rfl, hs, ho, rfl⟩
  · cases hf

theorem infixOp_sound {ts rest : List Token} {op : Placed InfixOp}
    (h : infixOp.run ts = some (op, rest)) : ∃ us, ts = us ++ rest ∧ Joins us rest op := by
  simp only [infixOp, run] at h
  split at h
  · cases h
  · next t rest' =>
    split at h
    · next ht =>
      split at h
      · next u rest'' =>
        split_ifs at h with hc
        · obtain ⟨rfl, rfl⟩ := Prod.mk.inj (Option.some.inj h)
          exact ⟨[t, u], rfl, .andNot ht hc.1 hc.2⟩
        · obtain ⟨rfl, rfl⟩ := Prod.mk.inj (Option.some.inj h)
          refine ⟨[t], rfl, .one ht fun _ v hv hx htv => ?_⟩
          obtain rfl := Option.some.inj hv
          exact hc ⟨hx, htv⟩
      · obtain ⟨rfl, rfl⟩ := Prod.mk.inj (Option.some.inj h)
        exact ⟨[t], rfl, .one ht fun _ v hv => by cases hv⟩
    · next o hne ho =>
      obtain ⟨rfl, rfl⟩ := Prod.mk.inj (Option.some.inj h)
      refine ⟨[t], rfl, .one ho fun hb => ?_⟩
      subst hb
      exact absurd rfl hne
    · cases h

theorem name_sound {ts rest : List Token} {text : Placed (List Char)}
    (h : name.run ts = some (text, rest)) :
    ∃ t, ts = t :: rest ∧ t.value = .atom (.name text.value) ∧ text.span = t.span := by
  obtain ⟨t, rfl, hf⟩ := run_expect_eq_some.mp h
  split at hf
  · next text' ht =>
    obtain rfl := Option.some.inj hf
    exact ⟨t, rfl, ht, rfl⟩
  · cases hf

theorem atom_sound : Follows atom .primary := by
  intro ts o rest h
  obtain ⟨t, rfl, hf⟩ := run_expect_eq_some.mp h
  split at hf
  · next a ha =>
    obtain rfl := Option.some.inj hf
    exact ⟨[t], rfl, .atom ha⟩
  · cases hf

theorem mapWord_sound {ts rest : List Token} {t : Token} (h : mapWord.run ts = some (t, rest)) :
    ts = t :: rest ∧ t.value = .atom (.name "map".toList) := by
  obtain ⟨u, rfl, hf⟩ := run_expect_eq_some.mp h
  split_ifs at hf with hu
  obtain rfl := Option.some.inj hf
  exact ⟨rfl, hu⟩

theorem qualifiedName_sound : Follows qualifiedName .type := by
  intro ts a rest h
  rw [qualifiedName, run_goal] at h
  simp only [run] at h
  split at h
  · next t d u rest' =>
    split at h
    · next package text ht hu =>
      split_ifs at h with hc
      · obtain ⟨rfl, rfl⟩ := Prod.mk.inj (Option.some.inj h)
        exact ⟨[t, d, u], rfl, .qualifiedType ht hc.1 hu hc.2.1 hc.2.2⟩
    · cases h
  · cases h

/-- A row of commas and items after an item. -/
theorem commaList_sound {α : Type} {p : Parser α} {item : α → Form} {list : List α → Form}
    (hp : Follows p item)
    (hone : ∀ next ts a, Spells next ts (item a) → Spells next ts (list [a]))
    (hmore : ∀ next ts us a as (c : Token), Spells c.span.start ts (item a) →
      c.value = .symbol .comma → Spells next us (list as) →
      Spells next (ts ++ c :: us) (list (a :: as)))
    (hnone : ∀ next, Spells next [] (list [])) :
    Follows (commaList p) list := by
  intro ts as rest h
  simp only [commaList, run_bind_eq_some, run_pure_eq_some] at h
  obtain ⟨first, ts₁, h₁, more, ts₂, h₂, comma, ts₃, h₃, rfl, rfl⟩ := h
  obtain ⟨us, rfl, hfirst⟩ := hp _ _ _ h₁
  -- A comma after the last item stands before an empty list.
  have tail : ∃ vs, ts₂ = vs ++ ts₃ ∧ ∀ a us, Spells (startOf ts₂) us (item a) →
      Spells (startOf ts₃) (us ++ vs) (list [a]) := by
    rw [run_optional] at h₃
    rcases hc : (sign .comma).run ts₂ with _ | ⟨c, rest⟩
    · simp only [hc, Option.some.injEq, Prod.mk.injEq] at h₃
      obtain ⟨-, rfl⟩ := h₃
      exact ⟨[], rfl, fun a us hus => by simpa using hone _ _ _ hus⟩
    · simp only [hc, Option.some.injEq, Prod.mk.injEq] at h₃
      obtain ⟨-, rfl⟩ := h₃
      obtain ⟨rfl, hv⟩ := run_sign_eq_some.mp hc
      exact ⟨[c], rfl, fun a us hus => hmore _ _ _ _ _ c hus hv (hnone _)⟩
  have turns := run_many_induction
    (R := fun ts as rest => rest = ts₂ → ∃ vs, ts = vs ++ ts₃ ∧ ∀ a us,
      Spells (startOf ts) us (item a) → Spells (startOf ts₃) (us ++ vs) (list (a :: as)))
    (fun ts hts => hts ▸ tail)
    (fun ts a mid as rest hturn ih hrest => by
      simp only [run_bind_eq_some] at hturn
      obtain ⟨c, ts', hc, ha⟩ := hturn
      obtain ⟨rfl, hv⟩ := run_sign_eq_some.mp hc
      obtain ⟨vs, rfl, hvs⟩ := hp _ _ _ ha
      obtain ⟨ws, rfl, hws⟩ := ih hrest
      refine ⟨c :: (vs ++ ws), by simp, fun b us hb => ?_⟩
      exact hmore _ _ _ _ _ c hb hv (hws a vs hvs))
    h₂ rfl
  obtain ⟨vs, rfl, hvs⟩ := turns
  exact ⟨us ++ vs, by simp, hvs first us hfirst⟩

/-- A list that may be missing. -/
theorem optional_list_sound {α : Type} {p : Parser (List α)} {list : List α → Form}
    (hp : Follows p list) (hnone : ∀ next, Spells next [] (list [])) {ts rest : List Token}
    {as : Option (List α)} (h : (optional p).run ts = some (as, rest)) :
    ∃ us, ts = us ++ rest ∧ Spells (startOf rest) us (list (as.getD [])) := by
  rw [run_optional] at h
  rcases hr : p.run ts with _ | ⟨as', rest'⟩
  · simp only [hr, Option.some.injEq, Prod.mk.injEq] at h
    obtain ⟨rfl, rfl⟩ := h
    exact ⟨[], rfl, hnone _⟩
  · simp only [hr, Option.some.injEq, Prod.mk.injEq] at h
    obtain ⟨rfl, rfl⟩ := h
    exact hp _ _ _ hr

namespace Level

variable {below : Level} (hphrase : Follows below.phrase (.phrase false))
  (htype : Follows below.type .type)

include htype in
theorem mapType_sound {ts rest : List Token} {t : TypeExpr}
    (h : (mapType below).run ts = some (t, rest)) :
    ∃ us, ts = us ++ rest ∧ Spells (startOf rest) us (.type t) ∧ t.IsComposite := by
  simp only [mapType, run_goal, run_bind_eq_some, run_pure_eq_some, run_sign_eq_some] at h
  obtain ⟨w, ts₁, h₁, l, ts₂, ⟨rfl, hl⟩, key, ts₃, h₃, r, ts₄, ⟨rfl, hr⟩, value, ts₅, h₅, rfl, rfl⟩ := h
  obtain ⟨rfl, hw⟩ := mapWord_sound h₁
  obtain ⟨us, rfl, hus⟩ := htype _ _ _ h₃
  obtain ⟨vs, rfl, hvs⟩ := htype _ _ _ h₅
  exact ⟨w :: l :: (us ++ r :: vs), by simp, .mapType hw hl hus hr hvs, trivial⟩

include htype in
theorem sliceType_sound {ts rest : List Token} {t : TypeExpr}
    (h : (sliceType below).run ts = some (t, rest)) :
    ∃ us, ts = us ++ rest ∧ Spells (startOf rest) us (.type t) ∧ t.IsComposite := by
  simp only [sliceType, run_goal, run_bind_eq_some, run_pure_eq_some, run_sign_eq_some] at h
  obtain ⟨l, ts₁, ⟨rfl, hl⟩, r, ts₂, ⟨rfl, hr⟩, element, ts₃, h₃, rfl, rfl⟩ := h
  obtain ⟨us, rfl, hus⟩ := htype _ _ _ h₃
  exact ⟨l :: r :: us, by simp, .sliceType hl hr hus, trivial⟩

include hphrase htype in
theorem arrayType_sound {ts rest : List Token} {t : TypeExpr}
    (h : (arrayType below).run ts = some (t, rest)) :
    ∃ us, ts = us ++ rest ∧ Spells (startOf rest) us (.type t) ∧ t.IsComposite := by
  simp only [arrayType, run_goal, run_bind_eq_some, run_pure_eq_some, run_sign_eq_some,
    run_orElse, Option.or_eq_some_iff] at h
  obtain ⟨l, ts₁, ⟨rfl, hl⟩, length, ts₂, h₂, r, ts₃, ⟨rfl, hr⟩, element, ts₄, h₄, he, rfl⟩ := h
  obtain ⟨us, rfl, hus⟩ := htype _ _ _ h₄
  rcases h₂ with ⟨d, ts₅, ⟨rfl, hd⟩, rfl, rfl⟩ | ⟨-, p, ts₅, hp, rfl, rfl⟩
  · subst he
    exact ⟨l :: d :: r :: us, by simp, .openArrayType hl hd hr hus, trivial⟩
  · subst he
    obtain ⟨vs, rfl, hvs⟩ := hphrase _ _ _ hp
    exact ⟨l :: (vs ++ r :: us), by simp, .arrayType hl hvs hr hus, trivial⟩

include hphrase htype in
theorem compositeType_sound {ts rest : List Token} {t : TypeExpr}
    (h : (compositeType below).run ts = some (t, rest)) :
    ∃ us, ts = us ++ rest ∧ Spells (startOf rest) us (.type t) ∧ t.IsComposite := by
  simp only [compositeType, run_orElse, Option.or_eq_some_iff] at h
  rcases h with h | ⟨-, h | ⟨-, h⟩⟩
  · exact mapType_sound htype h
  · exact sliceType_sound htype h
  · exact arrayType_sound hphrase htype h

include htype in
theorem pointerType_sound : Follows (pointerType below) .type := by
  intro ts t rest h
  simp only [pointerType, run_goal, run_bind_eq_some, run_pure_eq_some, run_sign_eq_some] at h
  obtain ⟨m, ts₁, ⟨rfl, hm⟩, target, ts₂, h₂, rfl, rfl⟩ := h
  obtain ⟨us, rfl, hus⟩ := htype _ _ _ h₂
  exact ⟨m :: us, rfl, .pointerType hm hus⟩

theorem namedType_sound : Follows namedType .type := by
  intro ts t rest h
  simp only [namedType, run_bind_eq_some, run_pure_eq_some] at h
  obtain ⟨text, ts₁, h₁, rfl, rfl⟩ := h
  obtain ⟨t, rfl, ht, hs⟩ := name_sound h₁
  exact ⟨[t], rfl, hs ▸ .namedType ht⟩

include hphrase htype in
theorem anyType_sound : Follows (anyType below) .type := by
  intro ts t rest h
  simp only [anyType, run_goal, run_orElse, Option.or_eq_some_iff] at h
  rcases h with h | ⟨-, h | ⟨-, h | ⟨-, h⟩⟩⟩
  · obtain ⟨us, rfl, hus, -⟩ := compositeType_sound hphrase htype h
    exact ⟨us, rfl, hus⟩
  · exact pointerType_sound htype _ _ _ h
  · exact qualifiedName_sound _ _ _ h
  · exact namedType_sound _ _ _ h

include hphrase in
theorem element_sound : Follows (element below) .element := by
  intro ts e rest h
  simp only [element, run_goal, run_bind_eq_some, run_here, Option.some.injEq, Prod.mk.injEq,
    run_pure_eq_some] at h
  obtain ⟨start, ts₁, ⟨rfl, rfl⟩, first, ts₂, h₂, second, ts₃, h₃, rfl, rfl⟩ := h
  obtain ⟨us, rfl, hus⟩ := hphrase _ _ _ h₂
  rw [run_optional] at h₃
  rcases hc : (sign .colon >>= fun _ => below.phrase).run ts₂ with _ | ⟨value, rest⟩
  · simp only [hc, Option.some.injEq, Prod.mk.injEq] at h₃
    obtain ⟨rfl, rfl⟩ := h₃
    exact ⟨us, rfl, .plain hus⟩
  · simp only [hc, Option.some.injEq, Prod.mk.injEq] at h₃
    obtain ⟨rfl, rfl⟩ := h₃
    simp only [run_bind_eq_some, run_sign_eq_some] at hc
    obtain ⟨c, ts₃, ⟨rfl, hv⟩, hvalue⟩ := hc
    obtain ⟨vs, rfl, hvs⟩ := hphrase _ _ _ hvalue
    have hne : us ≠ [] := fun he => Spells.mayBeEmpty hus he
    refine ⟨us ++ c :: vs, by simp, ?_⟩
    rw [startOf_append hne]
    exact .keyed hus hv hvs

include hphrase htype in
theorem composite_sound : Follows (composite below) .primary := by
  intro ts o rest h
  simp only [composite, run_goal, run_bind_eq_some, run_here, Option.some.injEq, Prod.mk.injEq,
    run_pure_eq_some, run_sign_eq_some] at h
  obtain ⟨start, ts₁, ⟨rfl, rfl⟩, t, ts₂, h₂, l, ts₃, ⟨rfl, hl⟩, es, ts₄, h₄, r, ts₅, ⟨rfl, hr⟩,
    rfl, rfl⟩ := h
  obtain ⟨us, rfl, hus, hcomposite⟩ := compositeType_sound hphrase htype h₂
  obtain ⟨vs, rfl, hvs⟩ := optional_list_sound
    (commaList_sound (element_sound hphrase) (fun _ _ _ => .oneElement)
      (fun _ _ _ _ _ _ => .moreElements) (fun _ => .noElement)) (fun _ => .noElement) h₄
  have hne : us ≠ [] := fun he => Spells.mayBeEmpty hus he
  refine ⟨us ++ l :: (vs ++ [r]), by simp, ?_⟩
  rw [startOf_append hne]
  exact .composite hus hcomposite hl hvs hr

include hphrase in
theorem call_sound : Follows (call below) .primary := by
  intro ts o rest h
  simp only [call, run_goal, run_bind_eq_some, run_pure_eq_some, run_sign_eq_some] at h
  obtain ⟨text, ts₁, h₁, l, ts₂, ⟨rfl, hl⟩, ps, ts₃, h₃, r, ts₄, ⟨rfl, hr⟩, rfl, rfl⟩ := h
  obtain ⟨f, rfl, hf, hs⟩ := name_sound h₁
  obtain ⟨us, rfl, hus⟩ := optional_list_sound
    (commaList_sound hphrase (fun _ _ _ => .onePhrase)
      (fun _ _ _ _ _ _ => .morePhrases) (fun _ => .noPhrase)) (fun _ => .noPhrase) h₃
  exact ⟨f :: l :: (us ++ [r]), by simp, hs ▸ .call hf hl hus hr⟩

include hphrase in
theorem group_sound : Follows (group below) .primary := by
  intro ts o rest h
  simp only [group, run_goal, run_bind_eq_some, run_pure_eq_some, run_sign_eq_some] at h
  obtain ⟨l, ts₁, ⟨rfl, hl⟩, p, ts₂, h₂, r, ts₃, ⟨rfl, hr⟩, rfl, rfl⟩ := h
  obtain ⟨us, rfl, hus⟩ := hphrase _ _ _ h₂
  exact ⟨l :: (us ++ [r]), by simp, .group hl hus hr⟩

/-- The indexes behind a base, put on it one by one. -/
theorem indexes_sound (hphrase : Follows below.phrase (.phrase false)) {ts rest : List Token}
    {indexes : List (Phrase × Nat)} (h : (many (index below)).run ts = some (indexes, rest)) :
    ∃ us, ts = us ++ rest ∧ ∀ base vs, Spells (startOf ts) vs (.indexed base) →
      Spells (startOf rest) (vs ++ us)
        (.indexed (indexes.foldl (fun base (position, stop) => .index base position stop) base)) := by
  refine run_many_induction (R := fun ts indexes rest => ∃ us, ts = us ++ rest ∧ ∀ base vs,
    Spells (startOf ts) vs (.indexed base) → Spells (startOf rest) (vs ++ us)
      (.indexed (indexes.foldl (fun base (position, stop) => .index base position stop) base)))
    ?_ ?_ h
  · exact fun ts => ⟨[], rfl, fun base vs hvs => by simpa using hvs⟩
  -- The first index makes a new base, and the turns behind it start from that one.
  · rintro ts ⟨position, stop⟩ mid indexes rest hturn ⟨us, rfl, hus⟩
    simp only [index, run_goal, run_bind_eq_some, run_pure_eq_some, run_sign_eq_some,
      Prod.mk.injEq] at hturn
    obtain ⟨l, ts₁, ⟨rfl, hl⟩, p, ts₂, h₂, r, ts₃, ⟨rfl, hr⟩, ⟨rfl, rfl⟩, rfl⟩ := hturn
    obtain ⟨ws, rfl, hws⟩ := hphrase _ _ _ h₂
    refine ⟨l :: (ws ++ r :: us), by simp, fun base vs hvs => ?_⟩
    have hindexed := hus (.index base p r.span.stop) (vs ++ l :: (ws ++ [r])) (.index hvs hl hws hr)
    simpa using hindexed

/-- The operators before an operand, put on it one by one. -/
theorem signs_sound {ts rest : List Token} {signs : List (Placed PrefixOp)}
    (h : (many prefixOp).run ts = some (signs, rest)) :
    ∃ us, ts = us ++ rest ∧ ∀ next o vs, Spells next vs (.operand o) →
      Spells next (us ++ vs) (.operand (signs.foldr .signed o)) := by
  refine run_many_induction (R := fun ts signs rest => ∃ us, ts = us ++ rest ∧ ∀ next o vs,
    Spells next vs (.operand o) → Spells next (us ++ vs) (.operand (signs.foldr .signed o)))
    ?_ ?_ h
  · exact fun ts => ⟨[], rfl, fun next o vs hvs => hvs⟩
  -- The first sign is put on last, around what the others have made.
  · rintro ts op mid signs rest hturn ⟨us, rfl, hus⟩
    obtain ⟨t, s, rfl, ht, hs, hspan⟩ := prefixOp_sound hturn
    refine ⟨t :: us, rfl, fun next o vs hvs => ?_⟩
    obtain ⟨value, span⟩ := op
    obtain rfl : span = t.span := hspan
    exact .signed ht hs (hus next o vs hvs)

include hphrase htype in
theorem operand_sound : Follows (operand below) .operand := by
  intro ts o rest h
  simp only [operand, run_bind_eq_some, run_orElse, Option.or_eq_some_iff, run_pure_eq_some] at h
  obtain ⟨signs, ts₁, h₁, base, ts₂, h₂, indexes, ts₃, h₃, rfl, rfl⟩ := h
  obtain ⟨us, rfl, hus⟩ := signs_sound h₁
  obtain ⟨vs, rfl, hvs⟩ : ∃ vs, ts₁ = vs ++ ts₂ ∧ Spells (startOf ts₂) vs (.primary base) := by
    rcases h₂ with h₂ | ⟨-, h₂ | ⟨-, h₂ | ⟨-, h₂⟩⟩⟩
    · exact composite_sound hphrase htype _ _ _ h₂
    · exact call_sound hphrase _ _ _ h₂
    · exact group_sound hphrase _ _ _ h₂
    · exact atom_sound _ _ _ h₂
  obtain ⟨ws, rfl, hws⟩ := indexes_sound hphrase h₃
  exact ⟨us ++ (vs ++ ws), by simp, hus _ _ _ (.unsigned (hws base vs (.base hvs)))⟩

def rowEnd (next : Nat) : Bool → Operand → List (Placed InfixOp × Operand) → Nat
  | joined, o, [] => o.lastStop joined next
  | _, _, (_, o) :: rest => rowEnd next true o rest

theorem rowEnd_eq_rowStop (next : Nat) (o : Operand) (rest : List (Placed InfixOp × Operand)) :
    rowEnd next false o rest = rowStop next rest := by
  have joined (o : Operand) : ∀ rest : List (Placed InfixOp × Operand), ∀ op,
      rowEnd next true o rest = rowStop next ((op, o) :: rest) := by
    intro rest
    induction rest generalizing o with
    | nil => intro op; rfl
    | cons pair rest ih =>
      intro op
      obtain ⟨op', o'⟩ := pair
      rw [rowEnd, ih o' op', rowStop, rowStop, List.getLast?_cons_cons]
  cases rest with
  | nil => rfl
  | cons pair rest => exact joined pair.2 rest pair.1

theorem joins_ne_nil {ots us : List Token} {op : Placed InfixOp} (h : Joins ots us op) :
    ots ≠ [] := by
  cases h <;> simp

include hphrase htype in
/-- The operators and operands behind the first operand make a phrase with it. -/
theorem rows_sound {ts rest : List Token} {row : List (Placed InfixOp × Operand)}
    (h : (many (do
      let op ← infixOp
      let second ← operand below
      return (op, second))).run ts = some (row, rest)) :
    ∃ us, ts = us ++ rest ∧ ∀ joined o vs, Spells (startOf ts) vs (.operand o) →
      Spells (startOf rest) (vs ++ us)
        (.phrase joined (ofRow (rowEnd (startOf rest) joined o row) o row)) := by
  refine run_many_induction (R := fun ts row rest => ∃ us, ts = us ++ rest ∧
    ∀ joined o vs, Spells (startOf ts) vs (.operand o) → Spells (startOf rest) (vs ++ us)
      (.phrase joined (ofRow (rowEnd (startOf rest) joined o row) o row))) ?_ ?_ h
  · exact fun ts => ⟨[], rfl, fun joined o vs hvs => by simpa using .last hvs⟩
  · rintro ts ⟨op, second⟩ mid row rest hturn ⟨us, rfl, hus⟩
    simp only [run_bind_eq_some, run_pure_eq_some, Prod.mk.injEq] at hturn
    obtain ⟨op', ts₁, h₁, second', ts₂, h₂, ⟨rfl, rfl⟩, rfl⟩ := hturn
    obtain ⟨ots, rfl, hop⟩ := infixOp_sound h₁
    obtain ⟨ws, rfl, hws⟩ := operand_sound hphrase htype _ _ _ h₂
    have hne : ws ≠ [] := fun he => Spells.mayBeEmpty hws he
    refine ⟨ots ++ (ws ++ us), by simp, fun joined o vs hvs => ?_⟩
    rw [startOf_append (joins_ne_nil hop)] at hvs
    rw [← List.append_assoc] at hop
    have hop' : Joins ots (ws ++ us) op' := (joins_append_iff (by simp [hne])).mp hop
    exact .join hvs hop' (hus true second' ws hws)

include hphrase htype in
theorem anyPhrase_sound : Follows (anyPhrase below) (.phrase false) := by
  intro ts p rest h
  simp only [anyPhrase, run_goal, run_bind_eq_some, run_here, Option.some.injEq, Prod.mk.injEq,
    run_pure_eq_some] at h
  obtain ⟨first, ts₁, h₁, row, ts₂, h₂, next, ts₃, ⟨rfl, rfl⟩, rfl, rfl⟩ := h
  obtain ⟨us, rfl, hus⟩ := operand_sound hphrase htype _ _ _ h₁
  obtain ⟨vs, rfl, hvs⟩ := rows_sound hphrase htype h₂
  refine ⟨us ++ vs, by simp, ?_⟩
  -- The end of the row is said from its front in the lemma, and from its back by the reader.
  rw [← rowEnd_eq_rowStop _ first row]
  exact hvs false first us hus

end Level

/-- At every level, what is read is spelled by the tokens that are taken. -/
theorem level_sound (n : Nat) :
    Follows (level n).phrase (.phrase false) ∧ Follows (level n).type .type := by
  induction n with
  -- Without a level nothing is read; a level more is one round of the rules over the level below.
  | zero => constructor <;> intro ts a rest h <;> cases h
  | succ n ih => exact ⟨Level.anyPhrase_sound ih.1 ih.2, Level.anyType_sound ih.1 ih.2⟩

/-- The phrase of a row of tokens is spelled by the tokens before the mark of the end. -/
theorem ofTokens_sound {ts : List Token} {p : Phrase} (h : ofTokens? ts = some p) :
    ∃ us e rest, ts = us ++ e :: rest ∧ e.value = .finish ∧
      Spells e.span.start us (.phrase false p) := by
  rw [ofTokens?, Option.map_eq_some_iff] at h
  obtain ⟨⟨p', rest⟩, h, rfl⟩ := h
  simp only [whole, run_bind_eq_some, run_pure_eq_some, run_expect_eq_some] at h
  obtain ⟨p', ts₁, h₁, e', ts₂, ⟨e, rfl, he⟩, rfl, rfl⟩ := h
  obtain ⟨us, rfl, hus⟩ := (level_sound ts.length).1 _ _ _ h₁
  split_ifs at he with hv
  exact ⟨us, e, ts₂, rfl, hv, hus⟩

end Phrase

end Formula
