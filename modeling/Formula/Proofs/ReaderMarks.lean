import Formula.Phrase.Reading
import Mathlib.Tactic.Common

namespace Formula

def Trace.Within (P : Nat → Prop) : Trace → Prop
  | nothing => True
  | both a b => a.Within P ∧ b.Within P
  | missed _ position => P position
  | failed _ position inner => P position ∧ inner.Within P

theorem Furthest.note_within {P : Nat → Prop} {f : Furthest} {position : Nat} (goals : List Goal)
    (hf : P f.position) (hp : P position) : P (f.note goals position).position := by
  rw [note]
  split_ifs
  · exact hp
  · exact hp
  · exact hf

theorem Furthest.keep_position (f : Furthest) (position n : Nat) :
    (f.keep position n).position = f.position := by
  rw [keep]
  split_ifs with h
  · exact h.symm
  · rfl

/-- The furthest place of a trace is one of its positions, or the one that was known before. -/
theorem Trace.reach_within {P : Nat → Prop} {trace : Trace} (h : trace.Within P) {f : Furthest}
    (hf : P f.position) : P (trace.reach f).position := by
  induction trace generalizing f with
  | nothing => exact hf
  | both a b iha ihb => exact ihb h.2 (iha h.1 hf)
  | missed goals position => exact Furthest.note_within goals hf h
  | failed goal position inner ih =>
    have hinner := ih h.2 hf
    simp only [reach]
    split_ifs
    · exact hinner
    · apply Furthest.note_within _ _ h.1
      rw [Furthest.keep_position]
      exact hinner

namespace Parser

def StartsIn (P : Nat → Prop) (ts : List Token) : Prop := ∀ t ∈ ts, P t.span.start

/-- Where the tokens start in a set of places, a reader leaves its marks there, and tokens that start
there. -/
def Marks {α : Type} (P : Nat → Prop) (p : Parser α) : Prop :=
  ∀ ts, StartsIn P ts → (p.parse ts).2.Within P ∧ ∀ r ∈ (p.parse ts).1, StartsIn P r.2

variable {α β : Type} {P : Nat → Prop}

theorem marks_pure (a : α) : Marks P (pure a) := by
  intro ts hts
  refine ⟨trivial, fun r hr => ?_⟩
  obtain rfl := Option.some.inj hr
  exact hts

theorem marks_fail : Marks P (fail : Parser α) :=
  fun _ _ => ⟨trivial, fun _ hr => nomatch hr⟩

theorem marks_here : Marks P here := by
  intro ts hts
  refine ⟨trivial, fun r hr => ?_⟩
  obtain rfl := Option.some.inj hr
  exact hts

theorem marks_bind {p : Parser α} {f : α → Parser β} (hp : Marks P p) (hf : ∀ a, Marks P (f a)) :
    Marks P (p >>= f) := by
  intro ts hts
  change ((Parser.bind p f).parse ts).2.Within P ∧ ∀ r ∈ ((Parser.bind p f).parse ts).1, _
  obtain ⟨htrace, hrest⟩ := hp ts hts
  simp only [Parser.bind]
  rcases h : p.parse ts with ⟨_ | ⟨a, rest⟩, trace⟩
  · rw [h] at htrace
    exact ⟨htrace, fun _ hr => nomatch hr⟩
  · rw [h] at htrace hrest
    obtain ⟨htrace', hrest'⟩ := hf a rest (hrest (a, rest) rfl)
    exact ⟨⟨htrace, htrace'⟩, hrest'⟩

theorem marks_orElse {p q : Parser α} (hp : Marks P p) (hq : Marks P q) : Marks P (p <|> q) := by
  intro ts hts
  change ((Parser.orElse p fun _ => q).parse ts).2.Within P ∧
    ∀ r ∈ ((Parser.orElse p fun _ => q).parse ts).1, _
  obtain ⟨htrace, hrest⟩ := hp ts hts
  simp only [Parser.orElse]
  rcases h : p.parse ts with ⟨_ | result, trace⟩
  · rw [h] at htrace
    obtain ⟨htrace', hrest'⟩ := hq ts hts
    exact ⟨⟨htrace, htrace'⟩, hrest'⟩
  · rw [h] at htrace hrest
    exact ⟨htrace, hrest⟩

theorem marks_optional {p : Parser α} (hp : Marks P p) : Marks P (optional p) := by
  intro ts hts
  obtain ⟨htrace, hrest⟩ := hp ts hts
  simp only [optional]
  rcases h : p.parse ts with ⟨_ | ⟨a, rest⟩, trace⟩
  · rw [h] at htrace
    refine ⟨htrace, fun r hr => ?_⟩
    obtain rfl := Option.some.inj hr
    exact hts
  · rw [h] at htrace hrest
    refine ⟨htrace, fun r hr => ?_⟩
    obtain rfl := Option.some.inj hr
    exact hrest (a, rest) rfl

theorem marks_many {p : Parser α} (hp : Marks P p) : Marks P (many p) := by
  have turns : ∀ n ts, StartsIn P ts →
      (manyUpTo n p ts).2.Within P ∧ StartsIn P (manyUpTo n p ts).1.2 := by
    intro n
    induction n with
    | zero => exact fun ts hts => ⟨trivial, hts⟩
    | succ n ih =>
      intro ts hts
      obtain ⟨htrace, hrest⟩ := hp ts hts
      simp only [manyUpTo]
      rcases h : p.parse ts with ⟨_ | ⟨a, rest⟩, trace⟩
      · rw [h] at htrace
        exact ⟨htrace, hts⟩
      · rw [h] at htrace hrest
        obtain ⟨htrace', hrest'⟩ := ih rest (hrest (a, rest) rfl)
        exact ⟨⟨htrace, htrace'⟩, hrest'⟩
  intro ts hts
  obtain ⟨htrace, hrest⟩ := turns ts.length ts hts
  refine ⟨htrace, fun r hr => ?_⟩
  obtain rfl := Option.some.inj hr
  exact hrest

theorem marks_sign (s : Symbol) : Marks P (sign s) := by
  intro ts hts
  cases ts with
  | nil => exact ⟨trivial, fun _ hr => nomatch hr⟩
  | cons t ts =>
    refine ⟨trivial, fun r hr => ?_⟩
    simp only [sign] at hr
    split_ifs at hr
    · obtain rfl := Option.some.inj hr
      exact fun u hu => hts u (List.mem_cons_of_mem t hu)
    · cases hr

theorem marks_commaList {p : Parser α} (hp : Marks P p) : Marks P (commaList p) := by
  apply marks_bind hp
  intro first
  apply marks_bind (marks_many (marks_bind (marks_sign _) fun _ => hp))
  intro more
  exact marks_bind (marks_optional (marks_sign _)) fun _ => marks_pure _

section Start

variable (hzero : P 0)

include hzero in
theorem start_in {ts : List Token} (hts : StartsIn P ts) : P (startOf ts) := by
  cases ts with
  | nil => exact hzero
  | cons t ts => exact hts t List.mem_cons_self

include hzero in
theorem marks_goal (g : Goal) {p : Parser α} (hp : Marks P p) : Marks P (goal g p) := by
  intro ts hts
  obtain ⟨htrace, hrest⟩ := hp ts hts
  simp only [goal]
  rcases h : p.parse ts with ⟨_ | result, trace⟩
  · rw [h] at htrace
    exact ⟨⟨start_in hzero hts, htrace⟩, fun _ hr => nomatch hr⟩
  · rw [h] at htrace hrest
    exact ⟨htrace, hrest⟩

include hzero in
theorem marks_expect (goals : List Goal) (f : Token → Option α) : Marks P (expect goals f) := by
  intro ts hts
  cases ts with
  | nil => exact ⟨hzero, fun _ hr => nomatch hr⟩
  | cons t ts =>
    simp only [expect]
    cases f t with
    | none => exact ⟨hts t List.mem_cons_self, fun _ hr => nomatch hr⟩
    | some a =>
      refine ⟨trivial, fun r hr => ?_⟩
      obtain rfl := Option.some.inj hr
      exact fun u hu => hts u (List.mem_cons_of_mem t hu)

end Start

end Parser

open Formula.Parser

namespace Phrase

variable {P : Nat → Prop} (hzero : P 0)

include hzero in
theorem marks_infixOp : Marks P infixOp := by
  intro ts hts
  have behind {a : Placed InfixOp} {t : Token} {rest : List Token}
      (h : StartsIn P (t :: rest)) : Trace.nothing.Within P ∧
        ∀ r ∈ (some (a, rest) : Option (Placed InfixOp × List Token)), StartsIn P r.2 := by
    refine ⟨trivial, fun r hr => ?_⟩
    obtain rfl := Option.some.inj hr
    exact fun u hu => h u (List.mem_cons_of_mem t hu)
  simp only [infixOp]
  split
  · exact ⟨hzero, fun _ hr => nomatch hr⟩
  · next t rest =>
    split
    · split
      · next u rest' =>
        split_ifs
        · exact behind fun v hv => hts v (List.mem_cons_of_mem t hv)
        · exact behind hts
      · exact behind hts
    · exact behind hts
    · exact ⟨hts t List.mem_cons_self, fun _ hr => nomatch hr⟩

include hzero in
theorem marks_qualifiedName : Marks P qualifiedName := by
  apply marks_goal hzero
  intro ts hts
  simp only
  split
  · next t d u rest =>
    split
    · split_ifs
      · refine ⟨trivial, fun r hr => ?_⟩
        obtain rfl := Option.some.inj hr
        exact fun v hv => hts v (by simp [hv])
      · exact ⟨trivial, fun _ hr => nomatch hr⟩
    · exact ⟨trivial, fun _ hr => nomatch hr⟩
  · exact ⟨trivial, fun _ hr => nomatch hr⟩

namespace Level

variable {below : Level} (hphrase : Marks P below.phrase) (htype : Marks P below.type)

include hzero hphrase htype in
theorem marks_compositeType : Marks P (compositeType below) := by
  have hmap : Marks P (mapType below) := marks_goal hzero _ <|
    marks_bind (marks_expect hzero _ _) fun _ => marks_bind (marks_sign _) fun _ =>
      marks_bind htype fun _ => marks_bind (marks_sign _) fun _ =>
        marks_bind htype fun _ => marks_pure _
  have hslice : Marks P (sliceType below) := marks_goal hzero _ <|
    marks_bind (marks_sign _) fun _ => marks_bind (marks_sign _) fun _ =>
      marks_bind htype fun _ => marks_pure _
  have hlength : Marks P ((do
      let _ ← goal .ellipsis (sign .ellipsis)
      return none) <|> (do
      let length ← below.phrase
      return some length) : Parser (Option Phrase)) :=
    marks_orElse (marks_bind (marks_goal hzero _ (marks_sign _)) fun _ => marks_pure _)
      (marks_bind hphrase fun _ => marks_pure _)
  have harray : Marks P (arrayType below) := marks_goal hzero _ <|
    marks_bind (marks_sign _) fun _ => marks_bind hlength fun _ => marks_bind (marks_sign _) fun _ =>
      marks_bind htype fun _ => marks_pure _
  exact marks_orElse hmap (marks_orElse hslice harray)

include hzero hphrase htype in
theorem marks_anyType : Marks P (anyType below) := by
  have hpointer : Marks P (pointerType below) := marks_goal hzero _ <|
    marks_bind (marks_sign _) fun _ => marks_bind htype fun _ => marks_pure _
  have hname : Marks P namedType := marks_bind (marks_expect hzero _ _) fun _ => marks_pure _
  exact marks_goal hzero _ <| marks_orElse (marks_compositeType hzero hphrase htype) <|
    marks_orElse hpointer <| marks_orElse (marks_qualifiedName hzero) hname

include hzero hphrase in
theorem marks_element : Marks P (element below) :=
  marks_goal hzero _ <| marks_bind marks_here fun _ => marks_bind hphrase fun _ =>
    marks_bind (marks_optional (marks_bind (marks_sign _) fun _ => hphrase)) fun _ => marks_pure _

include hzero hphrase htype in
theorem marks_operand : Marks P (operand below) := by
  have hcomposite : Marks P (composite below) := marks_goal hzero _ <|
    marks_bind marks_here fun _ => marks_bind (marks_compositeType hzero hphrase htype) fun _ =>
      marks_bind (marks_sign _) fun _ =>
        marks_bind (marks_optional (marks_commaList (marks_element hzero hphrase))) fun _ =>
          marks_bind (marks_sign _) fun _ => marks_pure _
  have hcall : Marks P (call below) := marks_goal hzero _ <|
    marks_bind (marks_expect hzero _ _) fun _ => marks_bind (marks_sign _) fun _ =>
      marks_bind (marks_optional (marks_commaList hphrase)) fun _ =>
        marks_bind (marks_sign _) fun _ => marks_pure _
  have hgroup : Marks P (group below) := marks_goal hzero _ <|
    marks_bind (marks_sign _) fun _ => marks_bind hphrase fun _ =>
      marks_bind (marks_sign _) fun _ => marks_pure _
  have hindex : Marks P (index below) := marks_goal hzero _ <|
    marks_bind (marks_sign _) fun _ => marks_bind hphrase fun _ =>
      marks_bind (marks_sign _) fun _ => marks_pure _
  have hprimary : Marks P (composite below <|> call below <|> group below <|> atom) :=
    marks_orElse hcomposite <| marks_orElse hcall <| marks_orElse hgroup <|
      marks_expect hzero _ _
  exact marks_bind (marks_many (marks_expect hzero _ _)) fun _ => marks_bind hprimary fun _ =>
    marks_bind (marks_many hindex) fun _ => marks_pure _

include hzero hphrase htype in
theorem marks_anyPhrase : Marks P (anyPhrase below) := by
  have hoperand := marks_operand hzero hphrase htype
  exact marks_goal hzero _ <| marks_bind hoperand fun _ =>
    marks_bind (marks_many (marks_bind (marks_infixOp hzero) fun _ => marks_bind hoperand fun _ =>
      marks_pure _)) fun _ => marks_bind marks_here fun _ => marks_pure _

end Level

include hzero in
theorem marks_level (n : Nat) : Marks P (level n).phrase ∧ Marks P (level n).type := by
  induction n with
  | zero => exact ⟨marks_fail, marks_fail⟩
  | succ n ih =>
    exact ⟨Level.marks_anyPhrase hzero ih.1 ih.2, Level.marks_anyType hzero ih.1 ih.2⟩

def IsStart (ts : List Token) (n : Nat) : Prop := n = 0 ∨ ∃ t ∈ ts, t.span.start = n

/-- The furthest place that a reading of tokens reaches is where one of them starts, or the start of the
text. -/
theorem furthest_position (ts : List Token) :
    IsStart ts (furthest ts).position := by
  have hzero : IsStart ts 0 := .inl rfl
  have hwhole : Marks (IsStart ts) (whole ts) := marks_bind (marks_level hzero ts.length).1 fun _ =>
    marks_bind (marks_expect hzero _ _) fun _ => marks_pure _
  have hstarts : StartsIn (IsStart ts) ts := fun t ht => .inr ⟨t, ht, rfl⟩
  exact Trace.reach_within (hwhole ts hstarts).1 hzero

end Phrase

end Formula
