import Formula.Proofs.LiteralText

namespace Formula.Lexeme

def Parts (c : Char) : Prop := continuesName c = false ∧ c ≠ '.'

def Ends (cs : List Char) : Prop := ∀ c ∈ cs.head?, Parts c

/-- A text in place of another one behind a number. Both part, and a sign with a digit behind it stands only
where one stood before. -/
structure Alike (r r' : List Char) : Prop where
  ends : Ends r
  ends_new : Ends r'
  power : ∀ s k', r' = s :: k' → s = '+' ∨ s = '-' → ∀ d ∈ k'.head?, d.isDigit = true →
    ∃ k, r = s :: k ∧ ∃ e ∈ k.head?, e.isDigit = true

structure Digits (isDigit : Char → Bool) : Prop where
  within : ∀ c, isDigit c = true → continuesName c = true
  mark : isDigit '_' = false

/-- Only characters among the first ones have a value as digits. -/
theorem small_of_value {c : Char} (h : digitValue c < 16) : c.toNat < 128 := by
  by_contra hge
  have hnone : digitValue c = 36 := by
    have hdigit : c.isDigit = false := by
      by_contra hc
      have hbounds : 48 ≤ c.toNat ∧ c.toNat ≤ 57 :=
        Char.isDigit_iff_toNat.mp (by simpa using hc)
      omega
    have hlower : ¬ ('a' ≤ c ∧ c ≤ 'z') := fun h => hge (Nat.lt_of_le_of_lt h.2 (by decide))
    have hupper : ¬ ('A' ≤ c ∧ c ≤ 'Z') := fun h => hge (Nat.lt_of_le_of_lt h.2 (by decide))
    simp [digitValue, hdigit, hlower, hupper]
  omega

theorem digits_of_value {radix : Nat} (h : radix ≤ 16) : Digits (isDigitOf radix) := by
  refine ⟨fun c hc => ?_, ?_⟩
  · have hvalue : digitValue c < 16 := Nat.lt_of_lt_of_le (isDigitOf_iff.mp hc) h
    exact forall_char_lt (P := fun c => digitValue c < 16 → continuesName c = true) (by decide +kernel)
      (small_of_value hvalue) hvalue
  · have hmark : digitValue '_' = 36 := by decide
    simp [isDigitOf, hmark]
    omega

theorem digits_decimal : Digits Char.isDigit := by
  refine ⟨fun c hc => ?_, by decide⟩
  refine (digits_of_value (Nat.le_refl 16)).within c (isDigitOf_iff.mpr ?_)
  have hbounds : 48 ≤ c.toNat ∧ c.toNat ≤ 57 := Char.isDigit_iff_toNat.mp hc
  have hzero : '0'.toNat = 48 := rfl
  rw [digitValue, if_pos hc]
  omega

section DigitRun

variable {isDigit : Char → Bool} {r r' : List Char} (hdigits : Digits isDigit)

theorem digitRun_cons {d : Char} (hd : d ≠ '_') (cs : List Char) : digitRun isDigit (d :: cs) =
    if isDigit d then (d :: (digitRun isDigit cs).1, (digitRun isDigit cs).2) else ([], d :: cs) := by
  rw [digitRun]
  intro c cs' h
  exact absurd h hd

theorem digitRun_mark (d : Char) (cs : List Char) : digitRun isDigit ('_' :: d :: cs) =
    if isDigit d then ('_' :: d :: (digitRun isDigit cs).1, (digitRun isDigit cs).2)
    else ([], '_' :: d :: cs) := by
  rfl

include hdigits in
theorem Parts.not_digit {c : Char} (h : Parts c) : isDigit c = false := by
  by_contra hc
  have hname := hdigits.within c (by simpa using hc)
  rw [h.1] at hname
  cases hname

theorem Parts.ne_mark {c : Char} (h : Parts c) : c ≠ '_' := by
  rintro rfl
  exact absurd h.1 (by decide +kernel)

include hdigits in
/-- A run of digits does not go on into a text that parts, not even behind a mark. -/
theorem digitRun_parted (h : Ends r) :
    digitRun isDigit r = ([], r) ∧ digitRun isDigit ('_' :: r) = ([], '_' :: r) := by
  cases r with
  | nil =>
    refine ⟨rfl, ?_⟩
    rw [digitRun, hdigits.mark]
    · rfl
    · simp
  | cons c k =>
    have hparts : Parts c := h c rfl
    have hdigit := hparts.not_digit hdigits
    rw [digitRun_cons hparts.ne_mark, digitRun_mark, hdigit]
    exact ⟨rfl, rfl⟩

include hdigits in
/-- Where there are no digits before a text, there are none before one that is alike. -/
theorem no_digitRun_alike (h : Alike r r') {u : List Char}
    (hrun : (digitRun isDigit (u ++ r)).1 = []) : digitRun isDigit (u ++ r') = ([], u ++ r') := by
  obtain ⟨hparted, hmarked⟩ := digitRun_parted hdigits h.ends_new
  cases u with
  | nil => exact hparted
  | cons d u =>
    by_cases hd : d = '_'
    · subst hd
      cases u with
      | nil => exact hmarked
      | cons e u =>
        simp only [List.cons_append, digitRun_mark] at hrun ⊢
        split_ifs at hrun ⊢ with he
        rfl
    · simp only [List.cons_append, digitRun_cons hd] at hrun ⊢
      split_ifs at hrun ⊢ with hdigit
      rfl

include hdigits in
/-- The same digits are cut from before a text that is alike. -/
theorem digitRun_alike (h : Alike r r') {u : List Char} : ∀ {ds : List Char},
    digitRun isDigit (ds ++ (u ++ r)) = (ds, u ++ r) →
      digitRun isDigit (ds ++ (u ++ r')) = (ds, u ++ r')
  | [], hrun => no_digitRun_alike hdigits h (congrArg Prod.fst hrun)
  | d :: ds, hrun => by
    by_cases hd : d = '_'
    · subst hd
      cases ds with
      | nil =>
        exfalso
        rcases hrest : u ++ r with _ | ⟨e, cs⟩
        · rw [hrest] at hrun
          simp [digitRun, hdigits.mark] at hrun
        · rw [hrest, List.cons_append, List.nil_append, digitRun_mark] at hrun
          split_ifs at hrun <;> simp at hrun
      | cons e ds =>
        simp only [List.cons_append, digitRun_mark] at hrun ⊢
        split_ifs at hrun ⊢ with he
        · simp only [Prod.mk.injEq, List.cons.injEq, true_and] at hrun
          rw [digitRun_alike h (Prod.ext hrun.1 hrun.2)]
        · cases hrun
    · simp only [List.cons_append, digitRun_cons hd] at hrun ⊢
      split_ifs at hrun ⊢ with hdigit
      · simp only [Prod.mk.injEq, List.cons.injEq, true_and] at hrun
        rw [digitRun_alike h (Prod.ext hrun.1 hrun.2)]
      · cases hrun

include hdigits in
/-- Digits before a text that parts end before it. -/
theorem digitRun_within (h : Ends r) : ∀ u : List Char,
    ∃ v, (digitRun isDigit (u ++ r)).2 = v ++ r
  | [] => ⟨[], by rw [List.nil_append, (digitRun_parted hdigits h).1]⟩
  | d :: u => by
    by_cases hd : d = '_'
    · subst hd
      cases u with
      | nil => exact ⟨['_'], by rw [List.cons_append, List.nil_append, (digitRun_parted hdigits h).2]⟩
      | cons e u =>
        simp only [List.cons_append, digitRun_mark]
        split_ifs
        · exact digitRun_within h u
        · exact ⟨'_' :: e :: u, rfl⟩
    · simp only [List.cons_append, digitRun_cons hd]
      split_ifs
      · exact digitRun_within h u
      · exact ⟨d :: u, rfl⟩

end DigitRun

/-- With one text in place of another one behind it, a part cuts the same, or as before nothing. -/
structure Steady (r r' : List Char) (part : List Char → Option (List Char × List Char)) : Prop where
  kept : ∀ t u, part (t ++ (u ++ r)) = some (t, u ++ r) → part (t ++ (u ++ r')) = some (t, u ++ r')
  missing : ∀ u, part (u ++ r) = none → part (u ++ r') = none

section Steady

variable {r r' : List Char} {p q : List Char → Option (List Char × List Char)}

theorem Steady.or (hp : Steady r r' p) (hq : Steady r r' q) :
    Steady r r' fun cs => p cs <|> q cs := by
  constructor
  · intro t u h
    rcases hcut : p (t ++ (u ++ r)) with _ | result
    · have hnone := hp.missing (t ++ u) (by rwa [List.append_assoc])
      rw [List.append_assoc] at hnone
      simp only [hcut] at h
      simp only [hnone]
      exact hq.kept t u h
    · simp only [hcut] at h
      have hsome := hp.kept t u (hcut.trans h)
      simp only [hsome]
      rfl
  · intro u h
    rcases hcut : p (u ++ r) with _ | result
    · simp only [hcut] at h
      simp only [hp.missing u hcut]
      exact hq.missing u h
    · simp [hcut] at h

/-- What an optional part takes is taken alike. -/
theorem Steady.orNothing_steady (hp : Steady r r' p) {t u : List Char}
    (h : orNothing p (t ++ (u ++ r)) = (t, u ++ r)) :
    orNothing p (t ++ (u ++ r')) = (t, u ++ r') := by
  rw [orNothing] at h ⊢
  rcases hcut : p (t ++ (u ++ r)) with _ | result
  · rw [hcut] at h
    obtain rfl : [] = t := congrArg Prod.fst h
    have hnone := hp.missing u hcut
    simp only [List.nil_append, hnone, Option.getD_none]
  · rw [hcut, Option.getD_some] at h
    rw [hp.kept t u (hcut.trans (congrArg some h)), Option.getD_some]

/-- Digits are behind a text exactly where one starts it. -/
theorem decimals_missing {cs : List Char} :
    decimals? cs = none ↔ ∀ d ∈ cs.head?, d.isDigit = false := by
  cases cs with
  | nil => simp [decimals?]
  | cons d cs => simp [decimals?]

variable (h : Alike r r')

include h in
theorem steady_decimals : Steady r r' decimals? := by
  constructor
  · intro t u hcut
    cases t with
    | nil => exact absurd rfl (cuts_decimals _ _ _ hcut).2.1
    | cons d t =>
      simp only [List.cons_append, decimals?] at hcut ⊢
      split_ifs at hcut ⊢ with hd
      simp only [Option.some.injEq, Prod.mk.injEq, List.cons.injEq, true_and] at hcut
      rw [digitRun_alike digits_decimal h (Prod.ext hcut.1 hcut.2)]
  · intro u hcut
    cases u with
    | nil =>
      refine decimals_missing.mpr fun d hd => ?_
      exact (h.ends_new d hd).not_digit digits_decimal
    | cons d u =>
      simp only [List.cons_append, decimals?] at hcut ⊢
      split_ifs at hcut ⊢ with hd
      rfl

theorem letter_continuesName {e : Char} (he : e = 'e' ∨ e = 'E') : continuesName e = true := by
  rcases he with rfl | rfl <;> decide +kernel

include h in
theorem steady_exponent : Steady r r' exponent? := by
  have hdecimals := steady_decimals h
  constructor
  · rintro (_ | ⟨e, _ | ⟨s, t⟩⟩) u hcut
    · exact absurd rfl (cuts_exponent _ _ _ hcut).2.1
    · exfalso
      rcases hrest : u ++ r with _ | ⟨s, cs⟩
      · rw [hrest] at hcut
        cases hcut
      · rw [hrest, List.cons_append, List.nil_append, exponent?] at hcut
        split_ifs at hcut
        · obtain ⟨run, -, hrun⟩ := Option.map_eq_some_iff.mp hcut
          simp at hrun
        · obtain ⟨⟨run, rest⟩, hcut, hrun⟩ := Option.map_eq_some_iff.mp hcut
          obtain rfl : run = [] := (List.cons.inj (congrArg Prod.fst hrun)).2
          exact absurd rfl (cuts_decimals _ _ _ hcut).2.1
    · simp only [List.cons_append, exponent?] at hcut ⊢
      split_ifs at hcut ⊢ with he hs
      · obtain ⟨⟨run, rest⟩, hcut, hrun⟩ := Option.map_eq_some_iff.mp hcut
        simp only [Prod.mk.injEq, List.cons.injEq, true_and] at hrun
        obtain ⟨rfl, rfl⟩ := hrun
        rw [hdecimals.kept run u hcut]
        rfl
      · obtain ⟨⟨run, rest⟩, hcut, hrun⟩ := Option.map_eq_some_iff.mp hcut
        simp only [Prod.mk.injEq, List.cons.injEq, true_and] at hrun
        obtain ⟨rfl, rfl⟩ := hrun
        have hsome := hdecimals.kept (s :: t) u hcut
        rw [List.cons_append] at hsome
        rw [hsome]
        rfl
  · rintro (_ | ⟨e, _ | ⟨s, u⟩⟩) hcut
    · rw [List.nil_append]
      rcases r' with _ | ⟨c, _ | ⟨d, k'⟩⟩
      iterate 2 rfl
      have hletter : ¬ (c = 'e' ∨ c = 'E') := by
        intro hc
        have hname := (h.ends_new c rfl).1
        rw [letter_continuesName hc] at hname
        cases hname
      rw [exponent?, if_neg hletter]
    -- Behind a letter, a sign and digits make an exponent; a digit stands there only where one stood before.
    · rw [List.cons_append, List.nil_append]
      rcases r' with _ | ⟨s, k'⟩
      · rfl
      simp only [exponent?]
      split_ifs with he hs
      · rw [Option.map_eq_none_iff, decimals_missing]
        intro d hd
        by_contra hdigit
        obtain ⟨k, rfl, x, hx, hxdigit⟩ := h.power s k' rfl hs d hd (by simpa using hdigit)
        simp only [List.cons_append, List.nil_append, exponent?, if_pos he, if_pos hs, Option.map_eq_none_iff,
          decimals_missing] at hcut
        rw [hcut x hx] at hxdigit
        cases hxdigit
      · rw [Option.map_eq_none_iff, decimals_missing]
        intro d hd
        obtain rfl := Option.some.inj hd
        exact (h.ends_new s rfl).not_digit digits_decimal
      · rfl
    · simp only [List.cons_append, exponent?] at hcut ⊢
      split_ifs at hcut ⊢ with he hs
      · rw [Option.map_eq_none_iff] at hcut ⊢
        exact hdecimals.missing u hcut
      · rw [Option.map_eq_none_iff] at hcut ⊢
        exact hdecimals.missing (s :: u) hcut
      · rfl

def chained (p q : List Char → Option (List Char × List Char)) (cs : List Char) :
    Option (List Char × List Char) :=
  (p cs).bind fun (a, rest) => (q rest).map fun (b, rest) => (a ++ b, rest)

def perhaps (p : List Char → Option (List Char × List Char)) (cs : List Char) :
    Option (List Char × List Char) := some (orNothing p cs)

def single (kind : Char → Bool) : List Char → Option (List Char × List Char)
  | c :: cs => if kind c then some ([c], cs) else none
  | [] => none

def digits (isDigit : Char → Bool) (cs : List Char) : Option (List Char × List Char) :=
  if (digitRun isDigit cs).1 = [] then none else some (digitRun isDigit cs)

def Cuts (part : List Char → Option (List Char × List Char)) : Prop :=
  ∀ cs t rest, part cs = some (t, rest) → cs = t ++ rest

def Keeps (r : List Char) (part : List Char → Option (List Char × List Char)) : Prop :=
  ∀ u t rest, part (u ++ r) = some (t, rest) → ∃ v, u = t ++ v ∧ rest = v ++ r

theorem CutsQuiet.cuts (hp : CutsQuiet p) : Cuts p := fun cs t rest h => (hp cs t rest h).1

theorem CutsQuiet.perhaps_cuts (hp : CutsQuiet p) : Cuts (perhaps p) := by
  intro cs t rest h
  have htext := (hp.orNothing_cuts cs).1
  rw [Option.some.inj h] at htext
  exact htext.symm

theorem Cuts.chained (hp : Cuts p) (hq : Cuts q) : Cuts (chained p q) := by
  intro cs t rest h
  obtain ⟨⟨a, mid⟩, ha, h⟩ := Option.bind_eq_some_iff.mp h
  obtain ⟨⟨b, rest'⟩, hb, he⟩ := Option.map_eq_some_iff.mp h
  obtain ⟨rfl, rfl⟩ := Prod.mk.inj he
  rw [hp _ _ _ ha, hq _ _ _ hb, List.append_assoc]

/-- Where what is left of a text ends as the text does, the part ends before that end. -/
theorem Cuts.keeps (hp : Cuts p) (hwithin : ∀ u t rest, p (u ++ r) = some (t, rest) →
    ∃ v, rest = v ++ r) : Keeps r p := by
  intro u t rest h
  obtain ⟨v, rfl⟩ := hwithin u t rest h
  have htext := hp _ _ _ h
  rw [← List.append_assoc] at htext
  exact ⟨v, List.append_cancel_right htext, rfl⟩

theorem Steady.chained (hp : Steady r r' p) (hkeeps : Keeps r p) (hcuts : Cuts q)
    (hq : Steady r r' q) : Steady r r' (chained p q) := by
  constructor
  · intro t u h
    obtain ⟨⟨a, rest⟩, ha, h⟩ := Option.bind_eq_some_iff.mp h
    obtain ⟨⟨b, rest'⟩, hb, he⟩ := Option.map_eq_some_iff.mp h
    obtain ⟨rfl, rfl⟩ := Prod.mk.inj he
    obtain rfl := hcuts _ _ _ hb
    have ha' := hp.kept a (b ++ u) (by simpa using ha)
    have hb' := hq.kept b u hb
    refine Option.bind_eq_some_iff.mpr ⟨(a, b ++ (u ++ r')), by simpa using ha', ?_⟩
    exact Option.map_eq_some_iff.mpr ⟨_, hb', rfl⟩
  · intro u h
    rcases hcut : p (u ++ r) with _ | ⟨a, rest⟩
    · rw [Lexeme.chained, hp.missing u hcut]
      rfl
    · obtain ⟨v, rfl, rfl⟩ := hkeeps u a rest hcut
      rw [Lexeme.chained, hcut, Option.bind_some, Option.map_eq_none_iff] at h
      have ha' := hp.kept a v (by simpa using hcut)
      simp only [Lexeme.chained, List.append_assoc, ha', Option.bind_some, hq.missing v h]
      rfl

theorem Steady.perhaps (hp : Steady r r' p) : Steady r r' (perhaps p) := by
  refine ⟨fun t u h => ?_, fun u h => by cases h⟩
  exact congrArg some (hp.orNothing_steady (Option.some.inj h))

theorem Keeps.perhaps (hp : Keeps r p) : Keeps r (perhaps p) := by
  intro u t rest h
  have hpart := Option.some.inj h
  rw [orNothing] at hpart
  rcases hcut : p (u ++ r) with _ | ⟨t', rest'⟩
  · rw [hcut] at hpart
    obtain ⟨rfl, rfl⟩ := Prod.mk.inj hpart
    exact ⟨u, rfl, rfl⟩
  · rw [hcut] at hpart
    obtain ⟨rfl, rfl⟩ := Prod.mk.inj hpart
    exact hp u t' rest' hcut

theorem single_eq_some {kind : Char → Bool} {cs t rest : List Char} :
    single kind cs = some (t, rest) ↔ ∃ c, cs = c :: rest ∧ t = [c] ∧ kind c = true := by
  cases cs with
  | nil => simp [single]
  | cons c cs =>
    rw [single]
    split_ifs with hc
    · constructor
      · rintro ⟨⟩
        exact ⟨c, rfl, rfl, hc⟩
      · rintro ⟨d, ⟨⟩, rfl, -⟩
        rfl
    · refine iff_of_false nofun ?_
      rintro ⟨d, ⟨⟩, -, hd⟩
      exact hc hd

theorem single_missing {kind : Char → Bool} {cs : List Char} :
    single kind cs = none ↔ ∀ c ∈ cs.head?, kind c = false := by
  cases cs with
  | nil => simp [single]
  | cons c cs => simp [single]

theorem cuts_single (kind : Char → Bool) : Cuts (single kind) := by
  intro cs t rest h
  obtain ⟨c, rfl, rfl, -⟩ := single_eq_some.mp h
  rfl

theorem keeps_single {kind : Char → Bool} (hkind : ∀ c ∈ r.head?, kind c = false) :
    Keeps r (single kind) := by
  refine (cuts_single kind).keeps fun u t rest h => ?_
  obtain ⟨c, hcs, -, hc⟩ := single_eq_some.mp h
  cases u with
  | nil =>
    have hnone := hkind c (by simp_all)
    rw [hc] at hnone
    cases hnone
  | cons d u => exact ⟨u, (List.cons.inj hcs).2.symm⟩

theorem steady_single {kind : Char → Bool} (hkind : ∀ c ∈ r'.head?, kind c = false) :
    Steady r r' (single kind) := by
  constructor
  · intro t u h
    obtain ⟨c, -, rfl, hc⟩ := single_eq_some.mp h
    exact single_eq_some.mpr ⟨c, rfl, rfl, hc⟩
  · intro u h
    rw [single_missing] at h ⊢
    cases u with
    | nil => exact hkind
    | cons c u => exact h

theorem cuts_digits (isDigit : Char → Bool) : Cuts (digits isDigit) := by
  intro cs t rest h
  rw [digits] at h
  split_ifs at h
  have htext := digitRun_text isDigit cs
  rw [Option.some.inj h] at htext
  exact htext.symm

theorem steady_digits {isDigit : Char → Bool} (hdigits : Digits isDigit) (h : Alike r r') :
    Steady r r' (digits isDigit) := by
  constructor
  · intro t u hcut
    rw [digits] at hcut ⊢
    split_ifs at hcut with hnil
    have hrun : digitRun isDigit (t ++ (u ++ r)) = (t, u ++ r) := Option.some.inj hcut
    have hrun' := digitRun_alike hdigits h hrun
    rw [hrun] at hnil
    rw [hrun', if_neg hnil]
  · intro u hcut
    rw [digits] at hcut ⊢
    split_ifs at hcut with hnil
    rw [no_digitRun_alike hdigits h hnil, if_pos rfl]

theorem keeps_decimals (h : Ends r) : Keeps r decimals? := by
  refine cuts_decimals.cuts.keeps fun u t rest hcut => ?_
  cases u with
  | nil =>
    have hnone : decimals? r = none :=
      decimals_missing.mpr fun d hd => (h d hd).not_digit digits_decimal
    rw [List.nil_append, hnone] at hcut
    cases hcut
  | cons d u =>
    rw [List.cons_append, decimals?] at hcut
    split_ifs at hcut
    obtain ⟨-, rfl⟩ := Prod.mk.inj (Option.some.inj hcut)
    exact digitRun_within digits_decimal h u

def isPoint (c : Char) : Bool := c = '.'

theorem chained_none {cs : List Char} (h : p cs = none) : chained p q cs = none := by
  rw [chained, h]
  rfl

theorem chained_some {cs a rest : List Char} (h : p cs = some (a, rest)) :
    chained p q cs = (q rest).map fun (b, rest) => (a ++ b, rest) := by
  rw [chained, h]
  rfl

theorem point_missing {c : Char} (hc : c ≠ '.') (cs : List Char) :
    single isPoint (c :: cs) = none := by
  simp [single, isPoint, hc]

theorem point_read (cs : List Char) : single isPoint ('.' :: cs) = some (['.'], cs) := rfl

/-- A float in parts. -/
theorem float_parts (cs : List Char) : float? cs =
    (chained decimals? (chained (single isPoint) (chained (perhaps decimals?) (perhaps exponent?))) cs
      <|> chained decimals? exponent? cs
      <|> chained (single isPoint) (chained decimals? (perhaps exponent?)) cs) := by
  unfold float?
  rcases hw : decimals? cs with _ | ⟨whole, rest⟩
  · rw [chained_none hw, chained_none hw]
    rcases cs with _ | ⟨c, cs⟩
    · rfl
    · by_cases hc : c = '.'
      · subst hc
        rw [chained_some (point_read cs)]
        rcases hf : decimals? cs with _ | ⟨fraction, rest⟩
        · rw [chained_none hf]
          simp [hf]
        · rw [chained_some hf]
          simp [hf, perhaps]
      · rw [chained_none (point_missing hc cs)]
        simp [hc]
  · have hpoint : single isPoint cs = none := by
      refine single_missing.mpr fun c hc => ?_
      by_contra hpoint
      obtain rfl : c = '.' := by simpa [isPoint] using hpoint
      have hnone : decimals? cs = none := by
        refine decimals_missing.mpr fun d hd => ?_
        obtain rfl := Option.mem_unique hc hd
        rfl
      rw [hw] at hnone
      cases hnone
    rw [chained_none (p := single isPoint) hpoint, chained_some hw, chained_some hw]
    rcases rest with _ | ⟨c, rest⟩
    · rfl
    · by_cases hc : c = '.'
      · subst hc
        rw [chained_some (point_read rest)]
        simp [chained, perhaps]
      · rw [chained_none (point_missing hc rest)]
        simp [hc]

theorem steady_float (h : Alike r r') : Steady r r' float? := by
  have hpoint (cs : List Char) (hends : Ends cs) : ∀ c ∈ cs.head?, isPoint c = false :=
    fun c hc => decide_eq_false (hends c hc).2
  have hsingle : Steady r r' (single isPoint) := steady_single (hpoint r' h.ends_new)
  have hkeeps : Keeps r (single isPoint) := keeps_single (hpoint r h.ends)
  have hdecimals := steady_decimals h
  have hkept := keeps_decimals h.ends
  have hexponent := steady_exponent h
  have hcuts := cuts_exponent.perhaps_cuts
  have hpower := hdecimals.perhaps.chained hkept.perhaps hcuts hexponent.perhaps
  have hpowerCuts := cuts_decimals.perhaps_cuts.chained hcuts
  have hpointed := hsingle.chained hkeeps hpowerCuts hpower
  have hwhole := hdecimals.chained hkept ((cuts_single isPoint).chained hpowerCuts) hpointed
  have hscaled := hdecimals.chained hkept cuts_exponent.cuts hexponent
  have hfraction := hdecimals.chained hkept hcuts hexponent.perhaps
  have hbare := hsingle.chained hkeeps (cuts_decimals.cuts.chained hcuts) hfraction
  rw [funext float_parts]
  exact hwhole.or (hscaled.or hbare)

/-- An integer with a radix mark in parts. -/
theorem marked_parts (mark isDigit : Char → Bool) :
    marked? mark isDigit = chained (single (· = '0')) (chained (single mark) (digits isDigit)) := by
  funext cs
  rcases cs with _ | ⟨z, cs⟩
  · rfl
  · by_cases hz : z = '0'
    · subst hz
      rw [chained_some (show single (· = '0') ('0' :: cs) = some (['0'], cs) from rfl)]
      rcases cs with _ | ⟨x, cs⟩
      · rfl
      · by_cases hx : mark x = true
        · have hmark : single mark (x :: cs) = some ([x], cs) := by rw [single, if_pos hx]
          rw [chained_some hmark, marked?, if_pos hx, digits]
          rcases digitRun isDigit cs with ⟨_ | ⟨d, run⟩, rest⟩ <;> rfl
        · have hmark : single mark (x :: cs) = none := by rw [single, if_neg hx]
          rw [chained_none hmark, marked?, if_neg hx]
          rfl
    · have hzero : single (· = '0') (z :: cs) = none := by simp [single, hz]
      rw [chained_none hzero]
      simp [marked?, hz]

theorem oldOctal_parts : oldOctal? = chained (single (· = '0')) (digits (isDigitOf 8)) := by
  funext cs
  rcases cs with _ | ⟨z, cs⟩
  · rfl
  · by_cases hz : z = '0'
    · subst hz
      rw [chained_some (show single (· = '0') ('0' :: cs) = some (['0'], cs) from rfl), oldOctal?, digits]
      rcases digitRun (isDigitOf 8) cs with ⟨_ | ⟨d, run⟩, rest⟩ <;> rfl
    · have hzero : single (· = '0') (z :: cs) = none := by simp [single, hz]
      rw [chained_none hzero]
      simp [oldOctal?, hz]

theorem plain_parts (cs : List Char) : plain? cs = (single (· = '0') cs <|> decimals? cs) := by
  rcases cs with _ | ⟨z, cs⟩
  · rfl
  · by_cases hz : z = '0'
    · subst hz
      rfl
    · have hzero : single (· = '0') (z :: cs) = none := by simp [single, hz]
      rw [hzero]
      simp [plain?, hz]

theorem steady_int (h : Alike r r') : Steady r r' int? := by
  have hname {kind : Char → Bool} (hkind : ∀ c, kind c = true → continuesName c = true)
      {cs : List Char} (hends : Ends cs) : ∀ c ∈ cs.head?, kind c = false := by
    intro c hc
    by_contra hk
    have hparts := (hends c hc).1
    rw [hkind c (by simpa using hk)] at hparts
    cases hparts
  -- All characters that integers are made of may stand in names, and so none follows what parts.
  have hzero (c : Char) (hc : decide (c = '0') = true) : continuesName c = true := by
    obtain rfl := of_decide_eq_true hc
    decide +kernel
  have hsingle : Steady r r' (single (· = '0')) := steady_single (hname hzero h.ends_new)
  have hkeeps : Keeps r (single (· = '0')) := keeps_single (hname hzero h.ends)
  have hmarked {a b : Char} {n : Nat} (ha : continuesName a = true) (hb : continuesName b = true)
      (hn : n ≤ 16) : Steady r r' (marked? (fun x => x = a ∨ x = b) (isDigitOf n)) := by
    have hdigits := digits_of_value hn
    have hmark (c : Char) (hc : decide (c = a ∨ c = b) = true) : continuesName c = true := by
      rcases of_decide_eq_true hc with rfl | rfl <;> assumption
    rw [marked_parts]
    refine hsingle.chained hkeeps ((cuts_single _).chained (cuts_digits _)) ?_
    exact (steady_single (hname hmark h.ends_new)).chained (keeps_single (hname hmark h.ends))
      (cuts_digits _) (steady_digits hdigits h)
  have hoctal : Steady r r' oldOctal? := by
    rw [oldOctal_parts]
    exact hsingle.chained hkeeps (cuts_digits _) (steady_digits (digits_of_value (by decide)) h)
  have hplain : Steady r r' plain? := by
    rw [funext plain_parts]
    exact hsingle.or (steady_decimals h)
  have hhexadecimal := hmarked (a := 'x') (b := 'X') (n := 16) (by decide +kernel) (by decide +kernel) (by decide)
  have hbinary := hmarked (a := 'b') (b := 'B') (n := 2) (by decide +kernel) (by decide +kernel) (by decide)
  have hmarkedOctal := hmarked (a := 'o') (b := 'O') (n := 8) (by decide +kernel) (by decide +kernel) (by decide)
  exact hhexadecimal.or (hbinary.or (hmarkedOctal.or (hoctal.or hplain)))

end Steady

end Formula.Lexeme
