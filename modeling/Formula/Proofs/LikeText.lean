import Formula.Proofs.NumberText

namespace Formula.Lexeme

def unnamed : List Char :=
  ['+', '-', '*', '/', '%', '&', '|', '^', '<', '>', '=', '!', '(', ')', '[', ']', '\x7b', '\x7d', ',', ':', '.',
    ' ', '\t', '\r', '\n']

theorem unnamed_starts_no_name {c : Char} (h : c ∈ unnamed) : startsName c = false := by
  have hall : unnamed.all (!startsName ·) = true := by decide +kernel
  simpa using List.all_eq_true.mp hall c h

def spaces : List Char := [' ', '\t', '\r', '\n']

def Fixed (c : Char) : Prop := startsName c = false ∧ c ∉ spaces

theorem unnamed_fixed {c : Char} (h : c ∈ unnamed) (hspaces : c ∉ spaces) : Fixed c :=
  ⟨unnamed_starts_no_name h, hspaces⟩

/-- A text in which names have become other names, and whose end may have been cut off. -/
inductive Like : List Char → List Char → Prop
  | cut {cs} : Like cs []
  | keep (c : Char) {cs cs'} (h : Like cs cs') : Like (c :: cs) (c :: cs')
  | name {n n' cs cs'} (hn : IsName n) (hn' : IsName n') (h : Like cs cs') : Like (n ++ cs) (n' ++ cs')

namespace Like

variable {cs cs' : List Char}

theorem append (text : List Char) (h : Like cs cs') : Like (text ++ cs) (text ++ cs') := by
  induction text with
  | nil => exact h
  | cons c text ih => exact .keep c ih

/-- The text starts as before, or with another name in place of one. -/
theorem head (h : Like cs cs') : cs' = [] ∨ ∃ c k c' k', cs = c :: k ∧ cs' = c' :: k' ∧
    (c' = c ∧ Like k k' ∨ startsName c = true ∧ startsName c' = true) := by
  cases h with
  | cut => exact .inl rfl
  | @keep c k k' h => exact .inr ⟨c, k, c, k', rfl, rfl, .inl ⟨rfl, h⟩⟩
  | name hn hn' h =>
    obtain ⟨c, k, rfl, hc, -⟩ := isName_iff.mp hn
    obtain ⟨c', k', rfl, hc', -⟩ := isName_iff.mp hn'
    exact .inr ⟨c, _, c', _, rfl, rfl, .inr ⟨hc, hc'⟩⟩

/-- A character that starts no name has stood where it stands. -/
theorem stood {c : Char} {k' : List Char} (h : Like cs (c :: k')) (hc : startsName c = false) :
    ∃ k, cs = c :: k ∧ Like k k' := by
  rcases h.head with hnil | ⟨d, k, d', k'', rfl, hcons, ⟨rfl, hlike⟩ | ⟨-, hname⟩⟩
  · cases hnil
  · obtain ⟨rfl, rfl⟩ := List.cons.inj hcons
    exact ⟨k, rfl, hlike⟩
  · obtain ⟨rfl, rfl⟩ := List.cons.inj hcons
    rw [hc] at hname
    cases hname

/-- What ends a name still ends it. -/
theorem ends_name (h : Like cs cs') (hends : ∀ c ∈ cs.head?, continuesName c = false) :
    ∀ c ∈ cs'.head?, continuesName c = false := by
  rcases h.head with rfl | ⟨c, k, c', k', rfl, rfl, ⟨rfl, -⟩ | ⟨hname, -⟩⟩
  · exact nofun
  · exact hends
  · have hcontinues := hends c rfl
    simp [continuesName, hname] at hcontinues

/-- What parts still does. -/
theorem ends (h : Like cs cs') (hends : Ends cs) : Ends cs' := by
  rcases h.head with rfl | ⟨c, k, c', k', rfl, rfl, ⟨rfl, -⟩ | ⟨hname, -⟩⟩
  · exact nofun
  · exact hends
  · have hcontinues := (hends c rfl).1
    simp [continuesName, hname] at hcontinues

end Like

section Trivia

variable {cs cs' text rest rest' : List Char}

/-- A character that closes no comment together with the one behind it is passed over. -/
theorem closeComment_cons {c : Char} (h : ¬ (c = '*' ∧ cs.head? = some '/')) :
    closeComment (c :: cs) = (closeComment cs).map fun (text, rest) => (c :: text, rest) := by
  rw [closeComment]
  rintro cs' rfl rfl
  exact h ⟨rfl, rfl⟩

theorem closeComment_ne_nil (h : closeComment cs = some (text, rest)) : text ≠ [] := by
  rintro rfl
  cases cs with
  | nil => cases h
  | cons c cs =>
    by_cases hclose : c = '*' ∧ cs.head? = some '/'
    · obtain ⟨rfl, hhead⟩ := hclose
      obtain ⟨cs, rfl⟩ := List.head?_eq_some_iff.mp hhead
      cases h
    · rw [closeComment_cons hclose] at h
      obtain ⟨found, -, he⟩ := Option.map_eq_some_iff.mp h
      cases he

/-- A comment is closed whatever stands behind it. -/
theorem closeComment_read (h : closeComment (text ++ rest) = some (text, rest)) :
    closeComment (text ++ rest') = some (text, rest') := by
  induction text with
  | nil => exact absurd rfl (closeComment_ne_nil h)
  | cons c text ih =>
    rw [List.cons_append] at h ⊢
    by_cases hclose : c = '*' ∧ (text ++ rest).head? = some '/'
    · obtain ⟨rfl, hhead⟩ := hclose
      obtain ⟨cs, hcs⟩ := List.head?_eq_some_iff.mp hhead
      rw [hcs, closeComment] at h
      obtain ⟨htext, rfl⟩ := Prod.mk.inj (Option.some.inj h)
      obtain rfl := (List.cons.inj htext).2
      rfl
    · rw [closeComment_cons hclose] at h
      obtain ⟨⟨text', rest''⟩, hfound, he⟩ := Option.map_eq_some_iff.mp h
      obtain ⟨htext, rfl⟩ := Prod.mk.inj he
      obtain rfl := (List.cons.inj htext).2
      obtain ⟨d, text, rfl⟩ := List.exists_cons_of_ne_nil (closeComment_ne_nil hfound)
      have hclose' : ¬ (c = '*' ∧ (d :: text ++ rest').head? = some '/') := hclose
      rw [closeComment_cons hclose', ih hfound]
      rfl

theorem name_continues {n : List Char} (h : IsName n) : ∀ c ∈ n, continuesName c = true := by
  obtain ⟨c, k, rfl, hc, hk⟩ := isName_iff.mp h
  exact List.forall_mem_cons.mpr ⟨by simp [continuesName, hc], hk⟩

theorem name_starless {n : List Char} (h : IsName n) : '*' ∉ n := by
  intro hstar
  have hcontinues := name_continues h _ hstar
  rw [continuesName, unnamed_starts_no_name (by decide)] at hcontinues
  exact absurd hcontinues (by decide)

/-- What has no star in it closes nothing together with what stands behind it. -/
theorem closeComment_starless {n : List Char} (hn : '*' ∉ n) (cs : List Char) :
    closeComment (n ++ cs) = none ↔ closeComment cs = none := by
  induction n with
  | nil => rfl
  | cons c n ih =>
    obtain ⟨hc, hn⟩ := not_or.mp (mt List.mem_cons.mpr hn)
    rw [List.cons_append, closeComment_cons fun h => hc h.1.symm, Option.map_eq_none_iff]
    exact ih hn

/-- A character keeps a comment open, where no slash has come up behind it to close the comment with it. -/
theorem unclosed_cons {c : Char} (hslash : cs'.head? = some '/' → cs.head? = some '/')
    (hrest : closeComment cs = none → closeComment cs' = none) (hnone : closeComment (c :: cs) = none) :
    closeComment (c :: cs') = none := by
  have hopen : ¬ (c = '*' ∧ cs.head? = some '/') := by
    rintro ⟨rfl, hhead⟩
    obtain ⟨k, rfl⟩ := List.head?_eq_some_iff.mp hhead
    cases hnone
  rw [closeComment_cons hopen, Option.map_eq_none_iff] at hnone
  rw [closeComment_cons fun h => hopen ⟨h.1, hslash h.2⟩, Option.map_eq_none_iff]
  exact hrest hnone

/-- A comment that is never closed is not closed behind names that change, either. -/
theorem Like.unclosed (h : Like cs cs') (hnone : closeComment cs = none) :
    closeComment cs' = none := by
  induction h with
  | cut => rfl
  | keep c h ih =>
    refine unclosed_cons (fun hhead => ?_) ih hnone
    obtain ⟨k', rfl⟩ := List.head?_eq_some_iff.mp hhead
    obtain ⟨k, rfl, -⟩ := h.stood (unnamed_starts_no_name (by decide))
    rfl
  | name hn hn' h ih =>
    rw [closeComment_starless (name_starless hn)] at hnone
    exact (closeComment_starless (name_starless hn') _).mpr (ih hnone)

theorem endsLine_starts_no_name {c : Char} (h : endsLine c = true) : startsName c = false := by
  rcases of_decide_eq_true h with rfl | rfl <;> exact unnamed_starts_no_name (by decide)

/-- A blank or a comment is passed over whatever stands behind it, if that ends a line where it has to. -/
theorem trivia_read (hend : (∀ c ∈ rest.head?, endsLine c = true) → ∀ c ∈ rest'.head?, endsLine c = true)
    (ht : trivia? (text ++ rest) = some (text, rest)) : trivia? (text ++ rest') = some (text, rest') := by
  simp only [trivia?] at ht
  split at ht
  · next cs heq =>
    obtain ⟨rfl, rfl⟩ := Prod.mk.inj (Option.some.inj ht)
    have hend' : ∀ c ∈ rest'.head?, endsLine c = true := by
      refine hend fun c hc => ?_
      have hnot := List.head?_dropWhile_not (p := fun c => !endsLine c) cs
      rw [Option.mem_def.mp hc] at hnot
      simpa using hnot
    have hline : ∀ c ∈ cs.takeWhile (!endsLine ·), (!endsLine c) = true := by
      intro c hc
      exact List.mem_takeWhile_imp (p := fun c => !endsLine c) hc
    have htake : (cs.takeWhile (!endsLine ·) ++ rest').takeWhile (!endsLine ·) =
          cs.takeWhile (!endsLine ·) ∧
        (cs.takeWhile (!endsLine ·) ++ rest').dropWhile (!endsLine ·) = rest' := by
      rw [List.takeWhile_append_of_pos hline, List.dropWhile_append_of_pos hline]
      cases rest' with
      | nil => simp
      | cons d rest' => simp [hend' d rfl]
    simp only [List.cons_append, trivia?, htake.1, htake.2]
  · next cs heq =>
    obtain ⟨⟨text', rest''⟩, hclose, he⟩ := Option.map_eq_some_iff.mp ht
    obtain ⟨rfl, rfl⟩ := Prod.mk.inj he
    simp only [List.cons_append, List.cons.injEq, true_and] at heq
    subst heq
    simp only [List.cons_append, trivia?, closeComment_read hclose, Option.map_some]
  · next c cs hline hblock heq =>
    split_ifs at ht with hc
    obtain ⟨rfl, rfl⟩ := Prod.mk.inj (Option.some.inj ht)
    have hslash : c ≠ '/' := by rcases hc with rfl | rfl | rfl | rfl <;> decide
    simp [trivia?, hslash, hc]
  · cases ht

/-- Blanks and comments are passed over as before. -/
theorem Like.trivia (h : Like rest rest') (ht : trivia? (text ++ rest) = some (text, rest)) :
    trivia? (text ++ rest') = some (text, rest') := by
  refine trivia_read (fun hend => ?_) ht
  rcases h.head with rfl | ⟨c, k, c', k', rfl, rfl, ⟨rfl, -⟩ | ⟨hname, -⟩⟩
  · exact nofun
  · exact hend
  · rw [endsLine_starts_no_name (hend c rfl)] at hname
    cases hname

end Trivia

/-- A way to change texts by which no sign, number or comment arises: a character of these that stands at the
front of a changed text has stood there, and what ended a name or a number ends it still. -/
structure Faithful (R : List Char → List Char → Prop) : Prop where
  keep : ∀ {cs cs'} (c : Char), R cs cs' → R (c :: cs) (c :: cs')
  stood : ∀ {cs c k'}, R cs (c :: k') → Fixed c → ∃ k, cs = c :: k ∧ R k k'
  unclosed : ∀ {cs cs'}, R cs cs' → closeComment cs = none → closeComment cs' = none
  ends_name : ∀ {cs cs'}, R cs cs' → (∀ c ∈ cs.head?, continuesName c = false) →
    ∀ c ∈ cs'.head?, continuesName c = false
  ends : ∀ {cs cs'}, R cs cs' → Ends cs → Ends cs'

section Faithful

variable {R : List Char → List Char → Prop} {cs cs' rest rest' : List Char}

theorem Faithful.append (hR : Faithful R) (text : List Char) (h : R cs cs') : R (text ++ cs) (text ++ cs') := by
  induction text with
  | nil => exact h
  | cons c text ih => exact hR.keep c ih

theorem digit_fixed {c : Char} (h : c.isDigit = true) : Fixed c :=
  ⟨digit_starts_no_name h, not_mem_of_kind (by decide) h⟩

theorem Faithful.alike (hR : Faithful R) (h : R cs cs') (hends : Ends cs) : Alike cs cs' := by
  refine ⟨hends, hR.ends h hends, fun s l hcons hsign d hd hdigit => ?_⟩
  have hs : Fixed s := by
    rcases hsign with rfl | rfl <;> exact unnamed_fixed (by decide) (by decide)
  obtain ⟨k, rfl, hk⟩ := hR.stood (hcons ▸ h) hs
  obtain ⟨l, rfl⟩ := List.head?_eq_some_iff.mp hd
  obtain ⟨k, rfl, -⟩ := hR.stood hk (digit_fixed hdigit)
  exact ⟨_, rfl, d, rfl, hdigit⟩

/-- Where neither a blank nor a comment starts, none does in the changed text. -/
theorem Faithful.no_trivia (hR : Faithful R) (h : R cs cs') {c : Char} (ht : trivia? (c :: cs) = none) :
    trivia? (c :: cs') = none := by
  rcases hsome : trivia? (c :: cs') with _ | ⟨text, rest⟩
  · rfl
  simp only [trivia?] at hsome
  split at hsome
  · next heq =>
    obtain ⟨rfl, rfl⟩ := List.cons.inj heq
    obtain ⟨k, rfl, -⟩ := hR.stood h (unnamed_fixed (by decide) (by decide))
    cases ht
  · next heq =>
    obtain ⟨rfl, rfl⟩ := List.cons.inj heq
    obtain ⟨k, rfl, hk⟩ := hR.stood h (unnamed_fixed (by decide) (by decide))
    simp only [trivia?, Option.map_eq_none_iff] at ht
    rw [hR.unclosed hk ht] at hsome
    cases hsome
  · next heq =>
    obtain ⟨rfl, rfl⟩ := List.cons.inj heq
    split_ifs at hsome with hc
    have hslash : c ≠ '/' := by rcases hc with rfl | rfl | rfl | rfl <;> decide
    simp [trivia?, hslash, hc] at ht
  · cases hsome

theorem after_self (pre cs : List Char) : after? pre (pre ++ cs) = some cs := by
  induction pre with
  | nil => rfl
  | cons a pre ih => rw [List.cons_append, after?, if_pos rfl, ih]

/-- A beginning of signs has stood where it stands. -/
theorem Faithful.after (hR : Faithful R) (h : R cs cs') {pre q : List Char} (hpre : ∀ c ∈ pre, Fixed c)
    (hq : after? pre cs' = some q) : after? pre cs ≠ none := by
  induction pre generalizing cs cs' with
  | nil => exact Option.some_ne_none _
  | cons a pre ih =>
    obtain ⟨ha, hpre⟩ := List.forall_mem_cons.mp hpre
    obtain rfl := after_text hq
    obtain ⟨k, rfl, hk⟩ := hR.stood h ha
    rw [after?, if_pos rfl]
    exact ih hk hpre (after_self pre q)

theorem symbol_fixed (s : Symbol) : ∀ c ∈ s.text, Fixed c := by
  have hall : s.text.all (fun c => decide (c ∈ unnamed ∧ c ∉ spaces)) = true := by
    cases s with
    | op o => cases o <;> decide
    | opening b | closing b => cases b <;> decide
    | _ => decide
  intro c hc
  obtain ⟨hunnamed, hspaces⟩ := of_decide_eq_true (List.all_eq_true.mp hall c hc)
  exact unnamed_fixed hunnamed hspaces

/-- The longest sign that fits stays the longest one, as no longer one fits before the changed text. -/
theorem Faithful.symbol (hR : Faithful R) (h : R rest rest') {s : Symbol}
    (hs : symbol? (s.text ++ rest) = some (s, rest)) : symbol? (s.text ++ rest') = some (s, rest') := by
  -- Signs are tried from the longest on, and those before the one that is found still do not fit.
  obtain ⟨longer, s', shorter, hall, hfound, hnone⟩ := List.findSome?_eq_some_iff.mp hs
  obtain ⟨rest₁, -, he⟩ := Option.map_eq_some_iff.mp hfound
  obtain ⟨rfl, rfl⟩ := Prod.mk.inj he
  refine List.findSome?_eq_some_iff.mpr ⟨longer, s', shorter, hall, ?_, fun t ht => ?_⟩
  · rw [after_self]
    rfl
  · rw [Option.map_eq_none_iff]
    by_contra hsome
    obtain ⟨q, hq⟩ := Option.ne_none_iff_exists'.mp hsome
    exact hR.after (hR.append s'.text h) (symbol_fixed t) hq (Option.map_eq_none_iff.mp (hnone t ht))

end Faithful

section Quotes

variable {quote : Char} {state : QuoteState} {n : Nat} {body rest rest' : List Char}

/-- A quoted literal is closed whatever stands behind it. -/
theorem closeQuote_read (h : closeQuote quote state (body ++ quote :: rest) = some (n, body, rest)) :
    closeQuote quote state (body ++ quote :: rest') = some (n, body, rest') := by
  induction body generalizing state n with
  | nil =>
    rcases closeQuote_cons h with ⟨rfl, -, -, -⟩ | ⟨_, _, _, -, hbody, -⟩
    · rw [List.nil_append, closeQuote, if_pos rfl] at h ⊢
      obtain ⟨rfl, -⟩ := Prod.mk.inj (Option.some.inj h)
      rfl
    · cases hbody
  | cons c body ih =>
    have goOn {next : QuoteState} {k : Nat → Nat}
        (hmap : ((closeQuote quote next (body ++ quote :: rest)).map
          fun found => (k found.1, c :: found.2.1, found.2.2)) = some (n, c :: body, rest)) :
        ((closeQuote quote next (body ++ quote :: rest')).map
          fun found => (k found.1, c :: found.2.1, found.2.2)) = some (n, c :: body, rest') := by
      obtain ⟨⟨m, body', rest''⟩, hfound, he⟩ := Option.map_eq_some_iff.mp hmap
      simp only [Prod.mk.injEq, List.cons.injEq, true_and] at he
      obtain ⟨rfl, rfl, rfl⟩ := he
      rw [ih hfound]
      rfl
    rw [List.cons_append] at h ⊢
    cases state with
    | plain =>
      rw [closeQuote] at h ⊢
      split_ifs at h ⊢
      · cases h
      · exact goOn (k := id) h
      · exact goOn h
    | escaped =>
      rw [closeQuote] at h ⊢
      split_ifs at h ⊢
      · exact goOn h
      · split at h
        · exact goOn (k := id) h
        · cases h
    | digits radix remaining =>
      rw [closeQuote] at h ⊢
      split_ifs at h ⊢
      · exact goOn h
      · exact goOn (k := id) h

theorem closeRaw_read (h : closeRaw (body ++ '\x60' :: rest) = some (body, rest)) :
    closeRaw (body ++ '\x60' :: rest') = some (body, rest') := by
  induction body with
  | nil => rfl
  | cons c body ih =>
    rw [List.cons_append] at h ⊢
    rcases closeRaw_cons h with ⟨-, hbody, -⟩ | ⟨body', hc, hbody, hrest⟩
    · cases hbody
    · obtain rfl := (List.cons.inj hbody).2
      rw [closeRaw, if_neg hc, ih hrest]
      rfl

theorem quoted_cases {cs : List Char} {a : Atom} (h : quoted? cs = some (a, rest)) :
    ∃ body, a = .string body ∨ a = .rune body ∨ a = .raw body := by
  simp only [quoted?] at h
  split at h
  · obtain ⟨⟨n, body, rest'⟩, -, he⟩ := Option.map_eq_some_iff.mp h
    exact ⟨body, .inl (Prod.mk.inj he).1.symm⟩
  · split at h
    · next body rest' _ => exact ⟨body, .inr (.inl (Prod.mk.inj (Option.some.inj h)).1.symm)⟩
    · cases h
  · obtain ⟨⟨body, rest'⟩, -, he⟩ := Option.map_eq_some_iff.mp h
    exact ⟨body, .inr (.inr (Prod.mk.inj he).1.symm)⟩
  · cases h

theorem quoted_read {a : Atom} (h : quoted? (a.text ++ rest) = some (a, rest)) :
    quoted? (a.text ++ rest') = some (a, rest') := by
  have plain (r : List Char) (q : Char) (body : List Char) :
      (q :: body ++ [q]) ++ r = q :: (body ++ q :: r) := by simp
  cases a with
  | string body =>
    rw [Atom.text, plain] at h ⊢
    obtain ⟨⟨n, body', rest''⟩, hclose, he⟩ := Option.map_eq_some_iff.mp h
    obtain ⟨hbody, rfl⟩ := Prod.mk.inj he
    obtain rfl := Atom.string.inj hbody
    simp only [quoted?, closeQuote_read hclose, Option.map_some]
  | rune body =>
    rw [Atom.text, plain] at h ⊢
    simp only [quoted?] at h ⊢
    split at h
    · next body' rest'' hclose =>
      obtain ⟨hbody, rfl⟩ := Prod.mk.inj (Option.some.inj h)
      obtain rfl := Atom.rune.inj hbody
      simp only [closeQuote_read hclose]
    · cases h
  | raw body =>
    rw [Atom.text, plain] at h ⊢
    obtain ⟨⟨body', rest''⟩, hclose, he⟩ := Option.map_eq_some_iff.mp h
    obtain ⟨hbody, rfl⟩ := Prod.mk.inj he
    obtain rfl := Atom.raw.inj hbody
    simp only [quoted?, closeRaw_read hclose, Option.map_some]
  | name text | float text | int text =>
    obtain ⟨body, hbody⟩ := quoted_cases h
    simp at hbody

end Quotes

section Read

variable {cs rest rest' : List Char}

theorem name_cut {text : List Char} (h : name? (text ++ rest) = some (text, rest)) :
    IsName text ∧ ∀ c ∈ rest.head?, continuesName c = false := by
  cases text with
  | nil => exact absurd rfl (cuts_name _ _ _ h).2.1
  | cons c text =>
    rw [List.cons_append, name?] at h
    split_ifs at h with hc
    obtain ⟨htext, hrest⟩ := Prod.mk.inj (Option.some.inj h)
    have htake := (List.cons.inj htext).2
    refine ⟨isName_iff.mpr ⟨c, text, rfl, hc, fun d hd => ?_⟩, fun d hd => ?_⟩
    · rw [← htake] at hd
      exact List.mem_takeWhile_imp hd
    · have hnot := List.head?_dropWhile_not continuesName (text ++ rest)
      rw [hrest, Option.mem_def.mp hd] at hnot
      simpa using hnot

theorem name_missing {c : Char} : name? (c :: cs) = none ↔ startsName c = false := by
  simp [name?]

/-- A point is a sign where no digit stands behind it. -/
theorem atom_point_missing : atom? ('.' :: cs) = none ↔ ∀ d ∈ cs.head?, d.isDigit = false := by
  have hname : name? ('.' :: cs) = none := name_missing.mpr (unnamed_starts_no_name (by decide))
  have hint : int? ('.' :: cs) = none := rfl
  have hquoted : quoted? ('.' :: cs) = none := rfl
  have hfloat : float? ('.' :: cs) = none ↔ decimals? cs = none := by
    simp [float?, decimals?]
  simp [atom?, hname, hint, hquoted, hfloat, decimals_missing]

/-- Only a point may start a number. -/
theorem symbol_startsNoAtom (s : Symbol) :
    (∃ c k, s.text = c :: k ∧ StartsNoAtom c) ∨ s = .dot ∨ s = .ellipsis := by
  have hname : ∀ c ∈ s.text, startsName c = false := fun c hc => (symbol_fixed s c hc).1
  cases s with
  | op o => cases o <;> exact .inl ⟨_, _, rfl, hname _ List.mem_cons_self, by decide⟩
  | opening b | closing b => cases b <;> exact .inl ⟨_, _, rfl, hname _ List.mem_cons_self, by decide⟩
  | bang | comma | colon => exact .inl ⟨_, _, rfl, hname _ List.mem_cons_self, by decide⟩
  | dot => exact .inr (.inl rfl)
  | ellipsis => exact .inr (.inr rfl)

/-- Where no name or literal starts, none does before a text that has changed. -/
theorem Faithful.no_atom {R : List Char → List Char → Prop} (hR : Faithful R) (h : R rest rest') (s : Symbol)
    (hnone : atom? (s.text ++ rest) = none) : atom? (s.text ++ rest') = none := by
  rcases symbol_startsNoAtom s with ⟨c, k, hs, hc⟩ | rfl | rfl
  · rw [hs]
    exact atom_missing hc _
  · refine atom_point_missing.mpr fun d hd => ?_
    by_contra hdigit
    have hdigit' : d.isDigit = true := by simpa using hdigit
    obtain ⟨k', rfl⟩ := List.head?_eq_some_iff.mp hd
    obtain ⟨k, rfl, -⟩ := hR.stood h (digit_fixed hdigit')
    exact hdigit (atom_point_missing.mp hnone d rfl)
  · refine atom_point_missing.mpr fun d hd => ?_
    obtain rfl := Option.some.inj hd
    decide

theorem atom_name {cs text : List Char} (h : atom? cs = some (.name text, rest)) :
    name? cs = some (text, rest) := by
  simp only [atom?, Option.orElse_eq_orElse, Option.orElse_eq_or, Option.or_eq_some_iff,
    Option.map_eq_some_iff] at h
  rcases h with ⟨⟨text', rest'⟩, hcut, he⟩ | ⟨-, ⟨_, _, he⟩ | ⟨-, ⟨_, _, he⟩ | ⟨-, hquoted⟩⟩⟩
  · simp only [Prod.mk.injEq, Atom.name.injEq] at he
    rwa [he.1, he.2] at hcut
  · cases he
  · cases he
  · obtain ⟨body, hbody⟩ := quoted_cases hquoted
    simp at hbody

/-- A literal is read before a text that is alike. -/
theorem literal_read {a : Atom} (h : Alike rest rest') (hnot : ∀ text, a ≠ .name text)
    (ha : atom? (a.text ++ rest) = some (a, rest)) : atom? (a.text ++ rest') = some (a, rest') := by
  obtain ⟨-, hne, -⟩ := atom_head ha
  simp only [atom?, Option.orElse_eq_orElse, Option.orElse_eq_or, Option.or_eq_some_iff,
    Option.map_eq_some_iff, Option.map_eq_none_iff] at ha ⊢
  rcases ha with ⟨⟨text, _⟩, -, he⟩ | ⟨hname, ha⟩
  · exact absurd (Prod.mk.inj he).1.symm (hnot text)
  -- Names, floats, integers and quoted texts are tried in this order; none that failed is found now.
  have hname' : name? (a.text ++ rest') = none := by
    obtain ⟨c, k, hc⟩ := List.exists_cons_of_ne_nil hne
    rw [hc] at hname ⊢
    exact name_missing.mpr (name_missing.mp hname)
  refine .inr ⟨hname', ?_⟩
  rcases ha with ⟨⟨text, _⟩, hcut, he⟩ | ⟨hfloat, ⟨⟨text, _⟩, hcut, he⟩ | ⟨hint, hquoted⟩⟩
  · obtain ⟨rfl, rfl⟩ := Prod.mk.inj he
    exact .inl ⟨_, (steady_float h).kept text [] hcut, rfl⟩
  · obtain ⟨rfl, rfl⟩ := Prod.mk.inj he
    have hfloat' := (steady_float h).missing text hfloat
    exact .inr ⟨hfloat', .inl ⟨_, (steady_int h).kept text [] hcut, rfl⟩⟩
  · have hfloat' := (steady_float h).missing a.text hfloat
    have hint' := (steady_int h).missing a.text hint
    exact .inr ⟨hfloat', .inr ⟨hint', quoted_read hquoted⟩⟩

theorem first_atom_iff {a : Atom} :
    first? cs = some (.atom a, rest) ↔ atom? cs = some (a, rest) := by
  refine ⟨fun h => ?_, first_atom⟩
  simp only [first?, Option.orElse_eq_orElse, Option.orElse_eq_or, Option.or_eq_some_iff,
    Option.map_eq_some_iff] at h
  rcases h with ⟨⟨a', rest'⟩, ha, he⟩ | ⟨-, ⟨_, -, he⟩ | ⟨-, h⟩⟩
  · simp only [Prod.mk.injEq, Lexeme.atom.injEq] at he
    rwa [he.1, he.2] at ha
  · cases he
  · split at h <;> cases h

theorem first_symbol_iff {s : Symbol} : first? cs = some (.symbol s, rest) ↔
    atom? cs = none ∧ symbol? cs = some (s, rest) := by
  constructor
  · intro h
    simp only [first?, Option.orElse_eq_orElse, Option.orElse_eq_or, Option.or_eq_some_iff,
      Option.map_eq_some_iff, Option.map_eq_none_iff] at h
    rcases h with ⟨_, -, he⟩ | ⟨hnone, ⟨⟨s', rest'⟩, hs, he⟩ | ⟨-, h⟩⟩
    · cases he
    · simp only [Prod.mk.injEq, Lexeme.symbol.injEq] at he
      rw [he.1, he.2] at hs
      exact ⟨hnone, hs⟩
    · split at h <;> cases h
  · rintro ⟨hnone, hs⟩
    simp [first?, hnone, hs]

/-- A lexeme is read before a text that has changed, where what stands behind a literal ends it. -/
theorem Faithful.read {R : List Char → List Char → Prop} (hR : Faithful R) {l : Lexeme} (h : R rest rest')
    (hstray : ∀ c, l ≠ .stray c) (hends : ∀ a, l = .atom a → (∀ text, a ≠ .name text) → Ends rest)
    (hread : ReadBefore l rest) : ReadBefore l rest' := by
  obtain ⟨ht, hf⟩ := hread
  have ht' : trivia? (l.text ++ rest') = none := by
    obtain ⟨c, k, hl⟩ := List.exists_cons_of_ne_nil (first_head hf).2.1
    rw [hl] at ht ⊢
    exact hR.no_trivia (hR.append k h) ht
  cases l with
  | atom a =>
    have ha : atom? (a.text ++ rest) = some (a, rest) := first_atom_iff.mp hf
    by_cases hnot : ∀ text, a ≠ .name text
    · exact ⟨ht', first_atom (literal_read (hR.alike h (hends a rfl hnot)) hnot ha)⟩
    · obtain ⟨text, rfl⟩ : ∃ text, a = .name text := by simpa using hnot
      obtain ⟨hname, hrest⟩ := name_cut (atom_name ha)
      exact name_read hname (hR.ends_name h hrest)
  | symbol s =>
    obtain ⟨hnone, hs⟩ := first_symbol_iff.mp hf
    exact ⟨ht', first_symbol_iff.mpr ⟨hR.no_atom h s hnone, hR.symbol h hs⟩⟩
  | stray c => exact absurd rfl (hstray c)
  | finish => exact absurd rfl (first_ne_finish hf)

theorem like_faithful : Faithful Like where
  keep c h := .keep c h
  stood h hc := h.stood hc.1
  unclosed := Like.unclosed
  ends_name := Like.ends_name
  ends := Like.ends

/-- A lexeme is read before a text whose names have changed or whose end is cut off, where what stands behind
a literal ends it. -/
theorem Like.read {l : Lexeme} (h : Like rest rest') (hstray : ∀ c, l ≠ .stray c)
    (hends : ∀ a, l = .atom a → (∀ text, a ≠ .name text) → Ends rest) (hread : ReadBefore l rest) :
    ReadBefore l rest' :=
  like_faithful.read h hstray hends hread

end Read

end Formula.Lexeme
