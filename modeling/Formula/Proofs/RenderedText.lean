import Formula.Proofs.GrammarComplete
import Formula.Proofs.Rendering

namespace Formula

def Readable (w : List Lexeme) : Prop :=
  ∀ rest, Parted rest → said (w.flatMap Lexeme.text ++ rest) = w ++ said rest

theorem readable_nil : Readable [] := fun _ _ => rfl

theorem readable_cons {l : Lexeme} {w : List Lexeme}
    (h : ∀ rest, Parted rest → ReadBefore l (w.flatMap Lexeme.text ++ rest)) (hw : Readable w) :
    Readable (l :: w) := by
  intro rest hrest
  rw [List.flatMap_cons, List.append_assoc, said_read (h rest hrest), hw rest hrest, List.cons_append]

theorem readable_of_read {l : Lexeme} (h : ∀ rest, Parted rest → ReadBefore l rest) :
    Readable [l] :=
  readable_cons h readable_nil

/-- Words with blanks between them are read one by one. -/
theorem said_spaced {ws : List (List Lexeme)} (h : ∀ w ∈ ws, Readable w) :
    said (spaced ws) = ws.flatten ++ [.finish] := by
  induction ws with
  | nil => rfl
  | cons w ws ih =>
    obtain ⟨hw, hws⟩ := List.forall_mem_cons.mp h
    cases ws with
    | nil =>
      have hread := hw [] (.inl rfl)
      simpa [spaced, said_nil] using hread
    | cons v ws =>
      calc
        said (spaced (w :: v :: ws)) = w ++ said (' ' :: spaced (v :: ws)) := hw _ (.inr ⟨_, rfl⟩)
        _ = (w :: v :: ws).flatten ++ [.finish] := by
          rw [said_blank, ih hws, ← List.append_assoc]
          rfl

theorem mem_listed {rows : List (List (List Lexeme))} {w : List Lexeme} (h : w ∈ listed rows) :
    w = [.symbol .comma] ∨ ∃ ws ∈ rows, w ∈ ws := by
  induction rows using listed.induct with
  | case1 => cases h
  | case2 ws => exact .inr ⟨ws, List.mem_singleton_self ws, h⟩
  | case3 ws rest hrest ih =>
    rw [listed] at h
    · rcases List.mem_append.mp h with h | h
      · exact .inr ⟨ws, List.mem_cons_self, h⟩
      · rcases List.mem_cons.mp h with h | h
        · exact .inl h
        · obtain h | ⟨ws', hws', hw⟩ := ih h
          · exact .inl h
          · exact .inr ⟨ws', List.mem_cons_of_mem _ hws', hw⟩
    · exact hrest

namespace Expr

theorem readable_opening (b : Bracket) : Readable [.symbol (.opening b)] :=
  readable_of_read fun rest _ => opening_read b rest

theorem readable_closing (b : Bracket) : Readable [.symbol (.closing b)] :=
  readable_of_read fun rest _ => closing_read b rest

theorem readable_name {name : List Char} (h : IsName name) : Readable [.atom (.name name)] :=
  readable_of_read fun _ hrest => name_read h (parted_ends_name hrest)

/-- The head of a composite literal is read without blanks in it. -/
theorem readable_head : Readable [.symbol (.opening .square), .symbol (.closing .square),
    .atom (.name "lit".toList), .symbol (.opening .curly)] := by
  have hname : ∀ rest, ReadBefore (.atom (.name "lit".toList)) ('\x7b' :: rest) := by
    refine fun rest => name_read (by decide +kernel) fun c hc => ?_
    obtain rfl := Option.some.inj hc
    decide +kernel
  exact readable_cons (fun _ _ => opening_read .square _)
    (readable_cons (fun _ _ => closing_read .square _)
      (readable_cons (fun rest _ => hname rest) (readable_opening .curly)))

theorem words_enclosed (least : Nat) (e : Expr) : (e.enclosed least).words = e.words ∨
    (e.enclosed least).words =
      [.symbol (.opening .round)] :: (e.words ++ [[.symbol (.closing .round)]]) := by
  rw [enclosed]
  split_ifs
  · exact .inr rfl
  · exact .inl rfl

theorem readable_between {first last : List Lexeme} {ws : List (List Lexeme)} (hf : Readable first)
    (h : ∀ w ∈ ws, Readable w) (hl : Readable last) : ∀ w ∈ first :: (ws ++ [last]), Readable w :=
  List.forall_mem_cons.mpr ⟨hf, List.forall_mem_append.mpr ⟨h, List.forall_mem_singleton.mpr hl⟩⟩

theorem readable_enclosed {e : Expr} (h : ∀ w ∈ e.words, Readable w) (least : Nat) :
    ∀ w ∈ (e.enclosed least).words, Readable w := by
  rcases words_enclosed least e with he | he
  · exact he ▸ h
  · rw [he]
    exact readable_between (readable_opening .round) h (readable_closing .round)

theorem readable_listed {es : List Expr} (h : ∀ e ∈ es, ∀ w ∈ e.parenthesized.words, Readable w) :
    ∀ w ∈ listed (allWords (allParenthesized es)), Readable w := by
  intro w hw
  rw [allWords_eq, allParenthesized_eq, List.map_map] at hw
  rcases mem_listed hw with rfl | ⟨ws, hws, hw⟩
  · exact readable_of_read fun rest _ => comma_read rest
  · obtain ⟨e, he, rfl⟩ := List.mem_map.mp hws
    exact h e he w hw

/-- Every word of a tree that is written can be read. -/
theorem readable_words (e : Expr) (he : e.Writable) : ∀ w ∈ e.parenthesized.words, Readable w := by
  induction e using tree_induction with
  | constant span value =>
    intro w hw
    cases value with
    | int n =>
      obtain rfl := List.mem_singleton.mp hw
      exact readable_of_read fun rest => decimal_read _
    | str s =>
      obtain rfl := List.mem_singleton.mp hw
      exact readable_of_read fun rest _ => string_read _ rest
    | _ => cases he
  | ident span name => exact List.forall_mem_singleton.mpr (readable_name he.1)
  | unary span o e ih =>
    refine List.forall_mem_cons.mpr ⟨?_, readable_enclosed (ih he) 6⟩
    cases o with
    | neg => exact readable_of_read fun _ => op_read .sub (by decide)
    | not => exact readable_of_read fun _ => bang_read
  | binary span m l r ihl ihr =>
    obtain ⟨hl, hr⟩ := (writable_binary span m l r).mp he
    rw [parenthesized_binary, joined, words_binary]
    exact List.forall_mem_append.mpr ⟨readable_enclosed (ihl hl) _, List.forall_mem_cons.mpr
      ⟨readable_of_read fun _ => op_read m.sign m.sign_ne.2, readable_enclosed (ihr hr) _⟩⟩
  | index span base position ihb ihp =>
    exact List.forall_mem_append.mpr ⟨readable_enclosed (ihb he.1) 7,
      readable_between (readable_opening .square) (ihp he.2.1) (readable_closing .square)⟩
  | call span name args ih =>
    have hargs := (allWritable_iff args).mp he.2
    exact List.forall_mem_cons.mpr ⟨readable_name he.1, readable_between (readable_opening .round)
      (readable_listed fun a ha => ih a ha (hargs a ha)) (readable_closing .round)⟩
  | composite span es ih =>
    have hes := (allWritable_iff es).mp he
    exact readable_between readable_head (readable_listed fun e he => ih e he (hes e he))
      (readable_closing .curly)
  | group span inner ih =>
    exact readable_between (readable_opening .round) (ih he) (readable_closing .round)

def StartsNoMap (l l' : Lexeme) : Prop :=
  l = .atom (.name "map".toList) → l' ≠ .symbol (.opening .square)

def Unmapped (ls : List Lexeme) : Prop :=
  ∀ rest, rest.IsChain StartsNoMap → (ls ++ rest).IsChain StartsNoMap

theorem unmapped_append {as bs : List Lexeme} (ha : Unmapped as) (hb : Unmapped bs) :
    Unmapped (as ++ bs) := by
  intro rest hrest
  rw [List.append_assoc]
  exact ha _ (hb _ hrest)

theorem unmapped_cons {l : Lexeme} {ls : List Lexeme} (hl : l ≠ .atom (.name "map".toList))
    (h : Unmapped ls) : Unmapped (l :: ls) :=
  fun rest hrest => (h rest hrest).cons fun _ _ hword => absurd hword hl

theorem unmapped_between {l r : Lexeme} {ls : List Lexeme} (hl : l ≠ .atom (.name "map".toList))
    (h : Unmapped ls) (hr : r ≠ .atom (.name "map".toList)) : Unmapped (l :: (ls ++ [r])) :=
  unmapped_cons hl (unmapped_append h (unmapped_cons hr fun _ hrest => hrest))

theorem unmapped_enclosed {e : Expr} (h : Unmapped e.lexemes) (least : Nat) :
    Unmapped (e.enclosed least).lexemes := by
  rw [enclosed]
  split_ifs
  · rw [lexemes_group]
    exact unmapped_between (by simp) h (by simp)
  · exact h

theorem unmapped_listing {es : List Expr} (h : ∀ e ∈ es, Unmapped e.lexemes) :
    Unmapped (listing es) := by
  induction es with
  | nil => exact fun _ hrest => hrest
  | cons e es ih =>
    obtain ⟨he, hes⟩ := List.forall_mem_cons.mp h
    rcases eq_or_ne es [] with rfl | hne
    · exact he
    · rw [listing_cons e hne]
      exact unmapped_append he (unmapped_cons (by simp) (ih hes))

/-- No map type starts in a tree that is written: a function's name has a round bracket behind it. -/
theorem unmapped_lexemes (e : Expr) (he : e.Writable) : Unmapped e.parenthesized.lexemes := by
  have all {es : List Expr} (h : ∀ e ∈ es, Unmapped e.parenthesized.lexemes) :
      Unmapped (listing (allParenthesized es)) :=
    unmapped_listing (forall_allParenthesized h)
  induction e using tree_induction with
  | constant span value =>
    cases value with
    | int n => exact unmapped_cons (by simp) fun _ hrest => hrest
    | str s => exact unmapped_cons (by simp) fun _ hrest => hrest
    | _ => cases he
  | ident span name =>
    refine unmapped_cons (fun hword => he.2 ?_) fun _ hrest => hrest
    exact String.toList_inj.mp (by simpa using hword)
  | unary span o e ih =>
    rw [parenthesized, lexemes_unary]
    exact unmapped_cons (by simp) (unmapped_enclosed (ih he) 6)
  | binary span m l r ihl ihr =>
    obtain ⟨hl, hr⟩ := (writable_binary span m l r).mp he
    rw [parenthesized_binary, joined, lexemes_binary]
    exact unmapped_append (unmapped_enclosed (ihl hl) _)
      (unmapped_cons (by simp) (unmapped_enclosed (ihr hr) _))
  | index span base position ihb ihp =>
    rw [parenthesized, lexemes_index]
    exact unmapped_append (unmapped_enclosed (ihb he.1) 7)
      (unmapped_between (by simp) (ihp he.2.1) (by simp))
  | call span name args ih =>
    have hargs := (allWritable_iff args).mp he.2
    rw [parenthesized, lexemes_call]
    intro rest hrest
    -- The name of a function may be the word of map types, since a round bracket follows it.
    refine List.IsChain.cons ?_ fun l hl _ => ?_
    · exact unmapped_between (by simp) (all fun a ha => ih a ha (hargs a ha)) (by simp) rest hrest
    · obtain rfl := Option.some.inj hl
      simp
  | composite span es ih =>
    have hes := (allWritable_iff es).mp he
    rw [parenthesized, lexemes_composite]
    exact unmapped_cons (by simp) (unmapped_cons (by simp) (unmapped_cons (by decide)
      (unmapped_between (by simp) (all fun e he => ih e he (hes e he)) (by simp))))
  | group span inner ih =>
    rw [parenthesized, lexemes_group]
    exact unmapped_between (by simp) (ih he) (by simp)

theorem noMapType_of_unmapped {ts : List Token} {ls : List Lexeme} (hts : ts.map (·.value) = ls)
    (h : Unmapped ls) : NoMapType ts := by
  have hchain := h [] List.isChain_nil
  rw [List.append_nil, ← hts, List.isChain_map] at hchain
  exact hchain

end Expr

end Formula
