import Formula.Proofs.NodeText
import Formula.Proofs.RenamedText
import Formula.Proofs.TokenLimit
import Formula.Proofs.TreeNames

/-!
Renaming the variables of an expression. A source whose variables are given other names is compiled to the
tree with those names, exactly where none of the new names heads a composite literal; no name but `map`
does so.
-/

namespace Formula

open Lexeme Token Formula.Parser

namespace Expr

variable (r : Recast)

theorem children_recast (e : Expr) : (e.recast r).children = e.children.map (recast r) := by
  cases e <;> simp [recast, children, recastAll_eq]

theorem identSpan_recast (e : Expr) : (e.recast r).identSpan? = e.identSpan?.map r.span := by
  cases e <;> rfl

/-- The variables of a changed tree stand where they are moved to. -/
theorem idents_recast (e : Expr) : (e.recast r).idents = e.idents.map r.span := by
  induction e using child_induction with
  | node e ih =>
    rw [idents_eq, children_recast, identSpan_recast, idents_eq e, List.map_append]
    congr 1
    · cases e.identSpan? <;> rfl
    · rw [List.flatMap_map, List.map_flatMap]
      exact List.flatMap_congr ih

end Expr

namespace Token

variable {ts : List Token} {t u : Token}

/-- Of two tokens in a line one stops before the other one starts. -/
theorem Lined.apart (h : Lined ts) (ht : t ∈ ts) (hu : u ∈ ts) :
    t = u ∨ t.span.stop ≤ u.span.start ∨ u.span.stop ≤ t.span.start := by
  obtain ⟨pre, post, rfl⟩ := List.append_of_mem ht
  obtain ⟨-, hbehind, hbefore⟩ := List.pairwise_append.mp h.2
  rcases List.mem_append.mp hu with hu | hu
  · exact .inr (.inr (hbefore u hu t List.mem_cons_self))
  rcases List.mem_cons.mp hu with rfl | hu
  · exact .inl rfl
  · exact .inr (.inl (List.rel_of_pairwise_cons hbehind hu))

end Token

section Naming

variable {ts : List Token} {ss : List Span} {vars : List Nat} {name : Nat → List Char}

/-- Places of tokens in a line, which stand in their order. -/
theorem Token.Lined.names_sorted (hline : Lined ts) (hss : ss.Sublist (ts.map (·.span))) :
    ss.Pairwise (·.stop ≤ ·.start) :=
  (List.pairwise_map.mpr hline.2).sublist hss

theorem Token.Lined.names_sound (hline : Lined ts) (hss : ss.Sublist (ts.map (·.span)))
    (hname : ∀ s ∈ ss, IsName (name s.start)) :
    ∀ s ∈ ss, s.start < s.stop ∧ 0 < byteSize (name s.start) := by
  intro s hs
  obtain ⟨t, ht, rfl⟩ := List.mem_map.mp (hss.subset hs)
  obtain ⟨c, cs, hcs, -⟩ := isName_iff.mp (hname _ hs)
  exact ⟨hline.1 t ht, byteSize_pos (by simp [hcs])⟩

theorem Token.Lined.outside (hline : Lined ts) (hss : ss.Sublist (ts.map (·.span))) {t : Token}
    (ht : t ∈ ts) : Outside ss t.span.start ∧ Outside ss t.span.stop := by
  have hpos := hline.1 t ht
  constructor <;> intro s hs <;> obtain ⟨u, hu, rfl⟩ := List.mem_map.mp (hss.subset hs) <;>
    have hupos := hline.1 u hu <;> rcases hline.apart hu ht with rfl | hle | hle <;> omega

/-- A token starts where one of the names does only if it is this name. -/
theorem Token.Lined.start_mem_iff (hline : Lined ts) (hss : ss.Sublist (ts.map (·.span))) {t : Token}
    (ht : t ∈ ts) : t.span.start ∈ ss.map (·.start) ↔ t.span ∈ ss := by
  constructor
  · intro h
    obtain ⟨s, hs, hstart⟩ := List.mem_map.mp h
    obtain ⟨u, hu, rfl⟩ := List.mem_map.mp (hss.subset hs)
    rwa [← hline.ranked.eq_of_start hu ht hstart]
  · exact fun h => List.mem_map.mpr ⟨t.span, h, rfl⟩

/-- Names that are written over names keep which tokens touch. -/
theorem naming_admits (hline : Lined ts) (hframed : Framed ts ss vars)
    (hname : ∀ s ∈ ss, IsName (name s.start)) : (Recast.naming name ss).Admits ts vars := by
  refine ⟨hline.ranked, fun t ht u hu => ⟨fun h => ?_, fun h => ?_⟩, fun t ht text _ hne => ?_⟩
  · have hsorted := hline.names_sorted hframed.order
    have hsound := hline.names_sound hframed.order hname
    have hstop := (hline.outside hframed.order ht).2
    have hstart := (hline.outside hframed.order hu).1
    rcases Nat.lt_trichotomy t.span.stop u.span.start with hlt | heq | hlt
    · exact absurd h (Nat.ne_of_lt (Recast.naming_place_lt hsorted hsound hstop hstart hlt))
    · exact heq
    · exact absurd h (Nat.ne_of_gt (Recast.naming_place_lt hsorted hsound hstart hstop hlt))
  · exact congrArg (Recast.naming name ss).place h
  · by_contra hvars
    refine hne (if_neg fun hmem => hvars ?_)
    obtain ⟨s, hs, hstart⟩ := List.mem_map.mp hmem
    rw [← hstart]
    exact hframed.starts s hs

end Naming

section Walls

variable {pre us post : List Token} {ss : List Span} {name : Nat → List Char} {t t₀ : Token}

/-- Among tokens away from the names the same is written, and written over, before each offset. -/
theorem written_among (name : Nat → List Char) {n : Nat} (hline : Lined (pre ++ (us ++ post)))
    (hss : ss.Sublist ((pre ++ post).map (·.span))) (ht₀ : t₀ ∈ us) (ht : t ∈ us)
    (hstart : t.span.start ≤ n) (hstop : n ≤ t.span.stop) :
    written name ss n = written name ss t₀.span.start ∧
      overwritten ss n = overwritten ss t₀.span.start := by
  obtain ⟨-, hrest, hbefore⟩ := lined_append_iff.mp hline
  obtain ⟨-, -, hbehind⟩ := lined_append_iff.mp hrest
  have hpos (u : Token) (hu : u ∈ pre ++ (us ++ post)) : u.span.start < u.span.stop := hline.1 u hu
  have hsame : ∀ s ∈ ss, decide (s.start < n) = decide (s.start < t₀.span.start) := by
    intro s hs
    obtain ⟨u, hu, rfl⟩ := List.mem_map.mp (hss.subset hs)
    refine decide_eq_decide.mpr ?_
    have hupos := hpos u (by simp only [List.mem_append] at hu ⊢; tauto)
    have ht₀pos := hpos t₀ (by simp [ht₀])
    rcases List.mem_append.mp hu with hu | hu
    · have hut := hbefore u hu t (List.mem_append_left _ ht)
      have hut₀ := hbefore u hu t₀ (List.mem_append_left _ ht₀)
      omega
    · have htu := hbehind t ht u hu
      have ht₀u := hbehind t₀ ht₀ u hu
      omega
  rw [written, overwritten, List.filter_congr hsame]
  exact ⟨rfl, rfl⟩

/-- Tokens away from the names move together. -/
theorem naming_shift (xs : List Token) (hline : Lined (pre ++ (us ++ post)))
    (hss : ss.Sublist ((pre ++ post).map (·.span))) (hname : ∀ s ∈ ss, IsName (name s.start))
    (ht₀ : t₀ ∈ us) (hxs : ∀ t ∈ xs, t ∈ us) :
    (xs.map (Recast.naming name ss).token).map (Recast.forth (overwritten ss t₀.span.start)).token =
      xs.map (Recast.forth (written name ss t₀.span.start)).token := by
  have hrow : ss.Sublist ((pre ++ (us ++ post)).map (·.span)) :=
    hss.trans ((List.Sublist.append_left (List.sublist_append_right us post) pre).map _)
  rw [List.map_map]
  refine List.map_congr_left fun t ht => ?_
  have htus := hxs t ht
  have hmem : t ∈ pre ++ (us ++ post) := by simp [htus]
  have hpos := hline.1 t hmem
  obtain ⟨hwstart, hostart⟩ := written_among name hline hss ht₀ htus (Nat.le_refl _) hpos.le
  obtain ⟨hwstop, hostop⟩ := written_among name hline hss ht₀ htus hpos.le (Nat.le_refl _)
  have hle : overwritten ss t.span.start ≤ t.span.start :=
    overwritten_le (hline.names_sorted hrow) (hline.names_sound hrow hname) (hline.outside hrow hmem).1
  have hkept : t.span.start ∉ ss.map (·.start) := by
    rw [hline.start_mem_iff hrow hmem]
    intro hs
    obtain ⟨u, hu, hspan⟩ := List.mem_map.mp (hss.subset hs)
    obtain ⟨-, hrest, hbefore⟩ := lined_append_iff.mp hline
    obtain ⟨-, -, hbehind⟩ := lined_append_iff.mp hrest
    rcases List.mem_append.mp hu with hu | hu
    · have hlt := hbefore u hu t (List.mem_append_left _ htus)
      rw [hspan] at hlt
      omega
    · have hlt := hbehind t htus u hu
      rw [hspan] at hlt
      omega
  rw [Function.comp_apply, Recast.token_same (r := .naming name ss) fun _ _ => if_neg hkept,
    forth_token, forth_token]
  simp only [Recast.span, Recast.naming, hwstart, hostart, hwstop, hostop]
  rw [hostart] at hle
  congr 2 <;> omega

theorem Token.brackets_recast (r : Recast) (ts : List Token) :
    brackets (ts.map r.token) = (brackets ts).map fun b => (r.place b.1, b.2) := by
  rw [brackets, brackets, List.filterMap_map, List.map_filterMap]
  refine List.filterMap_congr fun t _ => ?_
  obtain ⟨value, span⟩ := t
  cases value with
  | symbol s => cases s <;> rfl
  | _ => rfl

/-- Variables that brackets keep away from the names stay clear: what they head ends in these brackets,
where the tokens move together. -/
theorem Walled.clear {ts : List Token} {e e' : Token} {v : Nat} (hwalled : Walled ts ss v)
    (hline : Lined ts) (hname : ∀ s ∈ ss, IsName (name s.start)) (hranked : Ranked (ts ++ [e]))
    (hranked' : Ranked (ts.map (Recast.naming name ss).token ++ [e'])) (hclear : Clear [v] (ts ++ [e])) :
    Clear [(Recast.naming name ss).place v] (ts.map (Recast.naming name ss).token ++ [e']) := by
  obtain ⟨pre, us, w, post, next, q, b, rfl, hq, hw, hv, hss⟩ := hwalled
  obtain ⟨t, ht, rfl⟩ := spells_variable_starts hq v hv
  obtain ⟨as, xs, rfl⟩ := List.append_of_mem ht
  have hshift := naming_shift (t :: xs) hline hss hname ht fun u hu => List.mem_append_right _ hu
  generalize Recast.naming name ss = r at *
  have hsplit : pre ++ (as ++ t :: xs ++ w :: post) ++ [e] =
      (pre ++ as) ++ (t :: xs ++ w :: (post ++ [e])) := by simp
  have hsplit' : (pre ++ (as ++ t :: xs ++ w :: post)).map r.token ++ [e'] =
      (pre ++ as).map r.token ++ ((t :: xs).map r.token ++ r.token w :: (post.map r.token ++ [e'])) := by
    simp
  rw [hsplit] at hranked hclear
  rw [hsplit'] at hranked' ⊢
  intro pre' t' post' text hts hvalue hstart hheads
  obtain ⟨-, rfl, rfl⟩ := hranked'.unique hts (List.mem_singleton.mp hstart).symm
  have hfront : Ranked (t :: xs) := hranked.behind.front
  have hfront' : Ranked ((t :: xs).map r.token) := hranked'.behind.front
  -- From the variable on, more brackets are closed than opened: a literal ends before the bracket.
  have hopened : Nesting.opened (brackets ((t :: xs).map r.token)) ≤
      Nesting.closed (brackets ((t :: xs).map r.token)) := by
    have hle := spells_behind hq
    rw [brackets_recast, Nesting.opened, Nesting.closed, List.countP_map, List.countP_map]
    exact hle
  have hwithin : HeadsLiteral ((t :: xs).map r.token ++ []) :=
    HeadsLiteral.within hranked'.behind (by simpa using hfront') (Recast.token_symbol hw) hopened hheads
  rw [List.append_nil, ← headsLiteral_forth hfront', hshift, headsLiteral_forth hfront] at hwithin
  obtain ⟨text', ht'⟩ := Recast.name_of_token hvalue
  refine hclear (pre ++ as) t (xs ++ w :: (post ++ [e])) text' (by simp) ht' (List.mem_singleton_self _) ?_
  rw [← List.append_nil (t :: xs)] at hfront hwithin
  exact hwithin.before hfront hranked.behind (by simp)

end Walls

/-- New names are clear among the changed tokens, then all variables are. -/
theorem Framed.clear {ts : List Token} {ss : List Span} {vars : List Nat} {name : Nat → List Char}
    {e e' : Token} (hframed : Framed ts ss vars) (hline : Lined ts)
    (hname : ∀ s ∈ ss, IsName (name s.start)) (hranked : Ranked (ts ++ [e]))
    (hranked' : Ranked (ts.map (Recast.naming name ss).token ++ [e'])) (hclear : Clear vars (ts ++ [e]))
    (hnew : Clear ((ss.map (Recast.naming name ss).span).map (·.start))
      (ts.map (Recast.naming name ss).token ++ [e'])) :
    Clear (vars.map (Recast.naming name ss).place) (ts.map (Recast.naming name ss).token ++ [e']) := by
  intro pre t post text hts ht hv
  obtain ⟨v, hmem, hstart⟩ := List.mem_map.mp hv
  rcases hframed.others v hmem with ⟨s, hs, rfl⟩ | hwalled
  · exact hnew pre t post text hts ht (hstart ▸ List.mem_map_of_mem (List.mem_map_of_mem hs))
  · have hone : Clear [v] (ts ++ [e]) := hclear.mono fun u hu => List.mem_singleton.mp hu ▸ hmem
    exact hwalled.clear hline hname hranked hranked' hone pre t post text hts ht
      (hstart ▸ List.mem_singleton_self _)

/-- No word but that of map types heads a composite literal. -/
theorem clear_of_words {vars : List Nat} {ts : List Token}
    (h : ∀ t ∈ ts, t.span.start ∈ vars → t.value ≠ .atom (.name "map".toList)) : Clear vars ts := by
  rintro pre t post text rfl ht hv ⟨n, -, hread⟩
  refine hread (Phrase.Level.composite_missing (fun u _ hword => ?_) (by simp [ht]))
  exact absurd hword (h t (by simp) hv)

/-- The new names are what the changed tokens say in their places. -/
theorem new_names_clear {ts : List Token} {ss : List Span} {name : Nat → List Char} {e' : Token}
    (hss : ss.Sublist (ts.map (·.span)))
    (hranked' : Ranked (ts.map (Recast.naming name ss).token ++ [e']))
    (hwords : ∀ s ∈ ss, name s.start ≠ "map".toList) :
    Clear ((ss.map (Recast.naming name ss).span).map (·.start))
      (ts.map (Recast.naming name ss).token ++ [e']) := by
  refine clear_of_words fun t' ht' hv hword => ?_
  rw [List.map_map] at hv
  obtain ⟨s, hs, hstart⟩ := List.mem_map.mp hv
  obtain ⟨t, ht, rfl⟩ := List.mem_map.mp (hss.subset hs)
  obtain rfl := hranked'.eq_of_start (List.mem_append_left _ (List.mem_map_of_mem ht)) ht' hstart
  obtain ⟨text, htext⟩ := Recast.name_of_token hword
  rw [Recast.token_name htext] at hword
  have hnew : (if t.span.start ∈ ss.map (·.start) then name t.span.start else text) = "map".toList :=
    Atom.name.inj (Lexeme.atom.inj hword)
  rw [if_pos (List.mem_map.mpr ⟨t.span, hs, rfl⟩)] at hnew
  exact hwords t.span hs hnew

/-- The variables of a compiled tree are clear in its source. -/
theorem compile_clear {limit : Nat} {source : String} {e : Expr} (h : compile limit source = .ok e) :
    Clear (e.idents.map (·.start)) (Token.list source.toList) := by
  obtain ⟨p, us, b, hp, hlaid, hspells, hb, rfl⟩ := compile_spells h
  have hclear : Clear p.variables (Token.list source.toList) :=
    clear_ofTokens (hlaid.list_eq ▸ hlaid.ranked) hp
  refine hclear.mono fun v hv => ?_
  obtain ⟨s, hs, rfl⟩ := List.mem_map.mp hv
  rw [Phrase.idents_eq_names hb] at hs
  exact (spells_framed hspells).starts s hs

theorem Laid.length_le {cs : List Char} {ts : List Token} (h : Laid 0 cs ts) : ts.length ≤ cs.length := by
  have hle := length_said_le cs
  rw [said, List.length_map, h.list_eq, List.length_append, List.length_singleton] at hle
  omega

/-- Names are written over names that become nodes. -/
theorem Framed.renames {next : Nat} {ts : List Token} {f : Form} {ss : List Span}
    {name : Nat → List Char} (h : Framed ts ss f.variables) (hline : Lined ts)
    (hspells : Spells next ts f) (hname : ∀ s ∈ ss, IsName (name s.start)) :
    Renames (.naming name ss) name ss 0 0 ts where
  delimited := spells_delimited hspells
  code := spells_code hspells
  order := h.order
  words t ht hs := by
    obtain ⟨u, hu, hstart, hword⟩ := spells_variables hspells _ (h.starts _ hs)
    rwa [← hline.ranked.eq_of_start hu ht hstart]
  names := hname
  gives t ht text _ := by simp only [Recast.naming, hline.start_mem_iff h.order ht]
  place n _ := by simp [Recast.naming]

def Expr.rewritten (e : Expr) (name : Nat → List Char) (source : String) : String :=
  String.ofList (renamed name e.idents 0 source.toList)

def Expr.renamedTree (e : Expr) (name : Nat → List Char) : Expr := e.recast (.naming name e.idents)

section Rewritten

variable {limit limit₀ : Nat} {source : String} {e : Expr} {name : Nat → List Char}

/-- A rewritten source is compiled to the tree with the new names exactly where these are clear in it, and
so always if none of them is the word of map types. -/
theorem compile_rewritten (h : compile limit₀ source = .ok e)
    (hname : ∀ s ∈ e.idents, IsName (name s.start))
    (hlimit : (e.rewritten name source).toList.length ≤ limit) :
    (compile limit (e.rewritten name source) = .ok (e.renamedTree name) ↔
        Clear ((e.renamedTree name).idents.map (·.start))
          (Token.list (e.rewritten name source).toList)) ∧
      ((∀ s ∈ e.idents, name s.start ≠ "map".toList) →
        compile limit (e.rewritten name source) = .ok (e.renamedTree name)) := by
  obtain ⟨p, ts, b, hp, hlaid, hspells, hb, rfl⟩ := compile_spells h
  have hline := hlaid.lined
  have hclear : Clear p.variables _ := clear_ofTokens hlaid.ranked (hlaid.list_eq ▸ hp)
  have hframed : Framed ts b.expr.idents p.variables := by
    rw [Phrase.idents_eq_names hb]
    exact spells_framed hspells
  have hlaid' := (hlaid.renamed (hframed.renames hline hspells hname)).2
  have hranked' := hlaid'.ranked
  rw [Expr.renamedTree, Expr.rewritten, String.toList_ofList] at *
  rw [Expr.idents_recast]
  generalize renamed name b.expr.idents 0 source.toList = text at *
  generalize hr : Recast.naming name b.expr.idents = r at *
  obtain ⟨p', hspells', hoperands⟩ := spells_before
    (spells_recast hspells (hr ▸ naming_admits hline hframed hname)) (byteSize text)
  have hbuild' : p'.build limit = .ok (b.recast r) := by
    have hstands := Phrase.stands_of_build (spells_settled hspells fun v hv => hv) hb
    have hlength := hlaid'.length_le
    rw [List.length_map] at hlength
    have hbuild := Phrase.build_of_length hspells hstands.height_le hb (hlength.trans hlimit)
    exact Phrase.build_of_operands hoperands (Phrase.build_recast hbuild)
  have hcompile : Clear ((b.expr.idents.map r.span).map (·.start)) (Token.list text) →
      compile limit (String.ofList text) = .ok (b.expr.recast r) := by
    intro hnew
    rw [hlaid'.list_eq] at hnew
    subst hr
    have hall := hframed.clear hline hname hlaid.ranked hranked' hclear hnew
    rw [← Phrase.variables_recast] at hall
    refine compile_laid hlimit hlaid' hspells' (hall.mono ?_) hbuild'
    exact Phrase.variables_of_operands hoperands fun v hv => hv
  refine ⟨⟨fun hok => ?_, hcompile⟩, fun hwords => hcompile ?_⟩
  · have hnew := compile_clear hok
    rwa [Expr.idents_recast, String.toList_ofList] at hnew
  · rw [hlaid'.list_eq]
    subst hr
    exact new_names_clear hframed.order hranked' hwords

/-- Words of other languages are names as all others. -/
theorem compile_rewritten_words :
    ∃ e, compile 40 "a + map[b] * é" = .ok e ∧
      e.rewritten (fun n => if n = 0 then "if".toList else "lit".toList) "a + map[b] * é" =
        "if + lit[lit] * lit" ∧
      compile 40 "if + lit[lit] * lit" =
        .ok (e.renamedTree fun n => if n = 0 then "if".toList else "lit".toList) := by
  have hrun : (compile 40 "a + map[b] * é").toOption.any (fun e => decide (
      e.rewritten (fun n => if n = 0 then "if".toList else "lit".toList) "a + map[b] * é" =
        "if + lit[lit] * lit")) = true := by
    decide +kernel
  obtain ⟨e, he, hcheck⟩ := exists_checked hrun
  have hnew := of_decide_eq_true hcheck
  have hwords : ∀ n : Nat, IsName (if n = 0 then "if".toList else "lit".toList) ∧
      (if n = 0 then "if".toList else "lit".toList) ≠ "map".toList := by
    intro n
    split <;> decide
  have hcompiled : compile 40 (e.rewritten (fun n => if n = 0 then "if".toList else "lit".toList)
      "a + map[b] * é") = .ok (e.renamedTree fun n => if n = 0 then "if".toList else "lit".toList) := by
    refine (compile_rewritten he (fun s _ => (hwords s.start).1) ?_).2 fun s _ => (hwords s.start).2
    rw [hnew]
    decide
  rw [hnew] at hcompiled
  exact ⟨e, he, hnew, hcompiled⟩

/-- The word of map types in place of a variable takes what follows for a type. -/
theorem map_for_variable_fails :
    ∃ e, compile 40 "a[b] * []lit{1}[0]" = .ok e ∧
      (∀ s ∈ e.idents, IsName (if s.start = 0 then "map".toList else "b".toList)) ∧
      e.rewritten (fun n => if n = 0 then "map".toList else "b".toList) "a[b] * []lit{1}[0]" =
        "map[b] * []lit{1}[0]" ∧
      ∀ e', compile 40 "map[b] * []lit{1}[0]" ≠ .ok e' := by
  have hrun : (compile 40 "a[b] * []lit{1}[0]").toOption.any (fun e => decide (
      e.rewritten (fun n => if n = 0 then "map".toList else "b".toList) "a[b] * []lit{1}[0]" =
        "map[b] * []lit{1}[0]")) = true := by
    decide +kernel
  obtain ⟨f, hf⟩ : ∃ f, compile 40 "map[b] * []lit{1}[0]" = .error f :=
    exists_error (by decide +kernel)
  obtain ⟨e, he, hcheck⟩ := exists_checked hrun
  refine ⟨e, he, fun s _ => ?_, of_decide_eq_true hcheck, fun e' he' => ?_⟩
  · split <;> decide
  · cases hf.symm.trans he'

end Rewritten

end Formula
