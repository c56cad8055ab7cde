import Formula.Proofs.NodeText
import Formula.Proofs.Operators
import Formula.Proofs.ReaderPlaces
import Formula.Proofs.WidenedText

namespace Formula

open Token Formula.Parser

section Edges

variable {limit next : Nat} {vars : List Nat} {ts : List Token} {t : Token} {s : Symbol} {op : PrefixOp}

/-- A sign that an operand starts with is one of its marks. -/
theorem Operand.first_sign {o : Operand} (h : Spells next ts (.operand o)) (ht : t ∈ ts.head?)
    (hs : t.value = .symbol s) (hop : PrefixOp.ofSymbol? s = some op) : .before op ∈ o.marks false := by
  cases h with
  | signed hs' hop' _ =>
    obtain rfl := Option.some.inj ht
    obtain rfl := Lexeme.symbol.inj (hs.symm.trans hs')
    obtain rfl := Option.some.inj (hop.symm.trans hop')
    exact List.mem_cons_self
  | unsigned h =>
    rcases spells_start h t ht with ⟨a, ha⟩ | hb | hb
    · exact absurd (hs.symm.trans ha) nofun
    · obtain rfl := Lexeme.symbol.inj (hs.symm.trans hb)
      cases hop
    · obtain rfl := Lexeme.symbol.inj (hs.symm.trans hb)
      cases hop

theorem Phrase.first_sign {joined : Bool} {p : Phrase} (h : Spells next ts (.phrase joined p))
    (ht : t ∈ ts.head?) (hs : t.value = .symbol s) (hop : PrefixOp.ofSymbol? s = some op) :
    .before op ∈ p.marks false := by
  cases h with
  | last h => exact Operand.first_sign h ht hs hop
  | join h _ _ =>
    exact List.mem_append_left _ (Operand.first_sign h (mem_head_append (h.ne_nil id) ht) hs hop)

/-- A node starts with neither a point nor the second sign of an operator. -/
theorem Expr.Stands.first_apart {e : Expr} (h : e.Stands limit vars ts) :
    ∀ t ∈ ts.head?, t.value ≠ .symbol .dot ∧ t.value ≠ .symbol (.op .bxor) := by
  cases h with
  | @intro _ _ _ _ q hspells _ hbuild =>
    refine fun t ht => ⟨fun hdot => ?_, fun hsign => ?_⟩
    · rcases spells_start hspells t ht with ⟨a, ha⟩ | ⟨s, op, hs, hop⟩ | hb | hb
      · exact absurd (hdot.symm.trans ha) nofun
      · obtain rfl := Lexeme.symbol.inj (hdot.symm.trans hs)
        cases hop
      · exact absurd (hdot.symm.trans hb) nofun
      · exact absurd (hdot.symm.trans hb) nofun
    · have hmark : .before .bitNot ∈ q.marks false := Phrase.first_sign hspells ht hsign rfl
      have hmeaning := (Mark.supported_before _).mp (Phrase.supported_of_build q _ hbuild _ hmark)
      exact hmeaning rfl

/-- A node ends with no sign of an operator. -/
theorem Expr.Stands.last_apart {e : Expr} (h : e.Stands limit vars ts) :
    ∀ t ∈ ts.getLast?, t.value ≠ .symbol .dot ∧ ∀ o, t.value ≠ .symbol (.op o) := by
  cases h with
  | intro hspells =>
    intro t ht
    rcases spells_last hspells t ht with ⟨a, ha⟩ | ⟨b, hb⟩
    · rw [ha]
      exact ⟨nofun, fun _ => nofun⟩
    · rw [hb]
      exact ⟨nofun, fun _ => nofun⟩

/-- No token behind belongs together with the last one before. -/
def Token.Apart (us vs : List Token) : Prop :=
  ∀ t ∈ us.getLast?, ∀ u ∈ vs.head?, ¬ t.Tight u

/-- Where a node starts or stops, the tokens before and behind are apart. -/
theorem Expr.Stands.node_edge {e n : Expr} (h : e.Stands limit vars ts) (hn : n ∈ e.nodes) {p : Nat}
    (hp : p = n.span.start ∨ p = n.span.stop) {z : Token} (hz : z.value = .finish) :
    ∃ us vs, ts = us ++ vs ∧ Edge us vs p ∧ Apart us (vs ++ [z]) := by
  obtain ⟨pre, row, post, rfl, ⟨hpre, hpost⟩, hnode⟩ := h.node_undotted hn
  have hne := hnode.ne_nil
  rw [hnode.span] at hp
  rcases hp with rfl | rfl
  · have hrow : row ++ post ≠ [] := List.append_ne_nil_of_left_ne_nil hne post
    refine ⟨pre, row ++ post, rfl, .inr ⟨hrow, Phrase.startOf_append hne⟩, fun t ht u hu => ?_⟩
    rw [List.append_assoc] at hu
    obtain ⟨hdot, hsign⟩ := hnode.first_apart u (mem_head_append hne hu)
    rintro (⟨-, hu⟩ | ht' | hu)
    · exact hsign hu
    · exact hpre t ht ht'
    · exact hdot hu
  · have hrow : pre ++ row ≠ [] := List.append_ne_nil_of_right_ne_nil pre hne
    refine ⟨pre ++ row, post, (List.append_assoc _ _ _).symm, .inl ⟨hrow, stopOf_append hne⟩, fun t ht u hu => ?_⟩
    rw [List.getLast?_append_of_ne_nil pre hne] at ht
    obtain ⟨hdot, hsign⟩ := hnode.last_apart t ht
    have hbehind : u.value ≠ .symbol .dot := by
      rcases post with _ | ⟨v, post⟩
      · obtain rfl := Option.some.inj hu
        rw [hz]
        exact nofun
      · exact hpost u hu
    rintro (⟨ht', -⟩ | ht' | hu')
    · exact hsign _ ht'
    · exact hdot ht'
    · exact hbehind hu'

end Edges

/-- The change that closes a gap: what stood in it or behind it moves back to where it began. No change opens
one, as the offset where one token stops and the next one starts would go to both of its ends. -/
def Recast.closing (p k : Nat) : Recast := ⟨fun n => min n (max p (n - k)), fun _ text => text⟩

section Closing

variable {p k : Nat} {us vs : List Token}

theorem closing_moves (p k : Nat) : (Recast.closing p k).Moves := ⟨fun _ _ => rfl, Nat.zero_min _⟩

structure Token.Around (p : Nat) (us vs : List Token) : Prop where
  before : ∀ t ∈ us, t.span.start ≤ t.span.stop ∧ t.span.stop ≤ p
  behind : ∀ t ∈ vs, p ≤ t.span.start ∧ t.span.start ≤ t.span.stop

theorem Token.Edge.around (h : Edge us vs p) (hline : Lined (us ++ vs)) : Around p us vs := by
  obtain ⟨hbefore, hbehind⟩ := h.bounds hline
  have hle (t : Token) (ht : t ∈ us ++ vs) : t.span.start ≤ t.span.stop := Nat.le_of_lt (hline.1 t ht)
  exact ⟨fun t ht => ⟨hle t (List.mem_append_left vs ht), hbefore t ht⟩,
    fun t ht => ⟨hbehind t ht, hle t (List.mem_append_right us ht)⟩⟩

def Token.endOf (cs : List Char) : Token := ⟨.finish, byteSize cs, byteSize cs⟩

theorem Token.Around.with_end {cs : List Char} (h : Around p us vs) (hp : p ≤ byteSize cs) :
    Around p us (vs ++ [endOf cs]) := by
  refine ⟨h.before, List.forall_mem_append.mpr ⟨h.behind, fun t ht => ?_⟩⟩
  obtain rfl := List.mem_singleton.mp ht
  exact ⟨hp, Nat.le_refl _⟩

theorem closing_before {t : Token} (h : t.span.start ≤ t.span.stop ∧ t.span.stop ≤ p) :
    (Recast.closing p k).token t = t := by
  have hplace {n : Nat} (hn : n ≤ p) : (Recast.closing p k).place n = n := by
    change min n (max p (n - k)) = n
    omega
  obtain ⟨value, start, stop⟩ := t
  rw [(closing_moves p k).token_eq, Recast.span, hplace h.2, hplace (Nat.le_trans h.1 h.2)]

theorem closing_behind {t : Token} (h : p ≤ t.span.start ∧ t.span.start ≤ t.span.stop) :
    (Recast.closing p k).token ((Recast.forth k).token t) = t := by
  have hplace {n : Nat} (hn : p ≤ n) : (Recast.closing p k).place (n + k) = n := by
    change min (n + k) (max p (n + k - k)) = n
    omega
  obtain ⟨value, start, stop⟩ := t
  rw [forth_token, (closing_moves p k).token_eq, Recast.span, hplace h.1, hplace (Nat.le_trans h.1 h.2)]

/-- With the gap closed, the tokens are those that there were. -/
theorem Token.Around.closed (h : Around p us vs) :
    (us ++ vs.map (Recast.forth k).token).map (Recast.closing p k).token = us ++ vs := by
  rw [List.map_append, List.map_map]
  congr 1
  · exact List.map_congr_left (fun t ht => closing_before (h.before t ht)) |>.trans (List.map_id us)
  · exact List.map_congr_left (fun t ht => closing_behind (h.behind t ht)) |>.trans (List.map_id vs)

/-- No tokens that belong together come to touch as the gap is closed, and none cease to. -/
theorem Token.Around.keeps (h : Around p us vs) (hapart : Apart us vs) :
    (Recast.closing p k).Keeps (us ++ vs.map (Recast.forth k).token) := by
  refine List.isChain_append.mpr ⟨?_, ?_, fun t ht u hu htight => ?_⟩
  · refine List.Pairwise.isChain (List.pairwise_of_forall_mem_list fun t ht u hu _ => ?_)
    rw [closing_before (h.before t ht), closing_before (h.before u hu)]
  · refine (List.isChain_map _).mpr (List.Pairwise.isChain (List.pairwise_of_forall_mem_list fun t ht u hu _ => ?_))
    rw [closing_behind (h.behind t ht), closing_behind (h.behind u hu), Touches, Touches, forth_token, forth_token]
    exact Nat.add_right_cancel_iff.symm
  · rw [List.head?_map] at hu
    obtain ⟨v, hv, rfl⟩ := Option.mem_map.mp hu
    rw [forth_token] at htight
    exact absurd htight (hapart t ht v hv)

end Closing

/-- Where a place is found when a gap of `k` bytes has been opened at `p`. What stops there stays, and what
starts there moves on. -/
def Span.opened (p k : Nat) (s : Span) : Span :=
  ⟨if s.start < p then s.start else s.start + k, if s.stop ≤ p then s.stop else s.stop + k⟩

namespace Expr

mutual

def mapSpans (f : Span → Span) : Expr → Expr
  | constant span value => constant (f span) value
  | ident span name => ident (f span) name
  | unary span op e => unary (f span) op (e.mapSpans f)
  | arith span op l r => arith (f span) op (l.mapSpans f) (r.mapSpans f)
  | compare span op l r => compare (f span) op (l.mapSpans f) (r.mapSpans f)
  | logic span op l r => logic (f span) op (l.mapSpans f) (r.mapSpans f)
  | index span base position => index (f span) (base.mapSpans f) (position.mapSpans f)
  | call span name args => call (f span) name (mapSpansOfAll f args)
  | composite span elements => composite (f span) (mapSpansOfAll f elements)
  | group span inner => group (f span) (inner.mapSpans f)

def mapSpansOfAll (f : Span → Span) : List Expr → List Expr
  | [] => []
  | e :: es => e.mapSpans f :: mapSpansOfAll f es

end

theorem nodes_binary (span : Span) (m : InfixOp.Meaning) (l r : Expr) :
    (binary span m l r).nodes = binary span m l r :: (l.nodes ++ r.nodes) := by
  cases m <;> rfl

variable {r : Recast} {f : Span → Span}

theorem mapSpans_recast_binary (span : Span) (m : InfixOp.Meaning) (left right : Expr) :
    ((binary span m left right).recast r).mapSpans f =
      binary (f (r.span span)) m ((left.recast r).mapSpans f) ((right.recast r).mapSpans f) := by
  cases m <;> rfl

/-- Trees that have moved are found again where each of them is. -/
theorem mapSpansOfAll_recast {es : List Expr}
    (hes : ∀ e ∈ es, (∀ n ∈ e.nodes, f (r.span n.span) = n.span) → (e.recast r).mapSpans f = e)
    (h : ∀ n ∈ nodesOfAll es, f (r.span n.span) = n.span) : mapSpansOfAll f (recastAll r es) = es := by
  induction es with
  | nil => rfl
  | cons e es ih =>
    obtain ⟨hhead, htail⟩ := List.forall_mem_append.mp h
    obtain ⟨he, hes⟩ := List.forall_mem_cons.mp hes
    rw [recastAll, mapSpansOfAll, he hhead, ih hes htail]

/-- A tree that has moved is found again where all of its places are. -/
theorem mapSpans_recast (hr : r.Moves) (e : Expr) (h : ∀ n ∈ e.nodes, f (r.span n.span) = n.span) :
    (e.recast r).mapSpans f = e := by
  induction e using tree_induction with
  | constant span v => exact congrArg (constant · v) (h _ List.mem_cons_self)
  | ident span name =>
    rw [recast, mapSpans, hr.names, String.ofList_toList]
    exact congrArg (ident · name) (h _ List.mem_cons_self)
  | unary span op e ih =>
    obtain ⟨hspan, he⟩ := List.forall_mem_cons.mp h
    rw [recast, mapSpans, ih he]
    exact congrArg (unary · op e) hspan
  | binary span m left right ihl ihr =>
    rw [nodes_binary] at h
    obtain ⟨hspan, hboth⟩ := List.forall_mem_cons.mp h
    obtain ⟨hleft, hright⟩ := List.forall_mem_append.mp hboth
    rw [span_binary] at hspan
    rw [mapSpans_recast_binary, ihl hleft, ihr hright, hspan]
  | index span base position ihb ihp =>
    obtain ⟨hspan, hboth⟩ := List.forall_mem_cons.mp h
    obtain ⟨hbase, hposition⟩ := List.forall_mem_append.mp hboth
    rw [recast, mapSpans, ihb hbase, ihp hposition]
    exact congrArg (index · base position) hspan
  | call span name args ih =>
    obtain ⟨hspan, hargs⟩ := List.forall_mem_cons.mp h
    rw [recast, mapSpans, mapSpansOfAll_recast ih hargs]
    exact congrArg (call · name args) hspan
  | composite span elements ih =>
    obtain ⟨hspan, helements⟩ := List.forall_mem_cons.mp h
    rw [recast, mapSpans, mapSpansOfAll_recast ih helements]
    exact congrArg (composite · elements) hspan
  | group span inner ih =>
    obtain ⟨hspan, hinner⟩ := List.forall_mem_cons.mp h
    rw [recast, mapSpans, ih hinner]
    exact congrArg (group · inner) hspan

end Expr

section Opened

variable {p k : Nat} {us vs : List Token} (h : Around p us vs)
  (hpos : ∀ t ∈ us ++ vs.map (Recast.forth k).token, t.span.start < t.span.stop)

include h hpos

/-- A token that stands before or behind the gap is found again as the gap is opened. -/
theorem Token.Around.opened {t : Token} (ht : t ∈ us ++ vs.map (Recast.forth k).token) :
    ((Recast.closing p k).span t.span).opened p k = t.span := by
  have hlt := hpos t ht
  rcases List.mem_append.mp ht with ht | ht
  · have hbounds := h.before t ht
    have hspan : (Recast.closing p k).span t.span = t.span :=
      congrArg Placed.span (closing_before (k := k) hbounds)
    rw [hspan, Span.opened, if_pos (by omega), if_pos hbounds.2]
  · obtain ⟨v, hv, rfl⟩ := List.mem_map.mp ht
    have hbounds := h.behind v hv
    have hspan : (Recast.closing p k).span ((Recast.forth k).token v).span = v.span :=
      congrArg Placed.span (closing_behind hbounds)
    rw [forth_token] at hlt
    have hstop : v.span.start < v.span.stop := Nat.lt_of_add_lt_add_right hlt
    rw [hspan, Span.opened, if_neg (by omega), if_neg (by omega), forth_token]

/-- So is what reaches from one of the tokens to another one. -/
theorem Token.Around.opened_cover {pre row post : List Token}
    (hrow : us ++ vs.map (Recast.forth k).token = pre ++ (row ++ post)) (hne : row ≠ []) :
    ((Recast.closing p k).span (cover row)).opened p k = cover row := by
  have opened {t : Token} (ht : t ∈ row) : ((Recast.closing p k).span t.span).opened p k = t.span :=
    h.opened hpos (by simp [hrow, ht])
  have hstart : (((Recast.closing p k).span (cover row)).opened p k).start = (cover row).start := by
    obtain ⟨t, row, rfl⟩ := List.exists_cons_of_ne_nil hne
    have ht := congrArg Span.start (opened (t := t) List.mem_cons_self)
    exact ht
  have hstop : (((Recast.closing p k).span (cover row)).opened p k).stop = (cover row).stop := by
    obtain ⟨row, z, rfl⟩ := (List.eq_nil_or_concat' row).resolve_left hne
    have hz := congrArg Span.stop (opened (t := z) (by simp))
    rwa [cover, stopOf_last]
  exact congrArg₂ Span.mk hstart hstop

end Opened

/-- The mark of the end moves on with the tokens. -/
theorem Laid.list_widened {x y w : List Char} {us vs : List Token}
    (h : Laid 0 (x ++ (w ++ y)) (us ++ vs.map (Recast.forth (byteSize w)).token)) :
    Token.list (x ++ (w ++ y)) = us ++ (vs ++ [endOf (x ++ y)]).map (Recast.forth (byteSize w)).token := by
  have hsize : byteSize (x ++ (w ++ y)) = byteSize (x ++ y) + byteSize w := by
    simp only [byteSize_append]
    omega
  rw [h.list_eq, List.map_append, List.map_singleton, forth_token, hsize, List.append_assoc]
  rfl

section Spaced

variable {limit : Nat} {e : Expr} {x y w : List Char} {us vs : List Token}

/-- A text is compiled with blanks in it as without, and closing the gap gives back the tree. -/
theorem exists_compile_widened (h : compile limit (String.ofList (x ++ y)) = .ok e)
    (hlaid : Laid 0 (x ++ y) (us ++ vs))
    (hlaid' : Laid 0 (x ++ (w ++ y)) (us ++ vs.map (Recast.forth (byteSize w)).token))
    (haround : Around (byteSize x) us (vs ++ [endOf (x ++ y)]))
    (hapart : Apart us (vs ++ [endOf (x ++ y)]))
    (hlimit : (x ++ (w ++ y)).length ≤ limit) :
    ∃ e', compile limit (String.ofList (x ++ (w ++ y))) = .ok e' ∧
      e'.recast (.closing (byteSize x) (byteSize w)) = e := by
  obtain ⟨f, _, b, hf, -, -, hbuild, rfl⟩ := compile_spells h
  rw [String.toList_ofList, hlaid.list_eq, List.append_assoc] at hf
  change Phrase.ofTokens? (us ++ (vs ++ [endOf (x ++ y)])) = some f at hf
  have hread := Phrase.ofTokens_recast (closing_moves _ (byteSize w)) (haround.keeps hapart)
  rw [haround.closed, hf, ← hlaid'.list_widened] at hread
  obtain ⟨f', hf', rfl⟩ := Option.map_eq_some_iff.mp hread.symm
  obtain ⟨b', hbuild', rfl⟩ := (Phrase.build_changed _ limit f').exists_ok hbuild
  refine ⟨b'.expr, ?_, rfl⟩
  rw [compile, String.toList_ofList, build, scan_passes hlimit]
  simp only [hf', hbuild']

/-- The nodes of a tree stand where their tokens do, and so are found again as the gap is opened. -/
theorem compile_opened (h : compile limit (String.ofList (x ++ (w ++ y))) = .ok e)
    (hlaid : Laid 0 (x ++ (w ++ y)) (us ++ vs.map (Recast.forth (byteSize w)).token))
    (haround : Around (byteSize x) us vs) :
    ∀ n ∈ e.nodes, ((Recast.closing (byteSize x) (byteSize w)).span n.span).opened (byteSize x) (byteSize w) =
      n.span := by
  intro n hn
  obtain ⟨p, ts, -, hts, -, hstands⟩ := compile_stands h
  rw [String.toList_ofList] at hts
  obtain ⟨htokens, -⟩ := List.append_inj' (hlaid.list_eq.symm.trans hts.list_eq) rfl
  obtain ⟨pre, row, post, rfl, hnode⟩ := hstands.node hn
  rw [hnode.span]
  exact haround.opened_cover hlaid.lined.1 htokens hnode.ne_nil

end Spaced

/-- Blanks that are put where a node starts or stops do not change the tree, but that the places behind them
move on. -/
theorem compile_spaced {limit : Nat} {source : String} {e n : Expr} (h : compile limit source = .ok e)
    (hn : n ∈ e.nodes) {p : Nat} (hp : p = n.span.start ∨ p = n.span.stop) {w : List Char} (hw : Spacing w)
    (hlimit : source.toList.length + w.length ≤ limit) :
    compile limit (String.ofList (takeBytes p source.toList ++ (w ++ dropBytes p source.toList))) =
      .ok (e.mapSpans (·.opened p (byteSize w))) := by
  obtain ⟨f, ts, hf, hlaid, hspells, hstands⟩ := compile_stands h
  obtain ⟨x, y, hcs, rfl⟩ : Boundary source.toList p := by
    obtain ⟨-, -, hstart, hstop⟩ := (compile_placed h n hn).fits
    rcases hp with rfl | rfl
    · exact hstart
    · exact hstop
  obtain rfl : source = String.ofList (x ++ y) := by rw [← hcs, String.ofList_toList]
  rw [String.toList_ofList] at hlaid hlimit ⊢
  obtain ⟨us, vs, rfl, hedge, hapart⟩ := hstands.node_edge hn hp (z := endOf (x ++ y)) rfl
  have hlaid' := hlaid.widened hw (spells_delimited hspells)
    (fun t ht => spells_code hspells t (List.mem_append_left vs ht)) (by rwa [Nat.zero_add])
  have haround := hedge.around hlaid.lined
  have hend : byteSize x ≤ byteSize (x ++ y) := by
    rw [byteSize_append]
    exact Nat.le_add_right _ _
  have hlength : (x ++ (w ++ y)).length ≤ limit := by
    simp only [List.length_append] at hlimit ⊢
    omega
  obtain ⟨e', he', rfl⟩ := exists_compile_widened h hlaid hlaid' (haround.with_end hend) hapart hlength
  rw [takeBytes_append, dropBytes_append, he',
    Expr.mapSpans_recast (closing_moves _ _) e' (compile_opened he' hlaid' haround)]

/-- Blanks of all kinds at both ends of every node. -/
theorem compile_spaced_of_call : Spacing [' ', '\r', '\n', '\t'] ∧
    ∃ e, compile 40 "!b&&f(é,-1)[0]>=(2.5)" = .ok e ∧ ∀ n ∈ e.nodes, ∀ p, p = n.span.start ∨ p = n.span.stop →
      compile 40 (String.ofList (takeBytes p "!b&&f(é,-1)[0]>=(2.5)".toList ++
          ([' ', '\r', '\n', '\t'] ++ dropBytes p "!b&&f(é,-1)[0]>=(2.5)".toList))) =
        .ok (e.mapSpans (·.opened p 4)) := by
  have hblanks : Spacing [' ', '\r', '\n', '\t'] := ⟨List.cons_ne_nil _ _, by simp [Lexeme.spaces]⟩
  obtain ⟨e, he⟩ : ∃ e, compile 40 "!b&&f(é,-1)[0]>=(2.5)" = .ok e := exists_ok (by decide +kernel)
  exact ⟨hblanks, e, he, fun n hn p hp => compile_spaced he hn hp hblanks (by decide)⟩

end Formula
