import Formula.Proofs.LaidText
import Formula.Proofs.OpenBrackets

namespace Formula

open Token Formula.Parser

section Heads

variable {us : List Token} {k : Nat}

/-- Variables that are clear among the tokens of a text are clear among those of a part of it. -/
theorem clear_part {vars : List Nat} {pre post : List Token} {e : Token}
    (hranked : Ranked (pre ++ (us ++ post)))
    (hranked' : Ranked (us.map (Recast.back k).token ++ [e]))
    (hpast : Past k (us ++ post)) (hvars : ∀ v ∈ vars, k ≤ v)
    (he : e.value = .finish) (hclear : Clear vars (pre ++ (us ++ post))) :
    Clear (vars.map (· - k)) (us.map (Recast.back k).token ++ [e]) := by
  rintro a t b text hts ht hv hheads
  obtain ⟨v, hmem, hstart⟩ := List.mem_map.mp hv
  obtain ⟨b, rfl, hus⟩ : ∃ b', b = b' ++ [e] ∧ us.map (Recast.back k).token = a ++ t :: b' := by
    rcases List.eq_nil_or_concat' b with rfl | ⟨b, z, rfl⟩
    · obtain ⟨-, hte⟩ := List.append_inj' hts rfl
      rw [(List.cons.inj hte).1.symm, he] at ht
      cases ht
    · have hsplit : us.map (Recast.back k).token ++ [e] = (a ++ t :: b) ++ [z] := by simpa using hts
      obtain ⟨hus, hz⟩ := List.append_inj' hsplit rfl
      exact ⟨b, by rw [(List.cons.inj hz).1], hus⟩
  obtain ⟨as, bs, rfl, rfl, hbs⟩ := List.map_eq_append_iff.mp hus
  obtain ⟨u, bs, rfl, rfl, rfl⟩ := List.map_eq_cons_iff.mp hbs
  rw [back_token] at ht hstart
  have hu : k ≤ u.span.start := (hpast u (by simp)).1
  have hvu : v = u.span.start := by
    have hkv := hvars v hmem
    simp only at hstart
    omega
  have hback : Past k (u :: bs ++ post) := by
    intro t ht
    exact hpast t (by simp only [List.cons_append, List.mem_cons, List.mem_append] at ht ⊢; tauto)
  have hsplit : pre ++ (as ++ u :: bs ++ post) = (pre ++ as) ++ (u :: bs ++ post) := by simp
  rw [hsplit] at hranked hclear
  have hbehind : Ranked ((u :: bs ++ post).map (Recast.back k).token) := ranked_back hback hranked.behind
  refine hclear (pre ++ as) u (bs ++ post) text rfl ht (hvu ▸ hmem) ?_
  -- What the part heads, the tokens behind it do not change; and they have all moved together.
  have hlonger : HeadsLiteral ((u :: bs ++ post).map (Recast.back k).token) := by
    rw [List.map_append] at hbehind ⊢
    refine HeadsLiteral.before ?_ hbehind ?_ hheads
    · rw [hts] at hranked'
      exact hranked'.behind
    · intro t ht hcode
      obtain rfl := Option.some.inj ht
      rcases hcode with ⟨_, ha⟩ | ⟨_, hs⟩
      · cases he.symm.trans ha
      · cases he.symm.trans hs
  have hforth := (headsLiteral_forth (k := k) hbehind).mpr hlonger
  rwa [forth_back hback] at hforth

end Heads

/-- What follows an operand makes no difference to it, and to a phrase only where it stops. -/
theorem spells_before {next : Nat} {ts : List Token} {f : Form} (h : Spells next ts f) (next' : Nat) :
    match f with
    | .phrase joined p => ∃ q, Spells next' ts (.phrase joined q) ∧ q.operands = p.operands
    | .operand _ | .indexed _ | .primary _ => Spells next' ts f
    | _ => True := by
  induction h with
  | last h ih => exact ⟨_, .last ih, rfl⟩
  | join h hop hr ih ihr =>
    obtain ⟨q, hq, hoperands⟩ := ihr
    exact ⟨_, .join h hop hq, by rw [Phrase.operands, hoperands, Phrase.operands]⟩
  | signed ht hs h ih => exact .signed ht hs ih
  | unsigned h ih => exact .unsigned ih
  | base h ih => exact .base ih
  | index hb hl hp hr ihb ihp => exact .index hb hl hp hr
  | atom ht => exact .atom ht
  | group hl hp hr ih => exact .group hl hp hr
  | call hf hl hps hr ih => exact .call hf hl hps hr
  | composite ht hc hl hes hr iht ihes => exact .composite ht hc hl hes hr
  | _ => trivial

section Operands

variable {limit : Nat} {p q : Phrase}

/-- Phrases with the same operands are built to the same. -/
theorem Phrase.build_of_operands {b : Built} (h : q.operands = p.operands)
    (hbuild : p.build limit = .ok b) : q.build limit = .ok b := by
  rw [build, assemble] at hbuild ⊢
  split at hbuild
  · cases hbuild
  · next hnone =>
    have hnone' : q.runFault? limit = none := by
      rw [runFault_eq_none, AllOperands] at hnone ⊢
      rwa [h]
    rw [row_tree] at hbuild ⊢
    rw [hnone']
    rwa [tree, h, ← tree]

theorem Phrase.variables_of_operands (h : q.operands = p.operands) {P : Nat → Prop}
    (hp : ∀ v ∈ p.variables, P v) : ∀ v ∈ q.variables, P v := by
  rw [forall_variables_iff] at hp ⊢
  rwa [AllOperands, h]

end Operands

theorem scan_passes {limit : Nat} {cs : List Char} (h : cs.length ≤ limit) :
    Nesting.firstDeeper? limit 0 (Nesting.brackets .code 0 cs) = none := by
  rw [Nesting.firstDeeper_eq_none_iff _ (Nat.zero_le limit)]
  have hdeepest := Nesting.deepest_le 0 (Nesting.brackets .code 0 cs)
  have hbrackets := Nesting.length_brackets_le .code 0 cs
  omega

theorem Token.Lined.ranked {ts : List Token} (h : Lined ts) : Ranked ts :=
  h.2.imp_of_mem fun {t _} ht _ hle => Nat.lt_of_lt_of_le (h.1 t ht) hle

theorem Laid.ranked {cs : List Char} {ts : List Token} (h : Laid 0 cs ts) :
    Ranked (ts ++ [⟨.finish, byteSize cs, byteSize cs⟩]) := by
  refine List.pairwise_append.mpr ⟨h.lined.ranked, List.pairwise_singleton _ _, fun t ht e he => ?_⟩
  obtain ⟨hne, pre, post, rfl, hspan⟩ := h.stands ht
  obtain rfl := List.mem_singleton.mp he
  have hpos := byteSize_pos hne
  rw [hspan]
  simp only [byteSize_append]
  omega

/-- Tokens that stand in a text and spell a phrase with clear variables are compiled to what the phrase
is built to. -/
theorem compile_laid {limit : Nat} {text : List Char} {us : List Token} {p : Phrase} {b : Built}
    (hlength : text.length ≤ limit) (hlaid : Laid 0 text us)
    (hspells : Spells (byteSize text) us (.phrase false p))
    (hclear : Clear p.variables (us ++ [⟨.finish, byteSize text, byteSize text⟩])) (hbuild : p.build limit = .ok b) :
    compile limit (String.ofList text) = .ok b.expr := by
  have hphrase : Phrase.ofTokens? (Token.list text) = some p := by
    rw [hlaid.list_eq]
    exact Phrase.ofTokens_clear rfl hclear hspells
  rw [compile, String.toList_ofList, build, scan_passes hlength]
  simp only [hphrase, hbuild]

/-- A node of a compiled tree is what its own text is compiled to, moved to the start of that text. -/
theorem compile_node_text {limit : Nat} {source : String} {e n : Expr}
    (h : compile limit source = .ok e) (hlimit : byteSize source.toList + 1 ≤ limit)
    (hn : n ∈ e.nodes) : compile limit (String.ofList (n.span.textIn source.toList)) =
      .ok (n.recast (.back n.span.start)) := by
  obtain ⟨p, ts, hp, hlaid, hspells, hstands⟩ := compile_stands h
  obtain ⟨pre, us, post, rfl, hnode⟩ := hstands.node hn
  have hne := hnode.ne_nil
  have hfits := hlaid.fits hne
  obtain ⟨_, _, _, _, hsize⟩ := hfits.sliced
  have hend : stopOf us ≤ byteSize source.toList := hfits.2.1
  have hclear : Clear p.variables _ := clear_ofTokens hlaid.ranked (hlaid.list_eq ▸ hp)
  obtain ⟨hlaidText, hpast⟩ := hlaid.part (spells_delimited hspells).right_of_append
    (fun t ht => spells_code hspells t (by simp [ht])) hne
  rw [hnode.span]
  change startOf us + _ = stopOf us at hsize
  change compile limit (String.ofList ((cover us).textIn source.toList)) =
    .ok (n.recast (.back (startOf us)))
  generalize (cover us).textIn source.toList = text at hlaidText hsize ⊢
  generalize startOf us = k at hlaidText hpast hsize ⊢
  rw [← Nat.zero_add k] at hlaidText
  cases hnode with
  | @intro next height _ _ q hq hvars hbuild _ _ =>
    obtain ⟨q', hq', hoperands⟩ := spells_before hq (byteSize text + k)
    have hpastText : Past k us := fun t ht => hpast t (List.mem_append_left _ ht)
    have hrecast := spells_recast hq' (admits_back hpastText hlaidText.lined.ranked)
    have hplace : (Recast.back k).place (byteSize text + k) = byteSize text := Nat.add_sub_cancel _ _
    rw [hplace] at hrecast
    have hbuild' := Phrase.build_recast (r := .back k) (Phrase.build_of_operands hoperands hbuild)
    have hlength := length_le_byteSize text
    refine compile_laid (by omega) hlaidText.moved hrecast ?_ hbuild'
    rw [Phrase.variables_recast]
    have hranked := hlaid.ranked
    rw [List.append_assoc, List.append_assoc] at hranked hclear
    refine clear_part hranked hlaidText.moved.ranked ?_ ?_ rfl
      (hclear.mono (Phrase.variables_of_operands hoperands hvars))
    · rw [← List.append_assoc]
      exact List.forall_mem_append.mpr ⟨hpast, by simp; omega⟩
    · intro v hv
      obtain ⟨t, ht, rfl⟩ := spells_variable_starts hq' v hv
      exact (hpastText t ht).1

/-- Nodes with comments in them, the least integer among them. -/
theorem compile_node_text_of_index :
    ∃ e, compile 60 "(é[ -9223372036854775808 ] /* a */ * f(1.5, b))" = .ok e ∧
      ∀ n ∈ e.nodes, compile 60 (String.ofList (n.span.textIn
          "(é[ -9223372036854775808 ] /* a */ * f(1.5, b))".toList)) =
        .ok (n.recast (.back n.span.start)) := by
  obtain ⟨e, he⟩ : ∃ e, compile 60 "(é[ -9223372036854775808 ] /* a */ * f(1.5, b))" = .ok e :=
    exists_ok (by decide +kernel)
  exact ⟨e, he, fun n hn => compile_node_text he (by decide +kernel) hn⟩

end Formula
