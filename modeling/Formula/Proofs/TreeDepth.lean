import Formula.Compile
import Formula.Proofs.BracketAgreement
import Formula.Proofs.GrammarComplete
import Formula.Proofs.Lexing
import Formula.Proofs.NestingBound

namespace Formula

open Formula.Nesting Formula.Parser

def Phrase.treeDepth (p : Phrase) : Nat := p.ruleDepth + 1

def Admits (limit : Nat) (source : List Char) (p : Phrase) : Prop :=
  firstDeeper? limit 0 (brackets .code 0 source) = none ∧
    Phrase.ofTokens? (Token.list source) = some p

/-- The limit alone bounds a measure of the texts in `sources` that pass. -/
def Bounded (sources : Set (List Char)) (measure : List Char → Phrase → Nat) : Prop :=
  ∃ bound : Nat → Nat, ∀ limit, ∀ source ∈ sources, ∀ p, Admits limit source p →
    measure source p ≤ bound limit

section

variable {limit : Nat} {source : List Char} {p : Phrase}

theorem Admits.spells (h : Admits limit source p) :
    ∃ next us, Spells next us (.phrase false p) ∧
      Token.bracketDepth us = Token.bracketDepth (Token.list source) := by
  obtain ⟨-, us, e, hlist, he, hspells⟩ := tokens_of_phrase h.2
  refine ⟨_, us, hspells, ?_⟩
  rw [hlist, Token.bracketDepth, Token.bracketDepth, brackets_finish he]

theorem Admits.bracketDepth_lt (h : Admits limit source p) :
    Token.bracketDepth (Token.list source) < p.treeDepth := by
  obtain ⟨next, us, hspells, hdepth⟩ := h.spells
  have hle := spells_bracketDepth_le hspells
  rw [hdepth] at hle
  exact Nat.lt_succ_of_le hle

/-- Runs of types and levels of brackets leave room for no more rules than this. -/
theorem Admits.treeDepth_le {R N : Nat} (h : Admits limit source p) (hR : p.typeRun ≤ R)
    (hN : Token.bracketDepth (Token.list source) ≤ N) :
    p.treeDepth ≤ (N + 1) * (2 * R + 3) + 1 := by
  obtain ⟨next, us, hspells, hdepth⟩ := h.spells
  have hle := spells_ruleDepth_le hspells hR (hdepth ▸ hN)
  simp only [Form.ruleDepth, Form.allowance] at hle
  rw [Phrase.treeDepth, Nat.add_one_mul]
  omega

/-- Brackets that the check sees nest no deeper than the limit. -/
theorem Admits.bracketDepth_le (h : Admits limit source p) (hagree : AgreesOn source) :
    Token.bracketDepth (Token.list source) ≤ limit := by
  have hnone := h.1
  rw [hagree.1] at hnone
  exact (firstDeeper_eq_none_iff _ (Nat.zero_le limit)).mp hnone

end

/-- The limit bounds how deep rules nest exactly where it bounds runs of types and the nesting of
brackets. The latter is at most the limit in texts on which check and grammar agree, and then only
runs of types are left. -/
theorem tree_depth_bounded_iff (sources : Set (List Char)) :
    (Bounded sources (fun _ p => p.treeDepth) ↔
      Bounded sources (fun _ p => p.typeRun) ∧
        Bounded sources fun source _ => Token.bracketDepth (Token.list source)) ∧
    ∀ limit source p, Admits limit source p → AgreesOn source →
      Token.bracketDepth (Token.list source) ≤ limit ∧
        p.treeDepth ≤ (limit + 1) * (2 * p.typeRun + 3) + 1 := by
  refine ⟨⟨?_, ?_⟩, fun limit source p h hagree => ?_⟩
  · rintro ⟨bound, hbound⟩
    refine ⟨⟨bound, fun limit source hsource p h => ?_⟩, ⟨bound, fun limit source hsource p h => ?_⟩⟩
    · have hle := hbound limit source hsource p h
      exact Nat.le_trans p.typeRun_le (Nat.le_of_succ_le hle)
    · exact Nat.le_trans (Nat.le_of_lt h.bracketDepth_lt) (hbound limit source hsource p h)
  · rintro ⟨⟨runs, hruns⟩, ⟨levels, hlevels⟩⟩
    exact ⟨fun limit => (levels limit + 1) * (2 * runs limit + 3) + 1,
      fun limit source hsource p h =>
        h.treeDepth_le (hruns limit source hsource p h) (hlevels limit source hsource p h)⟩
  · have hlevels := h.bracketDepth_le hagree
    exact ⟨hlevels, h.treeDepth_le (Nat.le_refl _) hlevels⟩

/-- Two levels of brackets and a run of two types leave room for the eight rules that nest here. -/
theorem tree_depth_of_matrix : ∃ p, Admits 2 "[][]lit\x7b(1)\x7d".toList p ∧
    p.treeDepth ≤ (2 + 1) * (2 * p.typeRun + 3) + 1 := by
  obtain ⟨p, hp⟩ : ∃ p, Phrase.ofTokens? (Token.list "[][]lit\x7b(1)\x7d".toList) = some p :=
    Option.isSome_iff_exists.mp (by decide +kernel)
  have hadmits : Admits 2 "[][]lit\x7b(1)\x7d".toList p := ⟨by decide +kernel, hp⟩
  have hagree := agreesOn_of_eq hp (by decide +kernel)
  exact ⟨p, hadmits, ((tree_depth_bounded_iff Set.univ).2 2 _ p hadmits hagree).2⟩

/-- A composite literal without elements whose element type is a pointer to a pointer and so on. -/
def pointers (n : Nat) : List Char := "[]".toList ++ (List.replicate n '*' ++ "lit\x7b\x7d".toList)

theorem brackets_pointers (n : Nat) :
    brackets .code 0 (pointers n) =
      [(0, true), (1, false), (2 + n + 3, true), (2 + n + 3 + 1, false)] := by
  have hquiet : ∀ c ∈ List.replicate n '*', Lexeme.IsQuiet c := by
    intro c hc
    obtain rfl := List.eq_of_mem_replicate hc
    decide
  have hsize : byteSize (List.replicate n '*') = n := by
    induction n with
    | zero => rfl
    | succ n ih =>
      rw [List.replicate_succ, byteSize, ih fun c hc => hquiet c (by simp_all)]
      exact Nat.add_comm 1 n
  calc
    brackets .code 0 (pointers n)
      = (0, true) :: (1, false) ::
          brackets .code 2 (List.replicate n '*' ++ "lit\x7b\x7d".toList) := rfl
    _ = (0, true) :: (1, false) :: brackets .code (2 + n) "lit\x7b\x7d".toList := by
      rw [brackets_quiet hquiet, hsize]
    _ = [(0, true), (1, false), (2 + n + 3, true), (2 + n + 3 + 1, false)] := rfl

theorem said_pointers (n : Nat) :
    said (pointers n) = .symbol (.opening .square) :: .symbol (.closing .square) ::
      (List.replicate n (.symbol (.op .mul)) ++ [.atom (.name "lit".toList)] ++
        [.symbol (.opening .curly), .symbol (.closing .curly), .finish]) := by
  have htail : said "lit\x7b\x7d".toList = [.atom (.name "lit".toList),
      .symbol (.opening .curly), .symbol (.closing .curly), .finish] := by decide +kernel
  have hstars : said (List.replicate n '*' ++ "lit\x7b\x7d".toList) =
      List.replicate n (.symbol (.op .mul)) ++ said "lit\x7b\x7d".toList := by
    induction n with
    | zero => rfl
    | succ n ih =>
      rw [List.replicate_succ, List.replicate_succ, List.cons_append, List.cons_append, ← ih]
      exact said_read (star_read _)
  rw [List.append_assoc, List.singleton_append, ← htail, ← hstars,
    ← said_read (closing_read .square _), ← said_read (opening_read .square _)]
  rfl

/-- Marks of pointers before a name are a type, and one inside the other. -/
theorem spells_pointers (n next : Nat) {ts : List Token} (h : ts.map (·.value) =
    List.replicate n (.symbol (.op .mul)) ++ [.atom (.name "lit".toList)]) :
    ∃ t, Spells next ts (.type t) ∧ t.run = n := by
  induction n generalizing ts with
  | zero =>
    obtain ⟨t, rfl, ht⟩ := List.map_eq_singleton_iff.mp h
    exact ⟨_, .namedType ht, rfl⟩
  | succ n ih =>
    obtain ⟨m, ts, rfl, hm, hts⟩ := List.map_eq_cons_iff.mp h
    obtain ⟨t, ht, hrun⟩ := ih hts
    exact ⟨_, .pointerType hm ht, congrArg Nat.succ hrun⟩

/-- A single level of brackets admits runs of types of any length. -/
theorem admits_pointers (n : Nat) : ∃ p, Admits 1 (pointers n) p ∧ n < p.treeDepth := by
  have hscan : firstDeeper? 1 0 (brackets .code 0 (pointers n)) = none := by
    rw [brackets_pointers]
    rfl
  obtain ⟨l, ts, hlist, hl, hts⟩ := List.map_eq_cons_iff.mp (said_pointers n)
  obtain ⟨r, ts, rfl, hr, hts⟩ := List.map_eq_cons_iff.mp hts
  obtain ⟨type, ts, rfl, htype, hts⟩ := List.map_eq_append_iff.mp hts
  obtain ⟨a, ts, rfl, ha, hts⟩ := List.map_eq_cons_iff.mp hts
  obtain ⟨b, ts, rfl, hb, hts⟩ := List.map_eq_cons_iff.mp hts
  obtain ⟨e, rfl, he⟩ := List.map_eq_singleton_iff.mp hts
  obtain ⟨t, hspells, hrun⟩ := spells_pointers n a.span.start htype
  obtain ⟨p, hp⟩ : ∃ p : Phrase, p = .last (.composite ⟨startOf (l :: r :: type), b.span.stop⟩
    (.slice (l.span.cover t.span) t) []) e.span.start := ⟨_, rfl⟩
  have hphrase : Spells e.span.start (l :: r :: type ++ a :: ([] ++ [b])) (.phrase false p) := by
    rw [hp]
    exact .last (.unsigned (.base (.composite (.sliceType hl hr hspells) trivial ha .noElement hb)))
  have hmap : NoMapType (l :: r :: type ++ a :: ([] ++ [b])) := by
    refine noMapType_of_not_mem ?_
    simp [hl, hr, htype, ha, hb]
  refine ⟨p, ⟨hscan, ?_⟩, ?_⟩
  · rw [hlist]
    simpa using Phrase.ofTokens_complete he hmap hphrase
  · have hle := p.typeRun_le
    have hlt : n < p.typeRun := by
      simp only [hp, Phrase.typeRun, Operand.typeRun, TypeExpr.typeRun, hrun]
      omega
    rw [Phrase.treeDepth]
    omega

/-- No function of the limit bounds how deep rules nest in all texts that pass the check. -/
theorem pointers_nest_without_bound :
    ¬ Bounded Set.univ fun _ p => p.treeDepth := by
  rintro ⟨bound, hbound⟩
  obtain ⟨p, hp, hlt⟩ := admits_pointers (bound 1)
  have hle := hbound 1 _ (Set.mem_univ _) p hp
  exact absurd hlt (Nat.not_lt.mpr hle)

end Formula
