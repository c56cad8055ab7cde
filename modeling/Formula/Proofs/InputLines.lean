import Formula.Command
import Mathlib.Data.List.DropRight

namespace Formula

section Lines

/-- What stands in a line before its line feed; a carriage return right before that belongs to the end. -/
def beforeEnd (line : List Char) : List Char :=
  if line.getLast? = some '\r' then line.dropLast else line

/-- A text that is cut at its line feeds. Behind the last one there is a line only if there is text. -/
inductive Lines : List Char → List (List Char) → Prop
  | none : Lines [] []
  | last {line} (hline : line ≠ []) (h : '\n' ∉ line) : Lines line [line]
  | ended {line rest lines} (h : '\n' ∉ line) (hrest : Lines rest lines) :
      Lines (line ++ '\n' :: rest) (beforeEnd line :: lines)

variable {line cs rest : List Char}

/-- A character before a line belongs to it, unless it is part of its end. -/
theorem beforeEnd_cons {c : Char} (h : c = '\r' → line ≠ []) :
    beforeEnd (c :: line) = c :: beforeEnd line := by
  cases line with
  | nil =>
    have hc : c ≠ '\r' := fun hc => h hc rfl
    simp [beforeEnd, hc]
  | cons d line =>
    simp only [beforeEnd, List.getLast?_cons_cons]
    split <;> rfl

/-- A character that ends no line stands before the first one. -/
theorem textLines_cons {c : Char} (hfeed : c ≠ '\n') (hreturn : c = '\r' → cs.head? ≠ some '\n') :
    textLines (c :: cs) = consFirst c (textLines cs) := by
  apply textLines.eq_4 c cs _ hfeed
  rintro rest hc rfl
  exact hreturn hc rfl

theorem textLines_ended (h : '\n' ∉ line) :
    textLines (line ++ '\n' :: rest) = beforeEnd line :: textLines rest := by
  induction line with
  | nil => rfl
  | cons c line ih =>
    obtain ⟨hc, hline⟩ := not_or.mp (List.mem_cons.not.mp h)
    by_cases hend : c = '\r' ∧ line = []
    · obtain ⟨rfl, rfl⟩ := hend
      rfl
    · have hkept : c = '\r' → line ≠ [] := fun hc hnil => hend ⟨hc, hnil⟩
      have hreturn : c = '\r' → (line ++ '\n' :: rest).head? ≠ some '\n' := by
        intro hc
        obtain ⟨d, tail, rfl⟩ := List.exists_cons_of_ne_nil (hkept hc)
        rintro hd
        exact hline (List.mem_cons.mpr (.inl (Option.some.inj hd).symm))
      rw [List.cons_append, textLines_cons (Ne.symm hc) hreturn, ih hline, consFirst,
        beforeEnd_cons hkept]

theorem textLines_last (hne : line ≠ []) (h : '\n' ∉ line) : textLines line = [line] := by
  induction line with
  | nil => exact absurd rfl hne
  | cons c line ih =>
    obtain ⟨hc, hline⟩ := not_or.mp (List.mem_cons.not.mp h)
    have hreturn : c = '\r' → line.head? ≠ some '\n' :=
      fun _ hd => hline (List.mem_of_head? hd)
    rw [textLines_cons (Ne.symm hc) hreturn]
    cases line with
    | nil => rfl
    | cons d line => rw [ih (List.cons_ne_nil d line) hline, consFirst]

/-- The lines of a text are those that it is cut into at its line feeds. -/
theorem lines_iff {lines : List (List Char)} : Lines cs lines ↔ textLines cs = lines := by
  constructor
  · intro h
    induction h with
    | none => rfl
    | last hline h => exact textLines_last hline h
    | ended h _ ih => rw [textLines_ended h, ih]
  · rintro rfl
    -- The text after the first line feed is shorter.
    induction hn : cs.length using Nat.strongRecOn generalizing cs with
    | ind n ih =>
      by_cases hmem : '\n' ∈ cs
      · obtain ⟨line, rest, rfl, hline⟩ := List.eq_append_cons_of_mem hmem
        rw [textLines_ended hline]
        refine .ended hline (ih rest.length ?_ rfl)
        rw [← hn, List.length_append, List.length_cons]
        omega
      · rcases eq_or_ne cs [] with rfl | hne
        · exact .none
        · rw [textLines_last hne hmem]
          exact .last hne hmem

def EndsLine (cs : List Char) : Prop := cs = [] ∨ cs.getLast? = some '\n'

/-- A text behind lines that have ended has lines of its own. -/
theorem textLines_append (h : EndsLine cs) :
    textLines (cs ++ rest) = textLines cs ++ textLines rest := by
  have hlines : Lines cs (textLines cs) := lines_iff.mpr rfl
  generalize textLines cs = lines at hlines
  induction hlines with
  | none => rfl
  | last hline hfeed =>
    rcases h with h | h
    · exact absurd h hline
    · exact absurd (List.mem_of_getLast? h) hfeed
  | @ended line tail lines hfeed _ ih =>
    have htail : EndsLine tail := by
      rcases eq_or_ne tail [] with hnil | hnil
      · exact .inl hnil
      · refine .inr ?_
        rcases h with h | h
        · exact absurd h (by simp)
        · rwa [List.getLast?_append, List.getLast?_cons_of_ne_nil hnil,
            List.getLast?_eq_some_getLast hnil, Option.some_or, ← List.getLast?_eq_some_getLast hnil] at h
    rw [List.append_assoc, List.cons_append, textLines_ended hfeed, ih htail, List.cons_append]

def IsHeard (line : List Char) : Prop := ∃ c ∈ line, Unicode.isBlank c = false

instance : DecidablePred IsHeard := fun line => List.decidableBEx _ line

theorem trim_isEmpty_iff (line : List Char) :
    (Unicode.trim line).isEmpty = true ↔ ¬ IsHeard line := by
  have hall (cs : List Char) :
      cs.dropWhile Unicode.isBlank = [] ↔ ∀ c ∈ cs, Unicode.isBlank c = true :=
    List.dropWhile_eq_nil_iff
  have hstart : ¬ IsHeard line ↔ Unicode.trimStart line = [] := by
    rw [Unicode.trimStart, hall]
    simp [IsHeard]
  -- Nothing but blanks is left at the end only where nothing is left at the start.
  have hend : Unicode.trimStart line = [] ↔
      ∀ c ∈ Unicode.trimStart line, Unicode.isBlank c = true := by
    rw [← hall, Unicode.trimStart, List.dropWhile_idempotent]
  rw [hstart, hend, List.isEmpty_iff, Unicode.trim, Unicode.trimEnd, List.reverse_eq_nil_iff, hall]
  simp only [List.mem_reverse]

end Lines

namespace Options

variable {o o' : Options} {args extra : List String}

/-- The reading ends well behind an option only where it goes on with options. -/
theorem Outcome.orRead_eq_run {read : Options → Outcome} {next : Except String Options}
    (h : Outcome.orRead read next = .run o') : ∃ o, next = .ok o ∧ read o = .run o' := by
  cases next with
  | ok o => exact ⟨o, rfl, h⟩
  | error reason => cases h

theorem argument_separator : Argument.ofText "--" = .separator := rfl

/-- Only two dashes separate. -/
theorem eq_dashes_of_separator {arg : String} (h : Argument.ofText arg = .separator) : arg = "--" := by
  rw [Argument.ofText] at h
  split at h
  · next hdashes => exact String.toList_injective hdashes
  · split at h
    repeat' split at h
    all_goals cases h
  all_goals cases h

theorem readPlain_append (h : o.readPlain args = .run o') :
    o.readPlain (args ++ extra) = o'.readPlain extra := by
  induction args generalizing o with
  | nil =>
    cases h
    rfl
  | cons arg args ih =>
    obtain ⟨next, hnext, h⟩ := Outcome.orRead_eq_run h
    rw [List.cons_append, readPlain, hnext, Outcome.orRead, ih h]

/-- More arguments behind options that are read are read with these; behind two dashes they are
expressions. -/
theorem read_append (h : o.read args = .run o') :
    o.read (args ++ extra) = if "--" ∈ args then o'.readPlain extra else o'.read extra := by
  have dashes {arg : String} {args : List String} (harg : Argument.ofText arg ≠ .separator) :
      "--" ∈ arg :: args ↔ "--" ∈ args := by
    have hne : "--" ≠ arg := fun he => harg (he ▸ argument_separator)
    rw [List.mem_cons, or_iff_right hne]
  induction o, args using Options.read.induct with
  | case1 o =>
    cases h
    rfl
  | case2 o arg args harg =>
    obtain rfl := eq_dashes_of_separator harg
    rw [read.eq_def] at h ⊢
    rw [if_pos List.mem_cons_self]
    exact readPlain_append h
  -- An argument that is complete: the reading goes on behind it.
  | case3 o arg args text harg ih | case7 o arg args harg ih | case8 o arg args harg ih
  | case10 o arg args text harg ih =>
    have hne : Argument.ofText arg ≠ .separator := by rw [harg]; nofun
    rw [read.eq_def] at h ⊢
    simp only [List.cons_append, harg, dashes hne] at h ⊢
    obtain ⟨next, hnext, h⟩ := Outcome.orRead_eq_run h
    rw [hnext, Outcome.orRead]
    exact ih next h
  -- An argument that takes the next one, which is there.
  | case6 o arg harg value args hvalue ih =>
    have hne : Argument.ofText arg ≠ .separator := by rw [harg]; nofun
    have hdashes : Argument.ofText value ≠ .separator := by
      intro hv
      obtain rfl := eq_dashes_of_separator hv
      exact hvalue rfl
    rw [read.eq_def] at h ⊢
    simp only [List.cons_append, harg, if_neg hvalue, dashes hne, dashes hdashes] at h ⊢
    obtain ⟨next, hnext, h⟩ := Outcome.orRead_eq_run h
    rw [hnext, Outcome.orRead]
    exact ih next h
  | case4 o arg harg | case9 o arg args harg | case11 o arg args reason harg =>
    rw [read.eq_def] at h
    simp only [harg] at h
    cases h
  | case5 o arg harg value args hvalue =>
    rw [read.eq_def] at h
    simp only [harg, hvalue] at h
    cases h

end Options

namespace Command

namespace Interpreter

def fresh (s : Interpreter) : Interpreter := { s with output := "", errors := "", failures := 0 }

def followedBy (s t : Interpreter) : Interpreter :=
  { s with
    output := s.output ++ t.output
    errors := s.errors ++ t.errors
    failures := s.failures + t.failures }

variable {s t : Interpreter}

theorem print_followedBy (text : String) : (s.followedBy t).print text = s.followedBy (t.print text) := by
  simp only [followedBy, print, String.append_assoc]

theorem fail_followedBy (failure : Failure) :
    (s.followedBy t).fail failure = s.followedBy (t.fail failure) := by
  simp only [followedBy, fail, String.append_assoc, Nat.add_assoc]

theorem followedBy_fresh (s : Interpreter) : s.followedBy s.fresh = s := by
  simp only [followedBy, fresh, String.append_empty, Nat.add_zero]

/-- What is printed and counted for an expression is what is printed and counted for it on its own. -/
theorem interpret_eq (s : Interpreter) (source : String) :
    s.interpret source = s.followedBy (s.fresh.interpret source) := by
  have hengine : s.fresh.engine = s.engine := rfl
  rw [interpret, interpret, hengine]
  cases s.engine.compile source with
  | error failure =>
    change s.fail failure = s.followedBy (s.fresh.fail failure)
    rw [← fail_followedBy, followedBy_fresh]
  | ok c =>
    have hlisted : (if s.listing then s.print (listingText c.expr) else s) =
        s.followedBy (if s.fresh.listing then s.fresh.print (listingText c.expr) else s.fresh) := by
      change _ = s.followedBy (if s.listing then _ else _)
      split
      · rw [← print_followedBy, followedBy_fresh]
      · exact s.followedBy_fresh.symm
    have hresult : (if s.fresh.listing then s.fresh.print (listingText c.expr)
        else s.fresh).resultText c = s.resultText c := by
      split <;> rfl
    have hsame (t : Interpreter) : (s.followedBy t).resultText c = s.resultText c := rfl
    simp only [hlisted, hresult, hsame]
    cases s.resultText c with
    | ok text => exact print_followedBy _
    | error failure => exact fail_followedBy failure

/-- Interpreting an expression changes nothing but what was printed and counted. -/
theorem fresh_interpret (s : Interpreter) (source : String) :
    (s.interpret source).fresh = s.fresh := by
  rw [interpret]
  split
  · rfl
  · dsimp only
    split <;> split <;> rfl

/-- Lines are interpreted one behind the other, each as if it stood alone. -/
theorem interpretLines_eq (s : Interpreter) (lines : List (List Char)) :
    s.interpretLines lines =
      ((lines.filter (IsHeard ·)).map fun line => s.fresh.interpret (String.ofList line)).foldl
        followedBy s := by
  induction lines generalizing s with
  | nil => rfl
  | cons line lines ih =>
    rw [interpretLines, ih]
    by_cases h : IsHeard line
    · have hempty : ¬ (Unicode.trim line).isEmpty = true := fun he => (trim_isEmpty_iff line).mp he h
      rw [if_neg hempty, fresh_interpret, List.filter_cons, if_pos (decide_eq_true h), List.map_cons,
        List.foldl_cons, ← interpret_eq]
    · rw [if_pos ((trim_isEmpty_iff line).mpr h), List.filter_cons, if_neg (by simpa using h)]

theorem output_foldl (s : Interpreter) (ts : List Interpreter) :
    (ts.foldl followedBy s).output = s.output ++ String.join (ts.map (·.output)) := by
  induction ts generalizing s with
  | nil => simp
  | cons t ts ih =>
    rw [List.foldl_cons, ih, List.map_cons, String.join_cons, ← String.append_assoc]
    rfl

theorem failures_foldl_eq_zero (s : Interpreter) (ts : List Interpreter) :
    (ts.foldl followedBy s).failures = 0 ↔ s.failures = 0 ∧ ∀ t ∈ ts, t.failures = 0 := by
  induction ts generalizing s with
  | nil => simp
  | cons t ts ih =>
    rw [List.foldl_cons, ih, List.forall_mem_cons, ← and_assoc]
    exact and_congr_left' Nat.add_eq_zero_iff

theorem output_transcript (s : Interpreter) : s.transcript.output = s.output := by
  rw [transcript]
  split <;> rfl

theorem status_transcript (s : Interpreter) :
    s.transcript.status = if s.failures = 0 then 0 else 1 := by
  rw [transcript]
  split <;> rfl

end Interpreter

def withArgument (args : List String) (text : String) : List String :=
  if "--" ∈ args then args ++ [text] else args ++ ["--", text]

section Run

variable {args : List String} {o : Options}

/-- With an expression behind options that have none, that expression is interpreted. -/
theorem run_withArgument (hargs : ({} : Options).read args = .run o) (hnone : o.expression = none)
    (text input : String) :
    run (withArgument args text) input = ((Interpreter.start o).interpret text).transcript := by
  have hread : ({} : Options).read (withArgument args text) =
      .run { o with expression := some text } := by
    have hplain : o.readPlain [text] = .run { o with expression := some text } := by
      simp only [Options.readPlain, Options.withExpression, hnone, Options.Outcome.orRead]
    rw [withArgument]
    split
    · next hdashes => rw [Options.read_append hargs, if_pos hdashes, hplain]
    · next hdashes =>
      rw [Options.read_append hargs, if_neg hdashes]
      exact hplain
  rw [run, hread]
  rfl

theorem run_without_expression (hargs : ({} : Options).read args = .run o)
    (hnone : o.expression = none) (input : String) :
    run args input = ((Interpreter.start o).interpretLines (textLines input.toList)).transcript := by
  rw [run, hargs]
  simp only [runOptions, hnone]

/-- What each line that is heard prints on its own makes up what is printed, and its failure counts. -/
theorem run_lines (hargs : ({} : Options).read args = .run o) (hnone : o.expression = none)
    (input : String) :
    let alone := ((textLines input.toList).filter (IsHeard ·)).map fun line =>
      (Interpreter.start o).interpret (String.ofList line)
    (run args input).output = String.join (alone.map (·.output)) ∧
      (run args input).status = if ∀ t ∈ alone, t.failures = 0 then 0 else 1 := by
  intro alone
  have hstart : (Interpreter.start o).fresh = Interpreter.start o := rfl
  have hlines : (Interpreter.start o).interpretLines (textLines input.toList) =
      alone.foldl Interpreter.followedBy (Interpreter.start o) := by
    rw [Interpreter.interpretLines_eq, hstart]
  have hfailures : (alone.foldl Interpreter.followedBy (Interpreter.start o)).failures = 0 ↔
      ∀ t ∈ alone, t.failures = 0 :=
    (Interpreter.failures_foldl_eq_zero _ alone).trans (and_iff_right rfl)
  rw [run_without_expression hargs hnone, hlines]
  constructor
  · rw [Interpreter.output_transcript, Interpreter.output_foldl]
    exact String.empty_append
  · simp only [Interpreter.status_transcript, hfailures]

/-- For options without an expression: what is printed for an input is what is printed for its lines, those
left out that hold nothing but blanks, when each is the expression behind the same options; the status is one
if any of these runs fails, and otherwise zero. Inputs of whole lines, one behind the other, print what each
of them prints. -/
theorem lines_run_alone (hargs : ({} : Options).read args = .run o) (hnone : o.expression = none) :
    (∀ (input : String) (lines : List (List Char)), Lines input.toList lines →
      ∀ (inputs : List Char → String),
        let runs := (lines.filter (IsHeard ·)).map fun line =>
          run (withArgument args (String.ofList line)) (inputs line)
        (run args input).output = String.join (runs.map (·.output)) ∧
          (run args input).status = if ∃ t ∈ runs, t.status ≠ 0 then 1 else 0) ∧
    ∀ part rest : String, EndsLine part.toList ∨ rest = "" →
      (run args (part ++ rest)).output = (run args part).output ++ (run args rest).output ∧
        (run args (part ++ rest)).status = max (run args part).status (run args rest).status := by
  constructor
  · intro input lines hlines inputs runs
    obtain ⟨houtput, hstatus⟩ := run_lines hargs hnone input
    obtain rfl := lines_iff.mp hlines
    have hruns : runs = (((textLines input.toList).filter (IsHeard ·)).map fun line =>
        (Interpreter.start o).interpret (String.ofList line)).map (·.transcript) := by
      simp only [runs, List.map_map, run_withArgument hargs hnone]
      rfl
    rw [houtput, hstatus, hruns]
    generalize ((textLines input.toList).filter (IsHeard ·)).map _ = alone
    constructor
    · simp only [List.map_map, Function.comp_def, Interpreter.output_transcript]
    · by_cases h : ∀ t ∈ alone, t.failures = 0
      · have hnone : ¬ ∃ t ∈ alone.map (·.transcript), t.status ≠ 0 := by
          simpa [Interpreter.status_transcript] using h
        rw [if_pos h, if_neg hnone]
      · have hsome : ∃ t ∈ alone.map (·.transcript), t.status ≠ 0 := by
          simpa [Interpreter.status_transcript] using h
        rw [if_neg h, if_pos hsome]
  · intro part rest h
    have hlines : textLines (part ++ rest).toList = textLines part.toList ++ textLines rest.toList := by
      rw [String.toList_append]
      rcases h with h | rfl
      · exact textLines_append h
      · simp [textLines]
    obtain ⟨houtput, hstatus⟩ := run_lines hargs hnone (part ++ rest)
    obtain ⟨hpart, hpartStatus⟩ := run_lines hargs hnone part
    obtain ⟨hrest, hrestStatus⟩ := run_lines hargs hnone rest
    rw [houtput, hstatus, hpart, hpartStatus, hrest, hrestStatus, hlines]
    have hmax (p q : Prop) [Decidable p] [Decidable q] [Decidable (p ∧ q)] :
        (if p ∧ q then 0 else 1) = max (if p then 0 else 1) (if q then 0 else 1) := by
      by_cases hp : p <;> by_cases hq : q <;> simp [hp, hq]
    simp only [List.filter_append, List.map_append, List.forall_mem_append]
    exact ⟨String.join_append, hmax _ _⟩

/-- A blank line, a line that fails between two that do not, and an end of two characters. -/
theorem lines_run_alone_mixed :
    let args := ["--debug-parse", "--bool", "--var", "x=2"]
    let input := "x == 2\r\n \t\n1/0\n!(x == 3)"
    let runs := ["x == 2", "1/0", "!(x == 3)"].map fun line => run (withArgument args line) ""
    (run args input).output = String.join (runs.map (·.output)) ∧ (run args input).status = 1 ∧
      runs.map (·.status) = [0, 1, 0] ∧
      (run args input).output =
        (run args "x == 2\r\n \t\n").output ++ (run args "1/0\n!(x == 3)").output := by
  intro args input runs
  have hargs : ({} : Options).read args = .run ⟨[("x", .str "2")], true, true, none⟩ := rfl
  obtain ⟨halone, hsplit⟩ := lines_run_alone hargs rfl
  have hlines : Lines input.toList
      ["x == 2".toList, " \t".toList, "1/0".toList, "!(x == 3)".toList] :=
    lines_iff.mpr (by decide +kernel)
  obtain ⟨houtput, hstatus⟩ := halone input _ hlines fun _ => ""
  have hstatuses : runs.map (·.status) = [0, 1, 0] := by decide +kernel
  have hends : EndsLine "x == 2\r\n \t\n".toList := .inr (by decide +kernel)
  have hboth := hsplit "x == 2\r\n \t\n" "1/0\n!(x == 3)" (.inl hends)
  have hfailed : ∃ t ∈ runs, t.status ≠ 0 := by
    have hmem : 1 ∈ runs.map (·.status) := by
      rw [hstatuses]
      decide
    obtain ⟨t, ht, hone⟩ := List.mem_map.mp hmem
    exact ⟨t, ht, by rw [hone]; decide⟩
  exact ⟨houtput, hstatus.trans (if_pos hfailed), hstatuses, hboth.1⟩

end Run

end Command

end Formula
