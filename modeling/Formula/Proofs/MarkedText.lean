import Formula.Engine
import Formula.Proofs.LiteralText
import Formula.Proofs.SourcePlaces
import Formula.Report
import Mathlib.Data.List.Basic

/-!
Reports and the places that they mark. A report shows the line at fault and draws a mark under columns of
it. It takes the byte offsets of a place for offsets of characters, and so the mark is under the place
exactly if every character up to the place takes one byte, and the characters behind the place that the
mark reaches take no columns.
-/

namespace Formula

section Lines

theorem lineAt_cons (number offset : Nat) (line : List Char) {lines : List (List Char)}
    (h : lines ≠ []) : lineAt number offset (line :: lines) =
      if offset < line.length then (number, line, offset)
      else lineAt (number + 1) (offset - line.length) lines := by
  obtain ⟨l, ls, rfl⟩ := List.exists_cons_of_ne_nil h
  rfl

/-- A place in a line that has a character there, or that is the last one, is found at its offset. -/
theorem lineAt_split (number : Nat) {ls ls' : List (List Char)} {line : List Char} {column : Nat}
    (h : column < line.length ∨ ls' = []) :
    lineAt number (ls.flatten.length + column) (ls ++ line :: ls') =
      (number + ls.length, line, column) := by
  induction ls generalizing number with
  | nil =>
    rw [List.flatten_nil, List.length_nil, Nat.zero_add, List.nil_append]
    by_cases hlast : ls' = []
    · subst hlast
      rfl
    · rw [lineAt_cons _ _ _ hlast, if_pos (h.resolve_right hlast)]
      rfl
  | cons l ls ih =>
    have hbeyond : ¬ (l :: ls).flatten.length + column < l.length := by
      rw [List.flatten_cons, List.length_append]
      omega
    have hrest : (l :: ls).flatten.length + column - l.length = ls.flatten.length + column := by
      rw [List.flatten_cons, List.length_append]
      omega
    have hne : ls ++ line :: ls' ≠ [] := List.append_ne_nil_of_right_ne_nil ls nofun
    rw [List.cons_append, lineAt_cons _ _ _ hne, if_neg hbeyond, hrest, ih, List.length_cons]
    congr 1
    omega

/-- What is found at an offset stands there. -/
theorem lineAt_sound (number offset : Nat) {lines : List (List Char)} (h : lines ≠ []) :
    ∃ ls line ls' column, lines = ls ++ line :: ls' ∧
      lineAt number offset lines = (number + ls.length, line, column) ∧
        offset = ls.flatten.length + column := by
  induction lines generalizing number offset with
  | nil => exact absurd rfl h
  | cons l lines ih =>
    by_cases hlast : lines = []
    · subst hlast
      exact ⟨[], l, [], offset, rfl, rfl, by simp⟩
    · rw [lineAt_cons _ _ _ hlast]
      split_ifs with hhere
      · exact ⟨[], l, lines, offset, rfl, rfl, by simp⟩
      · obtain ⟨ls, line, ls', column, rfl, hat, hoffset⟩ := ih (number + 1) (offset - l.length) hlast
        refine ⟨l :: ls, line, ls', column, rfl, ?_, ?_⟩
        · rw [hat, List.length_cons]
          congr 1
          omega
        · rw [List.flatten_cons, List.length_append]
          omega

end Lines

namespace Report

def linesOf (source : List Char) : List (List Char) :=
  if source = [] then [[]] else endedLines source

def columnsAt (line : List Char) (column : Nat) : Nat :=
  match (Unicode.trimEnd line)[column]? with
  | some c => (drawn column c).2
  | none => 1

def columnsOf (line : List Char) (start count : Nat) : Nat :=
  ((List.range' start count).map (columnsAt line)).sum

def headerRow (number column : Nat) : String :=
  times ((Nat.repr number).length + 2) ' ' ++ "╭─[ <expr>:" ++ Nat.repr number ++ ":" ++
    Nat.repr (column + 1) ++ " ]"

def marginText (number : Nat) : String := " " ++ times ((Nat.repr number).length + 1) ' ' ++ "│ "

def shownLine (line : List Char) : List Char :=
  ((Unicode.trimEnd line).mapIdx fun column c =>
    if Unicode.isBlank c then List.replicate (drawn column c).2 ' ' else [c]).flatten

/-- What is drawn under the characters `mid` of a line behind the characters `left`: a line as wide as
they are, or a stroke where there are none. -/
def IsMark (line left mid marks : List Char) : Prop :=
  if mid = [] then marks = ['│']
  else marks.length = columnsOf line left.length mid.length ∧ ∀ c ∈ marks, c = '─' ∨ c = '┬'

/-- A mark as wide as the bytes of `mid` is under `mid` alone: the characters behind `mid` that it
reaches take no columns. Where `mid` is empty, the character behind it has a column for the stroke. -/
def MarkFits (line left mid : List Char) : Prop :=
  if mid = [] then columnsAt line left.length ≠ 0
  else ∀ column, left.length + mid.length ≤ column → column < left.length + byteSize mid →
    columnsAt line column = 0

/-- The report points at the characters `mid` between `left` and `right` on a line: its header tells the
line and the first of the characters, counted from one, and below the line as it is shown the mark is under
them. -/
structure PointsAt (rows : List String) (number : Nat) (left mid right : List Char) : Prop where
  header : rows[1]? = some (headerRow number left.length)
  line : rows[3]? = some (" " ++ Nat.repr number ++ " │ " ++
    String.ofList (shownLine (left ++ mid ++ right)))
  mark : ∃ marks behind, IsMark (left ++ mid ++ right) left mid marks ∧
    rows[4]? = some (marginText number ++ times (columnsOf (left ++ mid ++ right) 0 left.length) ' ' ++
      String.ofList marks ++ times behind ' ')

def labelAt (line : List Char) (number start stop : Nat) : Label :=
  ⟨number, Unicode.trimEnd line, line.length, start, stop⟩

@[simp] theorem times_toList (n : Nat) (c : Char) : (times n c).toList = List.replicate n c :=
  String.toList_ofList

theorem join_singletons (n : Nat) (c : Char) :
    (String.join (List.replicate n (String.singleton c))).toList = List.replicate n c := by
  simp [String.toList_join, List.flatMap_def]

def cellText (width : Nat) : Label.Cell → List Char
  | .empty => List.replicate width ' '
  | .mark first filler => (first :: List.replicate (width - 1) filler).take width

section Label

variable (line : List Char) (number start stop : Nat)

theorem sourceRow_eq :
    (labelAt line number start stop).sourceRow false = String.ofList (shownLine line) := by
  rw [← String.toList_inj, String.toList_ofList, Label.sourceRow, String.toList_join,
    List.flatMap_def, List.mapIdx_eq_zipIdx_map, List.map_map, shownLine, List.mapIdx_eq_zipIdx_map]
  congr 2
  funext ⟨c, column⟩
  by_cases hblank : Unicode.isBlank c = true
  · have hdrawn : (drawn column c).1 = ' ' := by
      rw [drawn]
      split_ifs <;> rfl
    simp only [Function.comp, paint, Bool.false_eq_true, if_false, if_pos hblank, hdrawn,
      join_singletons]
  · have hdrawn : (drawn column c).1 = c := by
      have htab : c ≠ '\t' := by
        rintro rfl
        exact hblank (by decide)
      rw [drawn, if_neg htab, if_neg hblank]
    simp [paint, hblank, hdrawn]

theorem row_toList (cell : Nat → Label.Cell) :
    ((labelAt line number start stop).row false cell).toList =
      (List.range (stop + 2)).flatMap fun column => cellText (columnsAt line column) (cell column) := by
  rw [Label.row, String.toList_join, List.flatMap_map]
  refine List.flatMap_congr fun column _ => ?_
  have hcolumns : (labelAt line number start stop).columnsAt column = columnsAt line column := rfl
  simp only [hcolumns]
  rcases columnsAt line column with _ | width <;> cases cell column <;>
    simp [cellText, paint, -String.toList_join, join_singletons]

section Cells

variable {line start} {cell : Nat → Label.Cell} {count : Nat}

theorem columnsOf_succ : columnsOf line start (count + 1) =
    columnsAt line start + columnsOf line (start + 1) count := by
  rw [columnsOf, List.range'_succ, List.map_cons, List.sum_cons]
  rfl

def cellsText (line : List Char) (cell : Nat → Label.Cell) (start count : Nat) : List Char :=
  (List.range' start count).flatMap fun column => cellText (columnsAt line column) (cell column)

theorem cellsText_succ : cellsText line cell start (count + 1) =
    cellText (columnsAt line start) (cell start) ++ cellsText line cell (start + 1) count := by
  rw [cellsText, List.range'_succ, List.flatMap_cons]
  rfl

theorem cellsText_empty (h : ∀ column, start ≤ column → column < start + count →
    cell column = .empty) :
    cellsText line cell start count = List.replicate (columnsOf line start count) ' ' := by
  induction count generalizing start with
  | zero => rfl
  | succ count ih =>
    rw [cellsText_succ, columnsOf_succ, ih fun column hlow hhigh => h column (by omega) (by omega),
      h start (Nat.le_refl _) (by omega), cellText, List.replicate_append_replicate]

theorem length_cell_mark (width : Nat) (first filler : Char) :
    (cellText width (.mark first filler)).length = width := by
  cases width <;> simp [cellText]

theorem mem_cell_mark {width : Nat} {first filler c : Char}
    (h : c ∈ cellText width (.mark first filler)) : c = first ∨ c = filler := by
  have hmem := List.mem_of_mem_take h
  rw [List.mem_cons, List.mem_replicate] at hmem
  exact hmem.imp_right And.right

theorem cellsText_mark (h : ∀ column, start ≤ column → column < start + count →
    ∃ first, (first = '─' ∨ first = '┬') ∧ cell column = .mark first '─') :
    (cellsText line cell start count).length = columnsOf line start count ∧
      ∀ c ∈ cellsText line cell start count, c = '─' ∨ c = '┬' := by
  induction count generalizing start with
  | zero => exact ⟨rfl, by simp [cellsText]⟩
  | succ count ih =>
    obtain ⟨hlength, hmarks⟩ := @ih (start + 1) fun column hlow hhigh =>
      h column (by omega) (by omega)
    obtain ⟨first, hfirst, hcell⟩ := h start (Nat.le_refl _) (by omega)
    rw [cellsText_succ, columnsOf_succ, hcell]
    refine ⟨by rw [List.length_append, hlength, length_cell_mark], fun c hc => ?_⟩
    rcases List.mem_append.mp hc with hc | hc
    · rcases mem_cell_mark hc with rfl | rfl
      · exact hfirst
      · exact .inl rfl
    · exact hmarks c hc

theorem cellsText_append (more : Nat) : cellsText line cell start (count + more) =
    cellsText line cell start count ++ cellsText line cell (start + count) more := by
  rw [cellsText, ← List.range'_append_1, List.flatMap_append]
  rfl

end Cells

def markCell (start stop column : Nat) : Label.Cell :=
  if start = stop then (if column = start then .mark '│' ' ' else .empty)
  else if column = (start + stop) / 2 then .mark '┬' '─'
  else if start ≤ column ∧ column < stop then .mark '─' '─'
  else .empty

theorem underline_toList : ((labelAt line number start stop).underline false).toList =
    cellsText line (markCell start stop) 0 (stop + 2) := by
  rw [Label.underline, row_toList, List.range_eq_range']
  rfl

variable {start stop}

/-- The mark under columns of a line. -/
theorem underline_columns (h : start < stop) : ∃ marks,
    marks.length = columnsOf line start (stop - start) ∧ (∀ c ∈ marks, c = '─' ∨ c = '┬') ∧
      ((labelAt line number start stop).underline false).toList =
        List.replicate (columnsOf line 0 start) ' ' ++ (marks ++
          List.replicate (columnsOf line stop 2) ' ') := by
  have hmark (column : Nat) (hlow : start ≤ column) (hhigh : column < start + (stop - start)) :
      ∃ first, (first = '─' ∨ first = '┬') ∧ markCell start stop column = .mark first '─' := by
    rw [markCell, if_neg h.ne]
    split_ifs with hmiddle hinside
    · exact ⟨_, .inr rfl, rfl⟩
    · exact ⟨_, .inl rfl, rfl⟩
    · omega
  have hblank (column : Nat) (hout : column < start ∨ stop ≤ column) :
      markCell start stop column = .empty := by
    rw [markCell, if_neg h.ne, if_neg (by omega), if_neg (by omega)]
  obtain ⟨hlength, hmarks⟩ := cellsText_mark hmark
  have hbefore : cellsText line (markCell start stop) 0 start = _ :=
    cellsText_empty fun column _ hhigh => hblank column (by omega)
  have hbehind : cellsText line (markCell start stop) stop 2 = _ :=
    cellsText_empty fun column hlow _ => hblank column (.inr hlow)
  have hsplit : stop + 2 = start + (stop - start + 2) := by omega
  have hstop : start + (stop - start) = stop := by omega
  refine ⟨_, hlength, hmarks, ?_⟩
  rw [underline_toList, hsplit, cellsText_append, Nat.zero_add, cellsText_append, hstop, hbefore,
    hbehind]

/-- The stroke at a column of a line. -/
theorem underline_column : ((labelAt line number start start).underline false).toList =
    List.replicate (columnsOf line 0 start) ' ' ++
      (cellText (columnsAt line start) (.mark '│' ' ') ++
        List.replicate (columnsOf line (start + 1) 1) ' ') := by
  have hblank (column : Nat) (hout : column ≠ start) : markCell start start column = .empty := by
    rw [markCell, if_pos rfl, if_neg hout]
  have hcell : markCell start start start = .mark '│' ' ' := by
    rw [markCell, if_pos rfl, if_pos rfl]
  have hbefore : cellsText line (markCell start start) 0 start = _ :=
    cellsText_empty fun column _ hhigh => hblank column (by omega)
  have hbehind : cellsText line (markCell start start) (start + 1) 1 = _ :=
    cellsText_empty fun column hlow _ => hblank column (by omega)
  rw [underline_toList, cellsText_append, Nat.zero_add, cellsText_succ, hcell, hbefore, hbehind]

end Label

section Rows

theorem decimal_injective {m n : Nat} (h : decimal m = decimal n) : m = n := by
  have hvalue := congrArg (radixValue 10) h
  rwa [radixValue_decimal, radixValue_decimal] at hvalue

theorem header_toList (number column : Nat) : (headerRow number column).toList =
    List.replicate ((Nat.repr number).length + 2) ' ' ++ '╭' :: ("─[ <expr>:".toList ++
      (decimal number ++ ':' :: (decimal (column + 1) ++ ' ' :: [']']))) := by
  have hcorner : "╭─[ <expr>:".toList = '╭' :: "─[ <expr>:".toList := by decide
  have hcolon : ":".toList = [':'] := rfl
  have hend : " ]".toList = [' ', ']'] := by decide
  simp only [headerRow, String.toList_append, times_toList, Nat.toList_repr, hcorner, hcolon, hend,
    List.append_assoc, List.cons_append, List.nil_append, decimal]

theorem takeWhile_ne_append {c : Char} {as : List Char} (h : c ∉ as) (bs : List Char) :
    (as ++ bs).takeWhile (· ≠ c) = as ++ bs.takeWhile (· ≠ c) :=
  List.takeWhile_append_of_pos fun _ hd => decide_eq_true fun he => h (he ▸ hd)

/-- Texts that go on alike from the first place of a character are alike up to there, too. -/
theorem append_cons_inj_of_first {c : Char} {as bs xs ys : List Char} (ha : c ∉ as) (hb : c ∉ bs)
    (h : as ++ c :: xs = bs ++ c :: ys) : as = bs ∧ xs = ys := by
  have htake := congrArg (List.takeWhile (· ≠ c)) h
  rw [takeWhile_ne_append ha, takeWhile_ne_append hb] at htake
  have has : as = bs := by simpa using htake
  subst has
  exact ⟨rfl, (List.cons.inj (List.append_cancel_left h)).2⟩

theorem header_injective {m n j k : Nat} (h : headerRow m j = headerRow n k) : m = n ∧ j = k := by
  have hdigits (n : Nat) {c : Char} (hc : c.isDigit = false) : c ∉ decimal n := fun hmem => by
    rw [decimal_digits c hmem] at hc
    cases hc
  have hblank (n : Nat) : '╭' ∉ List.replicate n ' ' := by simp
  have hlists := congrArg String.toList h
  rw [header_toList, header_toList] at hlists
  obtain ⟨-, hplace⟩ := append_cons_inj_of_first (hblank _) (hblank _) hlists
  obtain ⟨hline, hcolumns⟩ := append_cons_inj_of_first (hdigits m rfl) (hdigits n rfl)
    (List.append_cancel_left hplace)
  obtain ⟨hcolumn, -⟩ := append_cons_inj_of_first (hdigits (j + 1) rfl) (hdigits (k + 1) rfl) hcolumns
  exact ⟨decimal_injective hline, Nat.succ.inj (decimal_injective hcolumn)⟩

variable (line : List Char) (number start stop : Nat) (message : String) (detail : Option String)

theorem labelled_header :
    (labelled false (labelAt line number start stop) message detail)[1]? =
      some (headerRow number start) := by
  have hopen (rest : String) : "╭─[" ++ (" <expr>:" ++ rest) = "╭─[ <expr>:" ++ rest := by
    rw [← String.append_assoc]
    rfl
  simp [labelled, labelAt, paint, headerRow, String.append_assoc, hopen]

theorem labelled_drawn (h : stop ≤ line.length) :
    (labelled false (labelAt line number start stop) message detail)[3]? =
        some (" " ++ Nat.repr number ++ " │ " ++ String.ofList (shownLine line)) ∧
      (labelled false (labelAt line number start stop) message detail)[4]? =
        some (marginText number ++ (labelAt line number start stop).underline false) := by
  have hdrawn : (labelAt line number start stop).stop ≤ (labelAt line number start stop).room := h
  simp only [labelled, if_pos hdrawn]
  rw [← sourceRow_eq line number start stop]
  constructor
  · simp [paint, labelAt, String.append_assoc]
  · simp [paint, labelAt, String.append_assoc, marginText]

theorem labelled_beyond (h : ¬ stop ≤ line.length) :
    (labelled false (labelAt line number start stop) message detail)[3]? =
      some (marginText number) := by
  have hbeyond : ¬ (labelAt line number start stop).stop ≤ (labelAt line number start stop).room := h
  simp only [labelled, if_neg hbeyond]
  simp [paint, labelAt, marginText, String.append_assoc]

end Rows

section Columns

variable {line : List Char} {start : Nat}

theorem columnsOf_append (count more : Nat) : columnsOf line start (count + more) =
    columnsOf line start count + columnsOf line (start + count) more := by
  rw [columnsOf, ← List.range'_append_1, List.map_append, List.sum_append]
  rfl

theorem columnsOf_eq_zero_iff {count : Nat} : columnsOf line start count = 0 ↔
    ∀ column, start ≤ column → column < start + count → columnsAt line column = 0 := by
  induction count generalizing start with
  | zero => exact ⟨fun _ column hlow hhigh => absurd hhigh (by omega), fun _ => rfl⟩
  | succ count ih =>
    rw [columnsOf_succ, Nat.add_eq_zero_iff, ih]
    constructor
    · rintro ⟨hfirst, hrest⟩ column hlow hhigh
      rcases Nat.eq_or_lt_of_le hlow with rfl | hlow
      · exact hfirst
      · exact hrest column hlow (by omega)
    · intro h
      exact ⟨h start (Nat.le_refl _) (by omega), fun column hlow hhigh =>
        h column (by omega) (by omega)⟩

/-- A character that takes no columns is one that is shown. -/
theorem shown_of_no_columns {column : Nat} (h : columnsAt line column = 0) :
    column < (Unicode.trimEnd line).length := by
  by_contra hout
  rw [columnsAt, List.getElem?_eq_none (Nat.not_lt.mp hout)] at h
  cases h

theorem length_trimEnd_le (cs : List Char) : (Unicode.trimEnd cs).length ≤ cs.length := by
  rw [Unicode.trimEnd, List.length_reverse]
  exact (List.dropWhile_sublist _).length_le.trans_eq List.length_reverse

end Columns

section Sources

theorem flatten_consFirst (c : Char) (lines : List (List Char)) :
    (consFirst c lines).flatten = c :: lines.flatten := by
  cases lines <;> rfl

theorem flatten_endedLines (cs : List Char) : (endedLines cs).flatten = cs := by
  induction cs using endedLines.induct with
  | case1 => rfl
  | case2 cs ih => rw [endedLines, List.flatten_cons, ih]; rfl
  | case3 c cs hcrlf hend ih =>
    rw [endedLines, if_pos hend, List.flatten_cons, ih]
    · rfl
    · exact hcrlf
  | case4 c cs hcrlf hend ih =>
    rw [endedLines, if_neg hend, flatten_consFirst, ih]
    exact hcrlf

theorem flatten_linesOf (source : List Char) : (linesOf source).flatten = source := by
  rw [linesOf]
  split_ifs with h
  · rw [h]
    rfl
  · exact flatten_endedLines source

theorem linesOf_ne_nil (source : List Char) : linesOf source ≠ [] := by
  rw [linesOf]
  split_ifs with h
  · exact List.cons_ne_nil _ _
  · intro hnil
    have hflatten := flatten_endedLines source
    rw [hnil] at hflatten
    exact h hflatten.symm

theorem lineAt_linesOf (number offset : Nat) (source : List Char) :
    lineAt number offset (endedLines source) = lineAt number offset (linesOf source) := by
  rw [linesOf]
  split_ifs with h
  · rw [h]
    rfl
  · rfl

variable {source : List Char}

/-- A label is drawn where the offsets of characters say. -/
theorem ofSpan_sound {span : Span} {l : Label} (h : Label.ofSpan? source span = some l) :
    ∃ ls line ls' column, linesOf source = ls ++ line :: ls' ∧
      l = labelAt line (ls.length + 1) column (column + (span.stop - span.start)) ∧
        span.start = ls.flatten.length + column := by
  obtain ⟨ls, line, ls', column, hlines, hat, hoffset⟩ :=
    lineAt_sound 1 span.start (linesOf_ne_nil source)
  refine ⟨ls, line, ls', column, hlines, ?_, hoffset⟩
  simp only [Label.ofSpan?, lineAt_linesOf, hat] at h
  split_ifs at h
  rw [← Option.some.inj h, Nat.add_comm 1]
  rfl

theorem ofSpan_place {ls ls' : List (List Char)} {line : List Char} {column width : Nat}
    (hlines : linesOf source = ls ++ line :: ls') (hplace : column < line.length ∨ ls' = [])
    (hwidth : column + width ≤ line.length) :
    Label.ofSpan? source ⟨ls.flatten.length + column, ls.flatten.length + column + width⟩ =
      some (labelAt line (ls.length + 1) column (column + width)) := by
  have hsize : source.length = ls.flatten.length + (line.length + ls'.flatten.length) := by
    rw [← flatten_linesOf source, hlines, List.flatten_append, List.flatten_cons, List.length_append,
      List.length_append]
  have hat : lineAt 1 (ls.flatten.length + column) (ls ++ line :: ls') = (1 + ls.length, line, column) :=
    lineAt_split 1 hplace
  simp only [Label.ofSpan?, lineAt_linesOf, hlines, hat]
  rw [if_neg (by omega), Nat.add_sub_cancel_left, Nat.add_comm 1]
  rfl

end Sources

section Places

variable {line left mid right : List Char} {number start stop : Nat}

/-- Marks and the blanks behind them can be told apart. -/
theorem marks_inj {as bs : List Char} {m n : Nat} (ha : ' ' ∉ as) (hb : ' ' ∉ bs)
    (h : as ++ List.replicate m ' ' = bs ++ List.replicate n ' ') : as = bs := by
  have htake := congrArg (List.takeWhile (· ≠ ' ')) h
  rw [takeWhile_ne_append ha, takeWhile_ne_append hb] at htake
  simpa using htake

theorem blank_not_mark {marks : List Char} (h : ∀ c ∈ marks, c = '─' ∨ c = '┬') : ' ' ∉ marks :=
  fun hmem => by
    have hblank := h _ hmem
    revert hblank
    decide

/-- A stroke is drawn wherever there is a column for it. -/
theorem stroke_drawn_iff : (∃ behind, ((labelAt line number start start).underline false).toList =
      List.replicate (columnsOf line 0 start) ' ' ++ ('│' :: List.replicate behind ' ')) ↔
    columnsAt line start ≠ 0 := by
  simp only [underline_column, List.append_cancel_left_eq]
  constructor
  · rintro ⟨behind, hrow⟩ hzero
    rw [hzero] at hrow
    have hstroke : '│' ∈ List.replicate (columnsOf line (start + 1) 1) ' ' := by
      rw [show List.replicate _ ' ' = _ from hrow]
      exact List.mem_cons_self
    cases List.eq_of_mem_replicate hstroke
  · intro hcolumns
    obtain ⟨width, hwidth⟩ := Nat.exists_eq_succ_of_ne_zero hcolumns
    refine ⟨width + columnsOf line (start + 1) 1, ?_⟩
    rw [hwidth, ← List.replicate_append_replicate]
    simp [cellText]

/-- The mark of a label is under some characters from its start on exactly if it is as wide as they are. -/
theorem marks_drawn_iff (h : start < stop) (count : Nat) : (∃ marks behind,
      (marks.length = columnsOf line start count ∧ ∀ c ∈ marks, c = '─' ∨ c = '┬') ∧
        ((labelAt line number start stop).underline false).toList =
          List.replicate (columnsOf line 0 start) ' ' ++ (marks ++ List.replicate behind ' ')) ↔
    columnsOf line start (stop - start) = columnsOf line start count := by
  obtain ⟨shown, hlength, hshown, hrow⟩ := underline_columns line number h
  simp only [hrow, List.append_cancel_left_eq]
  constructor
  -- Whatever the mark is taken to be, it is all that is drawn before the first blank.
  · rintro ⟨marks, behind, ⟨hcount, hmarks⟩, hsame⟩
    rw [← hlength, ← hcount, marks_inj (blank_not_mark hshown) (blank_not_mark hmarks) hsame]
  · intro hcount
    exact ⟨shown, _, ⟨hlength.trans hcount, hshown⟩, rfl⟩

theorem margin_row_iff {row : String} {before behind : Nat} {marks : List Char} :
    marginText number ++ row =
        marginText number ++ times before ' ' ++ String.ofList marks ++ times behind ' ' ↔
      row.toList = List.replicate before ' ' ++ (marks ++ List.replicate behind ' ') := by
  rw [← String.toList_inj]
  simp only [String.toList_append, times_toList, String.toList_ofList, List.append_assoc,
    List.append_cancel_left_eq]

/-- The row of a line shows its number, which the margin leaves blank. -/
theorem margin_ne_line_row (shown : List Char) :
    marginText number ≠ " " ++ Nat.repr number ++ " │ " ++ String.ofList shown := by
  intro h
  have hbar : " │ ".toList = ' ' :: '│' :: [' '] := by decide
  have hmargin : (marginText number).toList =
      ' ' :: List.replicate ((Nat.repr number).length + 1) ' ' ++ '│' :: [' '] := by
    simp [marginText]
  have hrow : (" " ++ Nat.repr number ++ " │ " ++ String.ofList shown).toList =
      (' ' :: decimal number ++ [' ']) ++ '│' :: ' ' :: shown := by
    simp [decimal, hbar]
  have hdigit {c : Char} (hc : c ∈ decimal number) : c.isDigit = true := decimal_digits c hc
  have hlists := congrArg String.toList h
  rw [hmargin, hrow] at hlists
  obtain ⟨hblanks, -⟩ := append_cons_inj_of_first (by simp)
    (by simpa using fun hc => absurd (hdigit hc) (by decide)) hlists
  obtain ⟨d, hd⟩ := List.exists_mem_of_ne_nil (decimal number) Nat.toDigits_ne_nil
  have hmem : d ∈ List.replicate ((Nat.repr number).length + 1) ' ' := by
    rw [(List.cons.inj hblanks).2]
    exact List.mem_append_left _ hd
  rw [List.eq_of_mem_replicate hmem] at hd
  exact absurd (hdigit hd) (by decide)

/-- The mark of a label is under as many characters as it is wide, and under further ones that take
no columns. -/
theorem columnsOf_bytes_iff : columnsOf line start (byteSize mid) = columnsOf line start mid.length ↔
    ∀ column, start + mid.length ≤ column → column < start + byteSize mid →
      columnsAt line column = 0 := by
  obtain ⟨extra, hextra⟩ := Nat.exists_eq_add_of_le (length_le_byteSize mid)
  rw [hextra, columnsOf_append, Nat.add_eq_left, columnsOf_eq_zero_iff, Nat.add_assoc]

theorem markFits_of_one_byte (hmid : mid ≠ []) (h : ∀ c ∈ mid, c.toNat < 128) :
    MarkFits line left mid := by
  rw [MarkFits, if_neg hmid, byteSize_eq_length_iff.mpr h]
  intro column hlow hhigh
  exact absurd hhigh (Nat.not_lt.mpr hlow)

/-- Characters that take no columns are on the line. -/
theorem room_of_marked (hplace : left.length + mid.length ≤ line.length)
    (h : MarkFits line left mid) : left.length + byteSize mid ≤ line.length := by
  rw [MarkFits] at h
  split_ifs at h with hmid
  · rwa [hmid] at hplace ⊢
  · by_contra hbeyond
    have hshown := shown_of_no_columns (h line.length hplace (Nat.not_le.mp hbeyond))
    exact absurd (length_trimEnd_le line) (Nat.not_le.mpr hshown)

variable (number) (message : String) (detail : Option String)

/-- A label that is drawn has its mark under a place exactly if the mark fits there. -/
theorem mark_drawn_iff (hroom : left.length + byteSize mid ≤ line.length) :
    (∃ marks behind, IsMark line left mid marks ∧
      (labelled false (labelAt line number left.length (left.length + byteSize mid)) message
          detail)[4]? =
        some (marginText number ++ times (columnsOf line 0 left.length) ' ' ++
          String.ofList marks ++ times behind ' ')) ↔ MarkFits line left mid := by
  simp only [(labelled_drawn line number _ _ message detail hroom).2, Option.some.injEq,
    margin_row_iff, IsMark, MarkFits]
  split_ifs with hmid
  · subst hmid
    simp only [exists_and_left, exists_eq_left, byteSize, Nat.add_zero]
    exact stroke_drawn_iff
  · have hpos : left.length < left.length + byteSize mid :=
      Nat.lt_add_of_pos_right (byteSize_pos hmid)
    rw [marks_drawn_iff hpos, Nat.add_sub_cancel_left, columnsOf_bytes_iff]

/-- The report on a label as wide as the bytes of a place points at the place exactly if the mark fits. -/
theorem points_labelled_iff (hline : line = left ++ mid ++ right) :
    PointsAt (labelled false (labelAt line number left.length (left.length + byteSize mid)) message
        detail) number left mid right ↔ MarkFits line left mid := by
  constructor
  · intro h
    -- A label that reaches beyond its line is not drawn, and neither is the line.
    have hroom : left.length + byteSize mid ≤ line.length := by
      by_contra hbeyond
      have hrow := h.line
      rw [labelled_beyond _ _ _ _ _ _ hbeyond] at hrow
      exact margin_ne_line_row _ (Option.some.inj hrow)
    have hmark := h.mark
    rw [← hline] at hmark
    exact (mark_drawn_iff number message detail hroom).mp hmark
  · intro hcolumns
    have hplace : left.length + mid.length ≤ line.length := by
      rw [hline, List.length_append, List.length_append]
      exact Nat.le_add_right _ _
    have hroom := room_of_marked hplace hcolumns
    have hmark := (mark_drawn_iff number message detail hroom).mpr hcolumns
    have hshown := (labelled_drawn line number left.length _ message detail hroom).1
    refine ⟨labelled_header line number left.length _ message detail, ?_, ?_⟩
    · rw [← hline]
      exact hshown
    · rw [← hline]
      exact hmark

end Places

end Report

/-- A report on a failure whose place is the characters `mid` of a line points at them exactly if every
character of the source before them takes one byte, and the mark, which is as wide as their bytes, fits.
A place behind the end of a line is at the start of the next one. -/
theorem failure_marked_iff {f : Failure} {ls ls' : List (List Char)} {left mid right : List Char}
    (hlines : Report.linesOf f.source.toList = ls ++ (left ++ mid ++ right) :: ls')
    (hspan : f.span.getD ⟨0, f.source.utf8ByteSize⟩ =
      ⟨byteSize (ls.flatten ++ left), byteSize (ls.flatten ++ left) + byteSize mid⟩)
    (hplace : mid ++ right = [] → ls' = []) :
    Report.PointsAt (Report.rows false f) (ls.length + 1) left mid right ↔
      (∀ c ∈ ls.flatten ++ left, c.toNat < 128) ∧
        Report.MarkFits (left ++ mid ++ right) left mid := by
  simp only [Report.rows, hspan]
  constructor
  · intro hpoints
    rcases hl : Report.Label.ofSpan? f.source.toList
        ⟨byteSize (ls.flatten ++ left), byteSize (ls.flatten ++ left) + byteSize mid⟩ with _ | l
    · rw [hl] at hpoints
      cases hpoints.header
    rw [hl] at hpoints
    obtain ⟨ls₀, line, ls₀', column, hlines₀, rfl, hstart⟩ := Report.ofSpan_sound hl
    have hheader := hpoints.header
    rw [Report.labelled_header] at hheader
    obtain ⟨hnumber, rfl⟩ := Report.header_injective (Option.some.inj hheader)
    rw [hlines] at hlines₀
    obtain ⟨rfl, hrest⟩ := List.append_inj hlines₀ (Nat.succ.inj hnumber).symm
    obtain ⟨rfl, rfl⟩ := List.cons.inj hrest
    have hsize : byteSize (ls.flatten ++ left) = (ls.flatten ++ left).length := by
      rw [List.length_append]
      exact hstart
    simp only [Nat.add_sub_cancel_left] at hpoints
    exact ⟨byteSize_eq_length_iff.mp hsize, (Report.points_labelled_iff _ _ _ rfl).mp hpoints⟩
  · rintro ⟨hascii, hcolumns⟩
    have hsize := byteSize_eq_length_iff.mpr hascii
    rw [List.length_append] at hsize
    have hstands : left.length < (left ++ mid ++ right).length ∨ ls' = [] := by
      by_cases hend : mid ++ right = []
      · exact .inr (hplace hend)
      · rw [List.append_assoc, List.length_append]
        exact .inl (Nat.lt_add_of_pos_right (List.length_pos_of_ne_nil hend))
    have hwidth : left.length + byteSize mid ≤ (left ++ mid ++ right).length :=
      Report.room_of_marked (by simp) hcolumns
    rw [hsize, Report.ofSpan_place hlines hstands hwidth]
    exact (Report.points_labelled_iff _ _ _ rfl).mpr hcolumns

/-- A variable on a second line, with a character of two bytes behind it. -/
theorem failure_marked_iff_second_line :
    ∃ f : Failure, (Engine.standard.evaluate f.source NameMap.empty = .error f) ∧
      Report.linesOf f.source.toList =
        ["1 +\n".toList] ++ (" ".toList ++ "x".toList ++ " + \"é\"".toList) :: [] ∧
      f.span = some ⟨5, 6⟩ ∧
      Report.PointsAt (Report.rows false f) 2 " ".toList "x".toList " + \"é\"".toList := by
  let f : Failure := ⟨"1 +\n x + \"é\"", .unknownVariable "x", some ⟨5, 6⟩, none⟩
  have hlines : Report.linesOf f.source.toList =
      ["1 +\n".toList] ++ (" ".toList ++ "x".toList ++ " + \"é\"".toList) :: [] := by decide +kernel
  have hspan : f.span.getD ⟨0, f.source.utf8ByteSize⟩ =
      ⟨byteSize (["1 +\n".toList].flatten ++ " ".toList),
        byteSize (["1 +\n".toList].flatten ++ " ".toList) + byteSize "x".toList⟩ := by decide +kernel
  have hmark : Report.MarkFits (" ".toList ++ "x".toList ++ " + \"é\"".toList) " ".toList "x".toList :=
    Report.markFits_of_one_byte (by decide) (byteSize_eq_length_iff.mp (by decide))
  exact ⟨f, by decide +kernel, hlines, rfl,
    (failure_marked_iff hlines hspan fun _ => rfl).mpr
      ⟨byteSize_eq_length_iff.mp (by decide +kernel), hmark⟩⟩

/-- A character of two bytes before the variable that is missing, and the report points behind it. -/
theorem mark_slips_behind_accent :
    ∃ f : Failure, (Engine.standard.evaluate f.source NameMap.empty = .error f) ∧
      Report.linesOf f.source.toList =
        [] ++ ("\"é\" + ".toList ++ "x".toList ++ " + 1".toList) :: [] ∧
      f.span = some ⟨byteSize "\"é\" + ".toList, byteSize "\"é\" + ".toList + byteSize "x".toList⟩ ∧
      (Report.rows false f)[1]? = some "   ╭─[ <expr>:1:8 ]" ∧
      ¬ Report.PointsAt (Report.rows false f) 1 "\"é\" + ".toList "x".toList " + 1".toList := by
  refine ⟨⟨"\"é\" + x + 1", .unknownVariable "x", some ⟨7, 8⟩, none⟩, by decide +kernel,
    by decide +kernel, by decide +kernel, by decide +kernel, fun h => ?_⟩
  exact absurd h.header (by decide +kernel)

end Formula
