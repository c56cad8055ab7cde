import Formula.Proofs.EscapeSpellings

namespace Formula

namespace EscapeError

def position? : EscapeError → Option Nat
  | invalidEscape p _ | incompleteEscape p _ _ | octalOutOfRange p _ | invalidUnicodeScalar p _ => some p
  | invalidUtf8 | notSingleChar _ => none

def moved (n : Nat) : EscapeError → EscapeError
  | invalidEscape p escape => .invalidEscape (n + p) escape
  | incompleteEscape p expected got => .incompleteEscape (n + p) expected got
  | octalOutOfRange p value => .octalOutOfRange (n + p) value
  | invalidUnicodeScalar p value => .invalidUnicodeScalar (n + p) value
  | invalidUtf8 => .invalidUtf8
  | notSingleChar count => .notSingleChar count

end EscapeError

section Utf8

/-- Bytes that encode a text leave nothing over, so what follows them is decoded on its own. -/
theorem decodeUtf8_append {bs : List UInt8} {x : List Char} (h : decodeUtf8 bs = some x)
    (bs' : List UInt8) : decodeUtf8 (bs ++ bs') = (decodeUtf8 bs').map (x ++ ·) := by
  fun_induction decodeUtf8 bs generalizing x
  case case1 =>
    obtain rfl := Option.some.inj h
    exact Option.map_id'.symm
  case case2 a rest n hone ih =>
    obtain ⟨y, hy, rfl⟩ := Option.map_eq_some_iff.mp h
    simp only [n] at hone ⊢
    rw [List.cons_append, decodeUtf8.eq_def]
    simp only [if_pos hone, ih hy, Option.map_map]
    rfl
  case case4 a n hone hlead htwo b rest ih =>
    simp only [Option.bind_eq_bind, Option.bind_eq_some_iff, n] at h hone hlead htwo
    obtain ⟨p, hp, c, hc, hrest⟩ := h
    obtain ⟨y, hy, rfl⟩ := Option.map_eq_some_iff.mp hrest
    rw [List.cons_append, List.cons_append, decodeUtf8.eq_def]
    simp only [if_neg hone, if_neg hlead, if_pos htwo, hp, hc, Option.bind_eq_bind, Option.bind_some,
      ih hy, Option.map_map]
    rfl
  case case6 a n hone hlead htwo hthree b d rest ih =>
    simp only [Option.bind_eq_bind, Option.bind_eq_some_iff, n] at h hone hlead htwo hthree
    obtain ⟨p, hp, q, hq, c, hc, hrest⟩ := h
    obtain ⟨y, hy, rfl⟩ := Option.map_eq_some_iff.mp hrest
    rw [List.cons_append, List.cons_append, List.cons_append, decodeUtf8.eq_def]
    simp only [if_neg hone, if_neg hlead, if_neg htwo, if_pos hthree, hp, hq, hc, Option.bind_eq_bind,
      Option.bind_some, ih hy, Option.map_map]
    rfl
  case case8 a n hone hlead htwo hthree hfour b d e rest ih =>
    simp only [Option.bind_eq_bind, Option.bind_eq_some_iff, n] at h hone hlead htwo hthree hfour
    obtain ⟨p, hp, q, hq, r, hr, c, hc, hrest⟩ := h
    obtain ⟨y, hy, rfl⟩ := Option.map_eq_some_iff.mp hrest
    rw [List.cons_append, List.cons_append, List.cons_append, List.cons_append, decodeUtf8.eq_def]
    simp only [if_neg hone, if_neg hlead, if_neg htwo, if_neg hthree, if_pos hfour, hp, hq, hr, hc,
      Option.bind_eq_bind, Option.bind_some, ih hy, Option.map_map]
    rfl
  all_goals cases h

end Utf8

namespace Escape

variable {quote : Char}

def State.moved (n : Nat) : State → State
  | plain => .plain
  | opened start => .opened (n + start)
  | digits start form got value => .digits (n + start) form got value

theorem finish_moved (n start : Nat) (form : Form) (value : Nat) :
    finish (n + start) form value = (finish start form value).mapError (·.moved n) := by
  cases form with
  | hexByte => rfl
  | octalByte =>
    rw [finish, finish]
    split_ifs <;> rfl
  | shortPoint | longPoint =>
    rw [finish, finish]
    cases scalar? 0 value <;> rfl

theorem digits_moved (n start : Nat) (c : Char) :
    digits? (n + start) c = (digits? start c).map (·.moved n) := by
  rw [digits?, digits?]
  split_ifs <;> rfl

/-- One character takes the decoder on as it does `n` bytes before. -/
theorem step_moved (n position : Nat) (state : State) (c : Char) :
    step quote (n + position) (state.moved n) c =
      ((step quote position state c).map fun result => (result.1.moved n, result.2)).mapError
        (·.moved n) := by
  cases state with
  | plain =>
    simp only [State.moved, step]
    split_ifs <;> rfl
  | opened start =>
    simp only [State.moved, step, digits_moved]
    cases letter? c with
    | some d => rfl
    | none =>
      cases digits? start c with
      | some next => rfl
      | none =>
        simp only [Option.map_none]
        split_ifs <;> rfl
  | digits start form got value =>
    simp only [State.moved, step, finish_moved]
    split_ifs
    · cases finish start form (value * form.radix + digitValue c) <;> rfl
    · rfl
    · rfl

/-- A text further on in another one has the same pieces, and its faults are as much further on. -/
theorem pieces_moved (n position : Nat) (state : State) (cs : List Char) :
    pieces quote (n + position) (state.moved n) cs =
      (pieces quote position state cs).mapError (·.moved n) := by
  induction cs generalizing position state with
  | nil => cases state <;> rfl
  | cons c cs ih =>
    rw [pieces, pieces, step_moved]
    cases step quote position state c with
    | error e => rfl
    | ok result =>
      obtain ⟨next, piece⟩ := result
      simp only [Except.map, Except.mapError]
      rw [Nat.add_assoc, ih]
      cases pieces quote (position + c.utf8Size) next cs <;> rfl

/-- A fault among the pieces is one at a backslash. -/
theorem position_of_finish {start value : Nat} {form : Form} {e : EscapeError}
    (h : finish start form value = .error e) : e.position? = some start := by
  cases form with
  | hexByte => cases h
  | octalByte =>
    rw [finish] at h
    split_ifs at h
    obtain rfl := Except.error.inj h
    rfl
  | shortPoint | longPoint =>
    rw [finish] at h
    split at h
    · cases h
    · obtain rfl := Except.error.inj h
      rfl

theorem position_of_step {position : Nat} {state : State} {c : Char} {e : EscapeError}
    (h : step quote position state c = .error e) : ∃ p, e.position? = some p := by
  cases state with
  | plain => cases h
  | opened start =>
    rw [step] at h
    split at h
    · cases h
    · cases h
    · split_ifs at h
      obtain rfl := Except.error.inj h
      exact ⟨start, rfl⟩
  | digits start form got value =>
    simp only [step] at h
    split_ifs at h
    · cases hfinish : finish start form (value * form.radix + digitValue c) with
      | ok piece =>
        rw [hfinish] at h
        cases h
      | error e' =>
        rw [hfinish] at h
        obtain rfl := Except.error.inj h
        exact ⟨start, position_of_finish hfinish⟩
    · obtain rfl := Except.error.inj h
      exact ⟨start, rfl⟩

theorem position_of_pieces {position : Nat} {state : State} {cs : List Char} {e : EscapeError}
    (h : pieces quote position state cs = .error e) : ∃ p, e.position? = some p := by
  induction cs generalizing position state with
  | nil =>
    cases state with
    | plain => cases h
    | opened start | digits start =>
      obtain rfl := Except.error.inj h
      exact ⟨start, rfl⟩
  | cons c cs ih =>
    rw [pieces] at h
    cases hstep : step quote position state c with
    | error e' =>
      rw [hstep] at h
      obtain rfl := Except.error.inj h
      exact position_of_step hstep
    | ok result =>
      obtain ⟨next, piece⟩ := result
      rw [hstep] at h
      cases hrest : pieces quote (position + c.utf8Size) next cs with
      | error e' =>
        simp only [hrest] at h
        obtain rfl := Except.error.inj h
        exact ih hrest
      | ok ps =>
        simp only [hrest] at h
        cases h

end Escape

open Escape

/-- A text behind one that is decoded has the same pieces as on its own, with its faults further on. -/
theorem pieces_behind {as : List Char} {ps : List Piece} (h : pieces '"' 0 .plain as = .ok ps)
    (bs : List Char) : pieces '"' 0 .plain (as ++ bs) =
      ((pieces '"' 0 .plain bs).mapError (·.moved (byteSize as))).map (ps ++ ·) := by
  have hmoved := @pieces_moved '"' (byteSize as) 0 .plain bs
  rw [pieces_append bs h, Nat.zero_add]
  exact congrArg (Except.map (ps ++ ·)) hmoved

/-- Where a text between double quotes is decoded, what stands behind it is decoded as on its own: its
characters come behind those of the first text, a fault of its escapes is as many bytes further on as the
first text takes, and bytes that are not well formed are not well formed there, either. -/
theorem decode_string_append {as x : List Char} (h : decodeString as = .ok x) (bs : List Char) :
    (∃ y, decodeString bs = .ok y ∧ decodeString (as ++ bs) = .ok (x ++ y)) ∨
    (∃ e p, decodeString bs = .error e ∧ e.position? = some p ∧
      decodeString (as ++ bs) = .error (e.moved (byteSize as))) ∨
    (decodeString bs = .error .invalidUtf8 ∧ decodeString (as ++ bs) = .error .invalidUtf8) := by
  obtain ⟨ps, hps, hx⟩ : ∃ ps, pieces '"' 0 .plain as = .ok ps ∧
      decodeUtf8 (ps.flatMap Piece.bytes) = some x := by
    rw [decodeString] at h
    split at h
    · cases h
    · next ps hps =>
      split at h
      · next x' hx =>
        obtain rfl := Except.ok.inj h
        exact ⟨ps, hps, hx⟩
      · cases h
  have hjoined := pieces_behind hps bs
  cases hbs : pieces '"' 0 .plain bs with
  | error e =>
    obtain ⟨p, hp⟩ := position_of_pieces hbs
    rw [hbs] at hjoined
    refine .inr (.inl ⟨e, p, ?_, hp, ?_⟩)
    · rw [decodeString, hbs]
    · rw [decodeString, hjoined]
      rfl
  | ok qs =>
    -- The bytes of the first text are whole characters, so those of the second are decoded alone.
    have hbytes : decodeUtf8 ((ps ++ qs).flatMap Piece.bytes) =
        (decodeUtf8 (qs.flatMap Piece.bytes)).map (x ++ ·) := by
      rw [List.flatMap_append]
      exact decodeUtf8_append hx _
    rw [hbs] at hjoined
    cases hy : decodeUtf8 (qs.flatMap Piece.bytes) with
    | none =>
      rw [hy] at hbytes
      refine .inr (.inr ⟨?_, ?_⟩)
      · simp only [decodeString, hbs, hy]
      · simp only [decodeString, hjoined, Except.mapError, Except.map, hbytes, Option.map_none]
    | some y =>
      rw [hy] at hbytes
      refine .inl ⟨y, ?_, ?_⟩
      · simp only [decodeString, hbs, hy]
      · simp only [decodeString, hjoined, Except.mapError, Except.map, hbytes, Option.map_some]

/-- Behind a character of two bytes and another one written byte by byte, ten bytes in all, an escape that
is cut short is found ten bytes further on. -/
theorem decode_string_append_cut_short :
    decodeString ['é', '\\', 'x', 'c', '3', '\\', 'x', 'a', '9'] = .ok ['é', 'é'] ∧
      decodeString ['日', '\\', 'x', '4'] = .error (.incompleteEscape 3 2 1) ∧
      decodeString ['é', '\\', 'x', 'c', '3', '\\', 'x', 'a', '9', '日', '\\', 'x', '4'] =
        .error (.incompleteEscape 13 2 1) := by
  have hfront : decodeString ['é', '\\', 'x', 'c', '3', '\\', 'x', 'a', '9'] = .ok ['é', 'é'] := by
    decide +kernel
  have hback : decodeString ['日', '\\', 'x', '4'] = .error (.incompleteEscape 3 2 1) := by decide +kernel
  refine ⟨hfront, hback, ?_⟩
  have hcases := decode_string_append hfront ['日', '\\', 'x', '4']
  rcases hcases with ⟨y, hy, -⟩ | ⟨e, p, he, -, hjoined⟩ | ⟨he, -⟩
  · cases hback.symm.trans hy
  · obtain rfl := Except.error.inj (hback.symm.trans he)
    exact hjoined
  · cases hback.symm.trans he

end Formula
