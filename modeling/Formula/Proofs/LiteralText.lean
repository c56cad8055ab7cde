import Formula.Expr.Constant
import Formula.Proofs.Lexing
import Mathlib.Tactic.IntervalCases

namespace Formula

open Lexeme

def IsName (text : List Char) : Prop := name? text = some (text, [])

instance : DecidablePred IsName := fun _ => inferInstanceAs (Decidable (_ = _))

theorem isName_iff {text : List Char} : IsName text ↔
    ∃ c cs, text = c :: cs ∧ startsName c = true ∧ ∀ d ∈ cs, continuesName d = true := by
  constructor
  · intro h
    cases text with
    | nil => cases h
    | cons c cs =>
      simp only [IsName, name?] at h
      split_ifs at h with hc
      obtain ⟨hcs, -⟩ := Prod.mk.inj (Option.some.inj h)
      refine ⟨c, cs, rfl, hc, ?_⟩
      rw [← (List.cons.inj hcs).2]
      exact fun d hd => List.mem_takeWhile_imp hd
  · rintro ⟨c, cs, rfl, hc, hcs⟩
    simp [IsName, name?, hc, List.takeWhile_eq_self_iff.mpr hcs, List.dropWhile_eq_nil_iff.mpr hcs]

def blanks : List Char := ['/', ' ', '\t', '\r', '\n']

theorem trivia_missing {c : Char} (h : c ∉ blanks) (cs : List Char) : trivia? (c :: cs) = none := by
  simp only [blanks, List.mem_cons, List.not_mem_nil, or_false, not_or] at h
  obtain ⟨hslash, hblanks⟩ := h
  simp [trivia?, hslash, hblanks]

/-- A name is read where nothing behind it belongs to it. -/
theorem name_read {text rest : List Char} (h : IsName text)
    (hrest : ∀ c ∈ rest.head?, continuesName c = false) :
    ReadBefore (.atom (.name text)) rest := by
  obtain ⟨c, cs, rfl, hc, hcs⟩ := isName_iff.mp h
  have hblanks : c ∉ blanks := not_mem_of_kind (by decide +kernel) hc
  have htake : (cs ++ rest).takeWhile continuesName = cs ∧
      (cs ++ rest).dropWhile continuesName = rest := by
    rw [List.takeWhile_append_of_pos hcs, List.dropWhile_append_of_pos hcs]
    cases rest with
    | nil => simp
    | cons d rest => simp [hrest d rfl]
  refine ⟨trivia_missing hblanks _, ?_⟩
  have hname : name? (c :: cs ++ rest) = some (c :: cs, rest) := by
    rw [List.cons_append, name?, if_pos hc, htake.1, htake.2]
  have hatom : atom? (c :: cs ++ rest) = some (.name (c :: cs), rest) := by
    simp only [atom?, hname, Option.map_some]
    rfl
  exact first_atom hatom

/-- A blank belongs to no name. -/
theorem parted_ends_name {rest : List Char} (h : Parted rest) :
    ∀ c ∈ rest.head?, continuesName c = false := by
  rcases h with rfl | ⟨tail, rfl⟩
  · simp
  · intro c hc
    obtain rfl := Option.some.inj hc
    decide +kernel

/-- A digit starts no name. -/
theorem digit_starts_no_name {c : Char} (h : c.isDigit = true) : startsName c = false :=
  forall_digit (P := (startsName · = false)) (by decide +kernel) h

def decimal (n : Nat) : List Char := Nat.toDigits 10 n

theorem decimal_digits {n : Nat} : ∀ c ∈ decimal n, c.isDigit = true :=
  fun _ => Nat.isDigit_of_mem_toDigits (by decide) (by decide)

theorem exists_decimal_eq_cons (n : Nat) :
    ∃ d ds, decimal n = d :: ds ∧ d.isDigit = true ∧ ∀ c ∈ ds, c.isDigit = true := by
  have hdigits := decimal_digits (n := n)
  obtain ⟨d, ds, hd⟩ := List.exists_cons_of_ne_nil (Nat.toDigits_ne_nil (b := 10) (n := n))
  change decimal n = d :: ds at hd
  rw [hd, List.forall_mem_cons] at hdigits
  exact ⟨d, ds, hd, hdigits⟩

/-- Only the text of zero starts with a zero. -/
theorem decimal_head {n : Nat} (h : 0 < n) : ∀ c ∈ (decimal n).head?, c ≠ '0' := by
  induction n using Nat.strong_induction_on with
  | _ n ih =>
    rcases Nat.lt_or_ge n 10 with hlt | hge
    · rw [decimal, Nat.toDigits_of_lt_base hlt]
      intro c hc
      obtain rfl := Option.some.inj hc
      interval_cases n <;> decide
    · rw [decimal, Nat.toDigits_of_base_le (by decide) hge]
      obtain ⟨d, ds, hd⟩ := List.exists_cons_of_ne_nil (Nat.toDigits_ne_nil (b := 10) (n := n / 10))
      have hhead := ih (n / 10) (by omega) (by omega)
      rw [decimal, hd] at hhead
      rw [hd]
      exact hhead

/-- A run of digits ends where nothing or a blank stands. -/
theorem digitRun_read {ds rest : List Char} (hds : ∀ c ∈ ds, c.isDigit = true) (h : Parted rest) :
    digitRun Char.isDigit (ds ++ rest) = (ds, rest) := by
  induction ds with
  | nil => rcases h with rfl | ⟨tail, rfl⟩ <;> simp [digitRun]
  | cons d ds ih =>
    obtain ⟨hd, hds⟩ := List.forall_mem_cons.mp hds
    have hmark : d ≠ '_' := by
      rintro rfl
      exact absurd hd (by decide)
    rw [List.cons_append, digitRun]
    · simp [hd, ih hds]
    · exact fun _ _ hc _ => hmark hc

theorem decimals_read {n : Nat} {rest : List Char} (h : Parted rest) :
    decimals? (decimal n ++ rest) = some (decimal n, rest) := by
  obtain ⟨d, ds, hcons, hd, hds⟩ := exists_decimal_eq_cons n
  rw [hcons, List.cons_append, decimals?, if_pos hd, digitRun_read hds h]

theorem exponent_missing {rest : List Char} (h : Parted rest) : exponent? rest = none := by
  rcases h with rfl | ⟨_ | ⟨s, tail⟩, rfl⟩ <;> simp [exponent?]

/-- Digits without a point or an exponent behind them are no float. -/
theorem float_missing (n : Nat) {rest : List Char} (h : Parted rest) :
    float? (decimal n ++ rest) = none := by
  simp only [float?, decimals_read h]
  rcases h with rfl | ⟨tail, rfl⟩
  · rfl
  · simp [exponent_missing (.inr ⟨tail, rfl⟩)]

theorem int_read (n : Nat) {rest : List Char} (h : Parted rest) :
    int? (decimal n ++ rest) = some (decimal n, rest) := by
  rcases Nat.eq_zero_or_pos n with rfl | hpos
  · rcases h with rfl | ⟨tail, rfl⟩ <;> rfl
  · have hread := decimals_read (n := n) h
    obtain ⟨d, ds, hd, -⟩ := exists_decimal_eq_cons n
    have hzero : d ≠ '0' := decimal_head hpos d (by simp [hd])
    rw [hd] at hread ⊢
    rw [List.cons_append] at hread ⊢
    simp [int?, marked?, oldOctal?, plain?, hzero, hread]

/-- A decimal integer is read where nothing or a blank stands behind it. -/
theorem decimal_read (n : Nat) {rest : List Char} (h : Parted rest) :
    ReadBefore (.atom (.int (decimal n))) rest := by
  obtain ⟨d, ds, hcons, hd, -⟩ := exists_decimal_eq_cons n
  have hname : name? (decimal n ++ rest) = none := by
    rw [hcons]
    simp [name?, digit_starts_no_name hd]
  have hatom : atom? (decimal n ++ rest) = some (.int (decimal n), rest) := by
    simp [atom?, hname, float_missing n h, int_read n h]
  refine ⟨?_, first_atom hatom⟩
  change trivia? (decimal n ++ rest) = none
  rw [hcons]
  exact trivia_missing (not_mem_of_kind (by decide) hd) _

/-- The digits of a number have its value. -/
theorem radixValue_decimal (n : Nat) : radixValue 10 (decimal n) = n := by
  -- Reading on from any value, so that the induction goes through.
  have folded (cs : List Char) (hcs : ∀ c ∈ cs, c.isDigit = true) (k : Nat) :
      cs.foldl (fun n c => n * 10 + digitValue c) k = Nat.ofDigitChars 10 cs k := by
    induction cs generalizing k with
    | nil => rfl
    | cons c cs ih =>
      obtain ⟨hc, hcs⟩ := List.forall_mem_cons.mp hcs
      rw [List.foldl_cons, Nat.ofDigitChars_cons, ih hcs, digitValue, if_pos hc, Nat.mul_comm k 10]
  rw [radixValue, folded _ decimal_digits, decimal, Nat.ofDigitChars_toDigits (by decide) (by decide)]

theorem spelled_decimal (n : Nat) : spelledInt (decimal n) = (10, n) := by
  have hmarks : withoutSeparators (decimal n) = decimal n := by
    refine List.filter_eq_self.mpr fun c hc => ?_
    have hdigit := decimal_digits c hc
    refine decide_eq_true fun he => ?_
    rw [he] at hdigit
    exact absurd hdigit (by decide)
  have hradix : radixAndDigits (decimal n) = (10, decimal n) := by
    rcases Nat.eq_zero_or_pos n with rfl | hpos
    · rfl
    · obtain ⟨d, ds, hd⟩ := List.exists_cons_of_ne_nil (Nat.toDigits_ne_nil (b := 10) (n := n))
      change decimal n = d :: ds at hd
      have hzero : d ≠ '0' := decimal_head hpos d (by simp [hd])
      rw [hd]
      simp [radixAndDigits, hzero]
  simp only [spelledInt, hmarks, hradix, radixValue_decimal]

/-- A number that fits 64 bits is read as itself, and so no sign before it belongs to it. -/
theorem decimal_value {i : Int64} (h : 0 ≤ i) :
    intLiteral? (decimal i.toInt.toNat) = some (.int i) ∧
      negatedInt? (decimal i.toInt.toNat) = none := by
  have hnonneg : 0 ≤ i.toInt := Int64.le_iff_toInt_le.mp h
  have hvalue : ((i.toInt.toNat : Nat) : Int) = i.toInt := Int.toNat_of_nonneg hnonneg
  have hlow : -9223372036854775808 ≤ i.toInt := i.le_toInt
  have hhigh : i.toInt ≤ 9223372036854775807 := i.toInt_le
  have hfits : int64? (i.toInt.toNat : Nat) = some i := by
    rw [hvalue, int64?, if_pos ⟨hlow, hhigh⟩, Int64.ofInt_toInt]
  constructor
  · simp only [intLiteral?, spelled_decimal, hfits]
  · simp only [negatedInt?, spelled_decimal, hfits, reduceCtorEq, and_false, if_false]

end Formula
