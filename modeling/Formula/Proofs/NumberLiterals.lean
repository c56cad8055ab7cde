import Formula.Proofs.CoherentComparisons
import Formula.Proofs.IntegerLiterals

namespace Formula

open Lexeme

variable {limit v : Nat} {t t' : List Char}

section Floats

/-- What is read as a float starts with a digit or a point. -/
theorem float_head (h : float? t = some (t, [])) : ∃ c cs, t = c :: cs ∧ (c.isDigit = true ∨ c = '.') := by
  rcases t with _ | ⟨c, cs⟩
  · simp [float?, decimals?] at h
  · refine ⟨c, cs, rfl, ?_⟩
    by_contra hnot
    rw [not_or, Bool.not_eq_true] at hnot
    simp [float?, decimals?, hnot.1, hnot.2] at h

/-- A text that is read as a float to its end is read as one token. -/
theorem float_read (h : float? t = some (t, [])) : ReadBefore (.atom (.float t)) [] := by
  obtain ⟨c, cs, rfl, hc⟩ := float_head h
  obtain ⟨hname, hblank⟩ := number_starts hc
  have hatom : atom? (c :: cs) = some (.float (c :: cs), []) := by
    simp [atom?, name?, hname, h]
  rw [ReadBefore, List.append_nil]
  exact ⟨trivia_missing hblank cs, first_atom hatom⟩

theorem compile_float (h : float? t = some (t, [])) (hlimit : 1 ≤ limit) :
    compile limit (String.ofList t) = Literal.alone t (Atom.float t).value? := by
  have hname (name : List Char) : Atom.float t ≠ .name name := fun he => nomatch he
  have hquiet : ∀ c ∈ (Atom.float t).text, IsQuiet c := (cuts_float _ _ _ h).2.2
  have hcompiled := compile_literal hname hquiet (float_read h) hlimit
  rwa [Atom.text] at hcompiled

theorem spaced_of_digits (h : ∀ c ∈ t, c.isDigit = true) : SpacedDigits 10 t := by
  induction t with
  | nil => exact .nil
  | cons d ds ih =>
    obtain ⟨hd, hds⟩ := List.forall_mem_cons.mp h
    exact .digit (isDigit_iff.mp hd) (ih hds)

/-- A float holds no integer as a text: its point or its exponent is not a digit. -/
theorem float_no_int (h : float? t = some (t, [])) : readInt t = none := by
  obtain ⟨c, cs, rfl, hc⟩ := float_head h
  have hsign : splitSign (c :: cs) = (false, c :: cs) := by
    rcases hc with hc | rfl
    · exact splitSign_digit hc cs
    · rfl
  have hdigits : readDigits (c :: cs) = none := by
    rw [Option.eq_none_iff_forall_ne_some]
    intro n hn
    obtain ⟨-, hall, -⟩ := readDigits_eq_some_iff.mp hn
    obtain ⟨hdigit, hrest⟩ := List.forall_mem_cons.mp hall
    rw [float_missing_of_digits hdigit (spaced_of_digits hrest)] at h
    cases h
  simp [readInt, hsign, hdigits]

end Floats

section Integers

theorem digits_of_spaced (h : SpacedDigits 10 t) (hmark : '_' ∉ t) : ∀ c ∈ t, c.isDigit = true := by
  induction h with
  | nil => exact nofun
  | digit hd _ ih =>
    exact List.forall_mem_cons.mpr ⟨isDigit_iff.mpr hd, ih fun hmem => hmark (List.mem_cons_of_mem _ hmem)⟩
  | parted => exact absurd List.mem_cons_self hmark

theorem withoutSeparators_eq (hmark : '_' ∉ t) : withoutSeparators t = t := by
  refine List.filter_eq_self.mpr fun c hc => decide_eq_true ?_
  rintro rfl
  exact hmark hc

/-- An integer in plain decimal without separators is a row of digits that writes it. -/
theorem IntegerText.plain (h : IntegerText 10 v t) (hmark : '_' ∉ t) :
    (∃ c cs, t = c :: cs) ∧ (∀ c ∈ t, c.isDigit = true) ∧ radixValue 10 t = v := by
  cases h with
  | marked hmark' =>
    have hten := radix_mark_iff.mp hmark'
    omega
  | zero =>
    refine ⟨⟨_, _, rfl⟩, fun c hc => ?_, rfl⟩
    obtain rfl := List.mem_singleton.mp hc
    rfl
  | @decimal _ d ds hdigit hd hds hv =>
    have hrest : '_' ∉ ds := fun hmem => hmark (List.mem_cons_of_mem d hmem)
    rw [withoutSeparators_eq hrest] at hv
    exact ⟨⟨_, _, rfl⟩, List.forall_mem_cons.mpr ⟨hdigit, digits_of_spaced hds hrest⟩, (radixValue_of_writes hv).2⟩

/-- The text of such an integer is read as the integer and as the decimal without a fraction. -/
theorem IntegerText.texts (h : IntegerText 10 v t) (hmark : '_' ∉ t) :
    readInt t = some (v : Int) ∧ Decimal.read t = some ⟨false, v, 0⟩ := by
  obtain ⟨⟨c, cs, rfl⟩, hall, hvalue⟩ := h.plain hmark
  have hsign := splitSign_digit (hall c List.mem_cons_self) cs
  have hdigits : readDigits (c :: cs) = some v := readDigits_eq_some_iff.mpr ⟨nofun, hall, hvalue⟩
  refine ⟨by simp [readInt, hsign, hdigits], ?_⟩
  rw [read_decimal_of_digits hsign nofun hall, hvalue]

end Integers

namespace Literal

/-- Two values are the same number: the same integer if any, the same float, and equal in both orders. -/
structure SameNumber (v w : Literal) : Prop where
  asInt : v.asInt = w.asInt
  asFloat : v.asFloat = w.asFloat
  equal : compare .eq v w = .ok true
  equal' : compare .eq w v = .ok true

/-- A number and a text that are the same integer and the same float are equal. -/
theorem sameNumber {c : Literal} {s : String} {x : Binary64} (hc : (∃ n, c = .int n) ∨ ∃ y, c = .float y)
    (hint : c.asInt = (str s).asInt) (hfloat : c.asFloat = some x) (hfloat' : (str s).asFloat = some x) :
    c.SameNumber (str s) := by
  have hx : x.same x = true := by
    obtain ⟨-, hfinite⟩ := Option.filter_eq_some_iff.mp hfloat'
    refine Binary64.same_self ?_
    rintro rfl
    cases hfinite
  have hkind : c.asBool = none ∧ c.errorState = none ∧ propagatedOf? c (str s) = none := by
    rcases hc with ⟨n, rfl⟩ | ⟨y, rfl⟩ <;> exact ⟨rfl, rfl, rfl⟩
  have hequal : Literal.equal c (str s) = .ok true := by
    rw [equal_eq, hkind.1, hkind.2.2, hint, hfloat, hfloat']
    cases (str s).asInt <;> simp [asBool, hx]
  obtain ⟨same, hsame, hequal'⟩ := equal_comm (v := c) (w := str s) hkind.2.1 rfl
  obtain rfl := Except.ok.inj (hsame.symm.trans hequal)
  exact ⟨hint, hfloat.trans hfloat'.symm, hequal, hequal'⟩

end Literal

section Values

/-- A number as it may be written in a source and in a text alike: a float, or an integer with no mark of a
radix and no zero in front but for zero itself; no separators. -/
structure PlainNumber (t : List Char) : Prop where
  read : float? t = some (t, []) ∨ int? t = some (t, []) ∧ (t = ['0'] ∨ t.head? ≠ some '0')
  mark : '_' ∉ t

def outOfRange : List String := ["float literal out of range", "integer literal out of range"]

structure Literal.Reads (t : List Char) (r : Except String Literal) : Prop where
  numeric : ∀ x, (Literal.str (String.ofList t)).asFloat = some x → ∃ c, r = .ok c ∧
    ((∃ n, c = .int n) ∨ ∃ y, c = .float y) ∧ c.SameNumber (.str (String.ofList t))
  other : (Literal.str (String.ofList t)).asFloat = none → ∃ detail ∈ outOfRange, r = .error detail

theorem float_reads (h : float? t = some (t, [])) (hmark : '_' ∉ t) :
    Literal.Reads t (Atom.float t).value? := by
  have hvalue : floatLiteral? t = (Binary64.finite? t).map .float := by
    rw [floatLiteral?, withoutSeparators_eq hmark]
  have hfloat : (Literal.str (String.ofList t)).asFloat = Binary64.finite? t := by
    rw [Literal.asFloat, String.toList_ofList]
  refine ⟨fun x hx => ?_, fun hnone => ?_⟩
  · have hfinite := hfloat.symm.trans hx
    rw [hfinite] at hvalue
    refine ⟨.float x, by simp only [Atom.value?, hvalue, Option.map_some], .inr ⟨x, rfl⟩, ?_⟩
    refine Literal.sameNumber (.inr ⟨x, rfl⟩) ?_ rfl hx
    simp only [Literal.asInt, String.toList_ofList, float_no_int h, hfinite, Option.bind_none, Option.none_or,
      Option.bind_some]
  · rw [hfloat.symm.trans hnone] at hvalue
    exact ⟨_, List.mem_cons_self, by simp only [Atom.value?, hvalue, Option.map_none]⟩

theorem integer_reads (h : IntegerText 10 v t) (hmark : '_' ∉ t) : Literal.Reads t (Atom.int t).value? := by
  obtain ⟨hint, hdecimal⟩ := h.texts hmark
  have hfloat : (Literal.str (String.ofList t)).asFloat =
      if v < Binary64.overflow then some (Binary64.ofDecimal ⟨false, v, 0⟩) else none := by
    rw [Literal.asFloat, String.toList_ofList, Binary64.finite?, hdecimal, Option.map_some]
    split_ifs with hv
    · exact Option.filter_some_pos ((Binary64.finite_of_nat_iff v).mpr hv)
    · refine Option.filter_some_neg ?_
      rw [Bool.eq_false_iff, ne_eq, Binary64.finite_of_nat_iff]
      exact hv
  have hliteral := h.literal
  have hnumber {c : Literal} {x : Binary64} (hc : intLiteral? t = some c)
      (hkind : (∃ n, c = .int n) ∨ ∃ y, c = .float y)
      (hasInt : c.asInt = (Literal.str (String.ofList t)).asInt) (hasFloat : c.asFloat = some x)
      (hx : (Literal.str (String.ofList t)).asFloat = some x) : ∃ c, (Atom.int t).value? = .ok c ∧
        ((∃ n, c = .int n) ∨ ∃ y, c = .float y) ∧ c.SameNumber (.str (String.ofList t)) :=
    ⟨c, value_of_integer hc, hkind, Literal.sameNumber hkind hasInt hasFloat hx⟩
  by_cases hsmall : v ≤ 9223372036854775807
  · have hfits : int64? (v : Int) = some (Int64.ofNat v) := if_pos (by omega)
    have hvalue : (Int64.ofNat v).toInt = v := Int64.toInt_ofNat_of_lt (by omega)
    have hround : Binary64.ofDecimal ⟨false, v, 0⟩ = Binary64.ofInt v := Binary64.ofDecimal_int v
    have hrange : v < Binary64.overflow := Nat.lt_trans (Nat.lt_succ_of_le hsmall) Binary64.beyond_int64_lt_overflow
    rw [if_pos hrange, hround] at hfloat
    rw [if_pos hsmall] at hliteral
    refine ⟨fun x hx => ?_, fun hnone => by simp [hfloat] at hnone⟩
    obtain rfl : Binary64.ofInt v = x := Option.some.inj (hfloat.symm.trans hx)
    refine hnumber hliteral (.inl ⟨_, rfl⟩) ?_ (by rw [Literal.asFloat, hvalue]) hx
    simp [Literal.asInt, hint, hfits]
  · have hbeyond : int64? (v : Int) = none := if_neg (by omega)
    rw [if_neg hsmall] at hliteral
    refine ⟨fun x hx => ?_, fun hnone => ?_⟩
    · rw [hfloat] at hx
      split_ifs at hx with hrange
      obtain rfl := Option.some.inj hx
      rw [if_pos ⟨rfl, hrange⟩] at hliteral
      rw [if_pos hrange] at hfloat
      refine hnumber hliteral (.inr ⟨_, rfl⟩) ?_ rfl hfloat
      have hfinite : Binary64.finite? t = some (Binary64.ofDecimal ⟨false, v, 0⟩) := by
        rwa [Literal.asFloat, String.toList_ofList] at hfloat
      simp [Literal.asInt, hint, hbeyond, hfinite]
    · rw [hfloat] at hnone
      split_ifs at hnone with hrange
      rw [if_neg fun h => hrange h.2] at hliteral
      exact ⟨_, by simp [outOfRange], no_value_of_integer hliteral⟩

end Values

/-- A number without separators in a source is compiled to a constant just if its text is numeric, and the two
are the same number; otherwise the source is malformed, the number being out of range. Two spellings of a
number that differ in separators alone are compiled to the same constant or have the same error. -/
theorem numbers_read_alike :
    (∀ limit t, 1 ≤ limit → PlainNumber t →
      (∀ x, (Literal.str (String.ofList t)).asFloat = some x → ∃ c,
        compile limit (String.ofList t) = .ok (.constant ⟨0, byteSize t⟩ c) ∧
        ((∃ n, c = .int n) ∨ ∃ y, c = .float y) ∧ c.SameNumber (.str (String.ofList t))) ∧
      ((Literal.str (String.ofList t)).asFloat = none → ∃ detail ∈ outOfRange,
        compile limit (String.ofList t) =
          .error ⟨String.ofList t, .malformed, some ⟨0, byteSize t⟩, some detail⟩)) ∧
    ∀ limit t t', 1 ≤ limit → withoutSeparators t = withoutSeparators t' →
      float? t = some (t, []) ∧ float? t' = some (t', []) ∨ int? t = some (t, []) ∧ int? t' = some (t', []) →
      ∃ r, compile limit (String.ofList t) = Literal.alone t r ∧
        compile limit (String.ofList t') = Literal.alone t' r := by
  constructor
  · intro limit t hlimit ⟨hread, hmark⟩
    obtain ⟨r, hcompiled, hreads⟩ : ∃ r, compile limit (String.ofList t) = Literal.alone t r ∧
        Literal.Reads t r := by
      rcases hread with hfloat | ⟨hint, hplain⟩
      · exact ⟨_, compile_float hfloat hlimit, float_reads hfloat hmark⟩
      · obtain ⟨radix, v, h⟩ := int_whole.mp hint
        have hten : radix = 10 := by
          cases h with
          | marked => simp at hplain
          | octal hne => simp [hne] at hplain
          | zero | decimal => rfl
        subst hten
        exact ⟨_, compile_integer h hlimit, integer_reads h hmark⟩
    rw [hcompiled]
    refine ⟨fun x hx => ?_, fun hnone => ?_⟩
    · obtain ⟨c, rfl, hc⟩ := hreads.numeric x hx
      exact ⟨c, rfl, hc⟩
    · obtain ⟨detail, hdetail, rfl⟩ := hreads.other hnone
      exact ⟨detail, hdetail, rfl⟩
  · intro limit t t' hlimit heq hread
    rcases hread with ⟨h, h'⟩ | ⟨h, h'⟩
    · have hsame : (Atom.float t').value? = (Atom.float t).value? := by
        simp only [Atom.value?, floatLiteral?, heq]
      exact ⟨_, compile_float h hlimit, hsame ▸ compile_float h' hlimit⟩
    · obtain ⟨radix, v, ht⟩ := int_whole.mp h
      obtain ⟨radix', v', ht'⟩ := int_whole.mp h'
      have hspelled : spelledInt t' = spelledInt t := by simp only [spelledInt, heq]
      have hliteral : intLiteral? t' = intLiteral? t := by simp only [intLiteral?, hspelled]
      have hsame : (Atom.int t').value? = (Atom.int t).value? := by simp only [Atom.value?, hliteral]
      exact ⟨_, compile_integer ht hlimit, hsame ▸ compile_integer ht' hlimit⟩

/-- A fraction without whole part, and a hexadecimal number with and without a separator. -/
theorem numbers_read_alike_fraction :
    (∃ c, compile 1 ".5e1" = .ok (.constant ⟨0, 4⟩ c) ∧ c.SameNumber (.str ".5e1")) ∧
      ∃ r, compile 1 "0x_fF" = Literal.alone "0x_fF".toList r ∧ compile 1 "0xfF" = Literal.alone "0xfF".toList r := by
  have hplain : PlainNumber ".5e1".toList := ⟨.inl (by decide), by decide⟩
  have hfloat : (Literal.str ".5e1").asFloat.isSome = true := by decide +kernel
  obtain ⟨x, hx⟩ := Option.isSome_iff_exists.mp hfloat
  obtain ⟨c, hc, -, hsame⟩ := (numbers_read_alike.1 1 _ (by decide) hplain).1 x hx
  exact ⟨⟨c, hc, hsame⟩, numbers_read_alike.2 1 "0x_fF".toList "0xfF".toList (by decide) (by decide)
    (.inr ⟨by decide, by decide⟩)⟩

end Formula
