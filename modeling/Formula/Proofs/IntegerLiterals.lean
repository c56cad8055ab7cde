import Formula.Proofs.EscapeSpellings
import Formula.Proofs.LoneTokens
import Formula.Proofs.NarrowedTexts
import Formula.Proofs.NumberText

namespace Formula

open Lexeme

inductive SpacedDigits (radix : Nat) : List Char → Prop
  | nil : SpacedDigits radix []
  | digit {d : Char} {ds : List Char} (hd : digitValue d < radix) (h : SpacedDigits radix ds) :
      SpacedDigits radix (d :: ds)
  | parted {d : Char} {ds : List Char} (hd : digitValue d < radix) (h : SpacedDigits radix ds) :
      SpacedDigits radix ('_' :: d :: ds)

def radixMarks : List (Char × Nat) := [('x', 16), ('X', 16), ('b', 2), ('B', 2), ('o', 8), ('O', 8)]

inductive IntegerText : Nat → Nat → List Char → Prop
  | marked {mark : Char} {radix v : Nat} {ds : List Char} (hmark : (mark, radix) ∈ radixMarks) (hne : ds ≠ [])
      (hds : SpacedDigits radix ds) (hv : WritesNumber radix v (withoutSeparators ds)) :
      IntegerText radix v ('0' :: mark :: ds)
  | octal {v : Nat} {ds : List Char} (hne : ds ≠ []) (hds : SpacedDigits 8 ds)
      (hv : WritesNumber 8 v (withoutSeparators ds)) : IntegerText 8 v ('0' :: ds)
  | zero : IntegerText 10 0 ['0']
  | decimal {v : Nat} {d : Char} {ds : List Char} (hdigit : d.isDigit = true) (hd : d ≠ '0')
      (hds : SpacedDigits 10 ds) (hv : WritesNumber 10 v (d :: withoutSeparators ds)) : IntegerText 10 v (d :: ds)

section Digits

variable {radix v : Nat} {d : Char} {ds t : List Char} {isDigit : Char → Bool}

theorem ne_mark_of_value (hd : digitValue d < 36) : d ≠ '_' := by
  rintro rfl
  exact absurd hd (by decide)

theorem isDigit_iff : d.isDigit = true ↔ digitValue d < 10 := by
  rw [digitValue]
  split_ifs with hdigit hlower hupper
  · have hbounds : 48 ≤ d.toNat ∧ d.toNat ≤ 57 := Char.isDigit_iff_toNat.mp hdigit
    have hzero : '0'.toNat = 48 := rfl
    simp only [hdigit, true_iff]
    omega
  all_goals simp [hdigit]

theorem digitRun_spaced (hdigit : ∀ c, isDigit c = true ↔ digitValue c < radix) (hradix : radix ≤ 36) :
    digitRun isDigit ds = (ds, []) ↔ SpacedDigits radix ds := by
  constructor
  · intro h
    fun_induction digitRun isDigit ds with
    | case1 d cs hd run rest hrun ih =>
      simp only [Prod.mk.injEq, List.cons.injEq, true_and] at h
      exact .parted ((hdigit d).mp hd) (ih (hrun.trans (Prod.ext h.1 h.2)))
    | case2 => simp at h
    | case3 d cs _ hd run rest hrun ih =>
      simp only [Prod.mk.injEq, List.cons.injEq, true_and] at h
      exact .digit ((hdigit d).mp hd) (ih (hrun.trans (Prod.ext h.1 h.2)))
    | case4 => simp at h
    | case5 => exact .nil
  · intro h
    induction h with
    | nil => rfl
    | digit hd _ ih =>
      rw [digitRun_cons (ne_mark_of_value (by omega)), if_pos ((hdigit _).mpr hd), ih]
    | parted hd _ ih => rw [digitRun_mark, if_pos ((hdigit _).mpr hd), ih]

theorem SpacedDigits.digits (h : SpacedDigits radix ds) (hradix : radix ≤ 36) :
    ∀ c ∈ withoutSeparators ds, digitValue c < radix := by
  induction h with
  | nil => exact nofun
  | @digit d ds hd _ ih =>
    have hne := ne_mark_of_value (by omega : digitValue d < 36)
    rw [withoutSeparators, List.filter_cons_of_pos (by simpa using hne)]
    exact List.forall_mem_cons.mpr ⟨hd, ih⟩
  | @parted d ds hd _ ih =>
    have hne := ne_mark_of_value (by omega : digitValue d < 36)
    rw [withoutSeparators, List.filter_cons_of_neg (by simp), List.filter_cons_of_pos (by simpa using hne)]
    exact List.forall_mem_cons.mpr ⟨hd, ih⟩

theorem SpacedDigits.mono {radix' : Nat} (h : SpacedDigits radix ds) (hle : radix ≤ radix') :
    SpacedDigits radix' ds := by
  induction h with
  | nil => exact .nil
  | digit hd _ ih => exact .digit (Nat.lt_of_lt_of_le hd hle) ih
  | parted hd _ ih => exact .parted (Nat.lt_of_lt_of_le hd hle) ih

theorem withoutSeparators_ne_nil (h : SpacedDigits radix ds) (hradix : radix ≤ 36) (hne : ds ≠ []) :
    withoutSeparators ds ≠ [] := by
  cases h with
  | nil => exact absurd rfl hne
  | @digit d ds hd =>
    have hmark := ne_mark_of_value (by omega : digitValue d < 36)
    simp [withoutSeparators, hmark]
  | @parted d ds hd =>
    have hmark := ne_mark_of_value (by omega : digitValue d < 36)
    simp [withoutSeparators, hmark]

theorem writesDigit (h : digitValue d < 16) : WritesDigit (digitValue d) d :=
  forall_char_lt (P := fun c => digitValue c < 16 → WritesDigit (digitValue c) c) (by decide +kernel)
    (small_of_value h) h

/-- Digits of a radix write their value. -/
theorem writes_radixValue (hradix : radix ≤ 16) {cs : List Char} (h : ∀ c ∈ cs, digitValue c < radix) :
    WritesNumber radix (radixValue radix cs) cs := by
  induction cs using List.reverseRecOn with
  | nil => exact .nil
  | append_singleton cs c ih =>
    have hc : digitValue c < radix := h c (by simp)
    have hfront := ih fun a ha => h a (List.mem_append_left _ ha)
    rw [radixValue, List.foldl_append, ← radixValue, List.foldl_cons, List.foldl_nil]
    exact .digit hfront hc (writesDigit (by omega))

end Digits

section Texts

variable {radix v : Nat} {t : List Char}

theorem radix_mark_iff {m : Char} : (m, radix) ∈ radixMarks ↔
    (m = 'x' ∨ m = 'X') ∧ radix = 16 ∨ (m = 'b' ∨ m = 'B') ∧ radix = 2 ∨ (m = 'o' ∨ m = 'O') ∧ radix = 8 := by
  simp only [radixMarks, List.mem_cons, Prod.mk.injEq, List.not_mem_nil, or_false, or_and_right, or_assoc]

theorem marked_whole {mark : Char → Bool} (hradix : radix ≤ 36) :
    marked? mark (isDigitOf radix) t = some (t, []) ↔
      ∃ m ds, t = '0' :: m :: ds ∧ mark m = true ∧ ds ≠ [] ∧ SpacedDigits radix ds := by
  constructor
  · intro h
    rw [marked?.eq_def] at h
    split at h
    · rename_i m ds
      split_ifs at h with hm
      rcases hrun : digitRun (isDigitOf radix) ds with ⟨_ | ⟨d, run⟩, rest⟩
      · simp [hrun] at h
      · simp only [hrun, Option.some.injEq, Prod.mk.injEq, List.cons.injEq, true_and] at h
        obtain ⟨rfl, rfl⟩ := h
        exact ⟨m, d :: run, rfl, hm, nofun, (digitRun_spaced (fun _ => isDigitOf_iff) hradix).mp hrun⟩
    · cases h
  · rintro ⟨m, ds, rfl, hm, hne, hds⟩
    rw [marked?, if_pos hm, (digitRun_spaced (fun _ => isDigitOf_iff) hradix).mpr hds]
    cases ds with
    | nil => exact absurd rfl hne
    | cons d ds => rfl

theorem oldOctal_whole : oldOctal? t = some (t, []) ↔
    ∃ ds, t = '0' :: ds ∧ ds ≠ [] ∧ SpacedDigits 8 ds := by
  constructor
  · intro h
    rw [oldOctal?.eq_def] at h
    split at h
    · rename_i ds
      rcases hrun : digitRun (isDigitOf 8) ds with ⟨_ | ⟨d, run⟩, rest⟩
      · simp [hrun] at h
      · simp only [hrun, Option.some.injEq, Prod.mk.injEq, List.cons.injEq, true_and] at h
        obtain ⟨rfl, rfl⟩ := h
        exact ⟨d :: run, rfl, nofun, (digitRun_spaced (fun _ => isDigitOf_iff) (by decide)).mp hrun⟩
    · cases h
  · rintro ⟨ds, rfl, hne, hds⟩
    rw [oldOctal?, (digitRun_spaced (fun _ => isDigitOf_iff) (by decide)).mpr hds]
    cases ds with
    | nil => exact absurd rfl hne
    | cons d ds => rfl

theorem decimals_whole {d : Char} {ds : List Char} : decimals? (d :: ds) = some (d :: ds, []) ↔
    d.isDigit = true ∧ SpacedDigits 10 ds := by
  rw [← digitRun_spaced (fun _ => isDigit_iff) (by decide : 10 ≤ 36), decimals?]
  split_ifs with hd
  · simp [hd, Prod.ext_iff]
  · simp [hd]

theorem plain_whole : plain? t = some (t, []) ↔
    t = ['0'] ∨ ∃ d ds, t = d :: ds ∧ d ≠ '0' ∧ d.isDigit = true ∧ SpacedDigits 10 ds := by
  rcases t with _ | ⟨d, ds⟩
  · simp [plain?, decimals?]
  · by_cases hd : d = '0'
    · subst hd
      simp [plain?]
    · rw [show plain? (d :: ds) = decimals? (d :: ds) by simp [plain?, hd], decimals_whole]
      simp [hd]

theorem marked_missing {mark isDigit : Char → Bool} {m : Char} {ds : List Char} (h : mark m = false) :
    marked? mark isDigit ('0' :: m :: ds) = none := by
  rw [marked?, if_neg (by simp [h])]

/-- Nothing that octal digits start with is a mark. -/
theorem octal_head_no_mark {ds : List Char} (h : SpacedDigits 8 ds) {c : Char} (hc : c ∈ ds.head?) :
    ¬ (c = 'x' ∨ c = 'X') ∧ ¬ (c = 'b' ∨ c = 'B') ∧ ¬ (c = 'o' ∨ c = 'O') := by
  have hhead : digitValue c < 8 ∨ c = '_' := by
    cases h with
    | nil => cases hc
    | digit hd => exact .inl (Option.some.inj hc ▸ hd)
    | parted => exact .inr (Option.some.inj hc).symm
  refine ⟨?_, ?_, ?_⟩
  all_goals
    rintro (rfl | rfl) <;> exact absurd hhead (by decide)

/-- What is read as an integer to its end is what spells one. -/
theorem int_whole : int? t = some (t, []) ↔ ∃ radix v, IntegerText radix v t := by
  have hmarked {a b : Char} {radix : Nat} (ha : (a, radix) ∈ radixMarks) (hb : (b, radix) ∈ radixMarks)
      (hradix : radix ≤ 16) (h : marked? (fun x => x = a ∨ x = b) (isDigitOf radix) t = some (t, [])) :
      ∃ radix v, IntegerText radix v t := by
    obtain ⟨m, ds, rfl, hm, hne, hds⟩ := (marked_whole (by omega)).mp h
    have hmark : (m, radix) ∈ radixMarks := by rcases of_decide_eq_true hm with rfl | rfl <;> assumption
    exact ⟨_, _, .marked hmark hne hds (writes_radixValue hradix (hds.digits (by omega)))⟩
  constructor
  · intro h
    simp only [int?, Option.orElse_eq_orElse, Option.orElse_eq_or, Option.or_eq_some_iff] at h
    rcases h with h | ⟨-, h | ⟨-, h | ⟨-, h | ⟨-, h⟩⟩⟩⟩
    · exact hmarked (by decide) (by decide) (by decide) h
    · exact hmarked (by decide) (by decide) (by decide) h
    · exact hmarked (by decide) (by decide) (by decide) h
    · obtain ⟨ds, rfl, hne, hds⟩ := oldOctal_whole.mp h
      exact ⟨_, _, .octal hne hds (writes_radixValue (by decide) (hds.digits (by decide)))⟩
    · rcases plain_whole.mp h with rfl | ⟨d, ds, rfl, hd, hdigit, hds⟩
      · exact ⟨_, _, .zero⟩
      · refine ⟨_, _, .decimal hdigit hd hds (writes_radixValue (by decide) (List.forall_mem_cons.mpr ?_))⟩
        exact ⟨isDigit_iff.mp hdigit, hds.digits (by decide)⟩
  · rintro ⟨radix, v, h⟩
    cases h with
    | @marked m _ _ ds hmark hne hds hv =>
      have hread {mark : Char → Bool} (hradix : radix ≤ 36) (hm : mark m = true) :=
        (marked_whole (t := '0' :: m :: ds) hradix).mpr ⟨m, ds, rfl, hm, hne, hds⟩
      rcases radix_mark_iff.mp hmark with ⟨rfl | rfl, rfl⟩ | ⟨rfl | rfl, rfl⟩ | ⟨rfl | rfl, rfl⟩
      all_goals simp only [int?, Option.orElse_eq_orElse, Option.orElse_eq_or]
      iterate 2 rw [hread (by decide) (by decide), Option.some_or]
      iterate 2
        rw [marked_missing (by decide), hread (by decide) (by decide), Option.none_or, Option.some_or]
      iterate 2
        rw [marked_missing (by decide), marked_missing (by decide), hread (by decide) (by decide),
          Option.none_or, Option.none_or, Option.some_or]
    | @octal _ ds hne hds hv =>
      obtain ⟨c, cs, rfl⟩ := List.exists_cons_of_ne_nil hne
      obtain ⟨hx, hb, ho⟩ := octal_head_no_mark hds (c := c) rfl
      rw [int?, marked_missing (decide_eq_false hx), marked_missing (decide_eq_false hb),
        marked_missing (decide_eq_false ho), oldOctal_whole.mpr ⟨_, rfl, hne, hds⟩]
      rfl
    | zero => decide
    | @decimal _ d ds hdigit hd hds hv =>
      have hplain := plain_whole.mpr (.inr ⟨d, ds, rfl, hd, hdigit, hds⟩)
      simp [int?, marked?, oldOctal?, hd, hplain]

/-- The radix and the number of a text that spells an integer. -/
theorem IntegerText.spelled (h : IntegerText radix v t) : spelledInt t = (radix, v) := by
  cases h with
  | @marked m _ _ ds hmark hne hds hv =>
    have hvalue := (radixValue_of_writes hv).2
    rcases radix_mark_iff.mp hmark with ⟨rfl | rfl, rfl⟩ | ⟨rfl | rfl, rfl⟩ | ⟨rfl | rfl, rfl⟩
    all_goals exact congrArg (Prod.mk _) hvalue
  | @octal _ ds hne hds hv =>
    have hvalue := radixValue_of_writes hv
    obtain ⟨c, cs, hcs⟩ := List.exists_cons_of_ne_nil (withoutSeparators_ne_nil hds (by decide) hne)
    rw [hcs] at hvalue
    obtain ⟨hx, hb, ho⟩ := octal_head_no_mark (.digit (hvalue.1 c List.mem_cons_self) .nil) (c := c) rfl
    have hradix : radixAndDigits ('0' :: c :: cs) = (8, c :: cs) := by
      rw [radixAndDigits, if_neg hx, if_neg hb, if_neg ho]
    have hzero : withoutSeparators ('0' :: ds) = '0' :: c :: cs := congrArg (List.cons '0') hcs
    simp only [spelledInt, hzero, hradix, hvalue.2]
  | zero => decide
  | @decimal _ d ds hdigit hd hds hv =>
    have hne := ne_mark_of_value (Nat.lt_trans (isDigit_iff.mp hdigit) (by decide))
    have hfirst : withoutSeparators (d :: ds) = d :: withoutSeparators ds :=
      List.filter_cons_of_pos (by simpa using hne)
    simp [spelledInt, hfirst, radixAndDigits, hd, (radixValue_of_writes hv).2]

theorem spells_of_read (h : int? t = some (t, [])) (hv : spelledInt t = (radix, v)) : IntegerText radix v t := by
  obtain ⟨radix', v', ht⟩ := int_whole.mp h
  obtain ⟨rfl, rfl⟩ := Prod.mk.inj (ht.spelled.symm.trans hv)
  exact ht

/-- Digits alone are no float. -/
theorem float_missing_of_digits {d : Char} {ds : List Char} (hd : d.isDigit = true) (hds : SpacedDigits 10 ds) :
    float? (d :: ds) = none := by
  simp [float?, decimals_whole.mpr ⟨hd, hds⟩, exponent?]

theorem IntegerText.float_missing (h : IntegerText radix v t) : float? t = none := by
  cases h with
  | @marked m _ _ ds hmark =>
    have hparts : ∀ p ∈ radixMarks,
        p.1.isDigit = false ∧ p.1 ≠ '_' ∧ p.1 ≠ '.' ∧ p.1 ≠ 'e' ∧ p.1 ≠ 'E' := by decide
    obtain ⟨hdigit, hsep, hpoint, he, hE⟩ := hparts _ hmark
    have hdecimals : decimals? ('0' :: m :: ds) = some (['0'], m :: ds) := by
      rw [decimals?, digitRun_cons hsep, hdigit]
      rfl
    have hexponent : exponent? (m :: ds) = none := by
      cases ds with
      | nil => rfl
      | cons s ds => rw [exponent?, if_neg (by simp [he, hE])]
    simp [float?, hdecimals, hexponent, hpoint]
  | octal _ hds => exact float_missing_of_digits (by decide) (hds.mono (by decide))
  | zero => exact float_missing_of_digits (by decide) .nil
  | decimal hdigit _ hds => exact float_missing_of_digits hdigit hds

/-- What a number starts with starts no name and no comment. -/
theorem number_starts {c : Char} (h : c.isDigit = true ∨ c = '.') : startsName c = false ∧ c ∉ blanks := by
  rcases h with h | rfl
  · exact ⟨digit_starts_no_name h, not_mem_of_kind (by decide) h⟩
  · exact ⟨unnamed_starts_no_name (by decide), by decide⟩

theorem IntegerText.head (h : IntegerText radix v t) : ∃ d ds, t = d :: ds ∧ d.isDigit = true := by
  cases h with
  | marked | octal | zero => exact ⟨_, _, rfl, by decide⟩
  | decimal hdigit => exact ⟨_, _, rfl, hdigit⟩

/-- A text that spells an integer is read as one token. -/
theorem IntegerText.read (h : IntegerText radix v t) : ReadBefore (.atom (.int t)) [] := by
  have hint : int? t = some (t, []) := int_whole.mpr ⟨_, _, h⟩
  have hfloat := h.float_missing
  obtain ⟨d, ds, rfl, hd⟩ := h.head
  obtain ⟨hname, hblank⟩ := number_starts (.inl hd)
  have hatom : atom? (d :: ds) = some (.int (d :: ds), []) := by
    simp [atom?, name?, hname, hfloat, hint]
  rw [ReadBefore, List.append_nil]
  exact ⟨trivia_missing hblank ds, first_atom hatom⟩

theorem IntegerText.quiet (h : IntegerText radix v t) : ∀ c ∈ t, IsQuiet c :=
  (cuts_int _ _ _ (int_whole.mpr ⟨_, _, h⟩)).2.2

end Texts

namespace Binary64

/-- The middle between the greatest finite number and the next power of two, which is rounded up. -/
def overflow : Nat := 2 ^ 1024 - 2 ^ 970

theorem finite_ofDecimal_iff {d : Decimal} :
    (ofDecimal d).isFinite = true ↔ nearestUnits (d.size * one) < limit := by
  rw [ofDecimal_eq, ofUnits, round, nearestUnits]
  split_ifs with h
  · exact iff_of_true rfl h
  · exact iff_of_false Bool.false_ne_true h

theorem nearestUnits_nat (n : Nat) : nearestUnits n = roundUnits n 1 := by
  rw [roundUnits_eq Nat.one_pos, Nat.cast_one, div_one]

/-- A natural number is rounded to a finite number just if it is below the middle. -/
theorem finite_of_nat_iff (v : Nat) : (ofDecimal ⟨false, v, 0⟩).isFinite = true ↔ v < overflow := by
  have hone : (0 : ℚ) ≤ one := one.cast_nonneg
  have hsize : Decimal.size ⟨false, v, 0⟩ = v := by simp [Decimal.size]
  have hunits (n : Nat) : nearestUnits (n * one) = roundUnits (n * one) 1 := by
    rw [← nearestUnits_nat, Nat.cast_mul]
  rw [finite_ofDecimal_iff, hsize]
  constructor
  · intro h
    by_contra hge
    have hcast : (overflow : ℚ) ≤ v := Nat.cast_le.mpr (Nat.not_lt.mp hge)
    have hle := nearestUnits_mono (mul_nonneg overflow.cast_nonneg hone) (mul_le_mul_of_nonneg_right hcast hone)
    have hend : roundUnits (overflow * one) 1 = limit := by decide +kernel
    rw [hunits overflow, hend] at hle
    exact absurd h (Nat.not_lt.mpr hle)
  · intro h
    have hcast : (v : ℚ) ≤ (overflow - 1 : Nat) := Nat.cast_le.mpr (Nat.le_sub_one_of_lt h)
    have hle := nearestUnits_mono (mul_nonneg v.cast_nonneg hone) (mul_le_mul_of_nonneg_right hcast hone)
    have hend : roundUnits ((overflow - 1) * one) 1 < limit := by decide +kernel
    rw [hunits (overflow - 1)] at hle
    exact Nat.lt_of_le_of_lt hle hend

/-- The first integer beyond 64 bits is far below the middle. -/
theorem beyond_int64_lt_overflow : 9223372036854775808 < overflow := by
  decide +kernel

end Binary64

section Compiled

variable {radix v limit : Nat} {t : List Char}

/-- What an integer denotes: itself up to 64 bits, beyond them in decimal the nearest float up to the middle
between the greatest of them and the next power of two, and else nothing. -/
theorem IntegerText.literal (h : IntegerText radix v t) : intLiteral? t =
    if v ≤ 9223372036854775807 then some (.int (Int64.ofNat v))
    else if radix = 10 ∧ v < Binary64.overflow then some (.float (Binary64.ofDecimal ⟨false, v, 0⟩))
    else none := by
  simp only [intLiteral?, h.spelled, Binary64.finite_of_nat_iff, int64?]
  split_ifs <;> first | rfl | omega

/-- An integer that is all of a source is compiled to what it denotes. -/
theorem compile_integer (h : IntegerText radix v t) (hlimit : 1 ≤ limit) :
    compile limit (String.ofList t) = Literal.alone t (Atom.int t).value? := by
  have hname (name : List Char) : Atom.int t ≠ .name name := fun he => nomatch he
  have hcompiled := compile_literal hname h.quiet h.read hlimit
  rwa [Atom.text] at hcompiled

theorem value_of_integer {c : Literal} (h : intLiteral? t = some c) : (Atom.int t).value? = .ok c := by
  simp only [Atom.value?, h]

theorem no_value_of_integer (h : intLiteral? t = none) :
    (Atom.int t).value? = .error "integer literal out of range" := by
  simp only [Atom.value?, h]

end Compiled

section Decimals

variable {limit : Nat}

/-- The text of a number without sign spells it in decimal. -/
theorem decimal_spells (k : Nat) : IntegerText 10 k (decimal k) := by
  have hread : int? (decimal k ++ []) = some (decimal k, []) := int_read k (.inl rfl)
  rw [List.append_nil] at hread
  exact spells_of_read hread (spelled_decimal k)

/-- A minus before a digit is a sign of its own. -/
theorem minus_read {d : Char} (hd : d.isDigit = true) (ds : List Char) :
    ReadBefore (.symbol (.op .sub)) (d :: ds) := by
  have hminus : '-' ≠ d := by
    rintro rfl
    exact absurd hd (by decide)
  have hsymbol : symbol? ('-' :: d :: ds) = some (.op .sub, d :: ds) := by
    simp [symbol?, Symbol.all, Symbol.text, InfixOp.text, after?, hminus]
  have hstart : StartsNoAtom '-' := ⟨unnamed_starts_no_name (by decide), by decide⟩
  exact ⟨trivia_missing (by decide) _, first_symbol hstart hsymbol⟩

def negated (k : Nat) : Operand :=
  .signed ⟨.neg, ⟨0, 1⟩⟩ (.atom ⟨.int (decimal k), ⟨1, 1 + byteSize (decimal k)⟩⟩)

/-- A minus and the text of a number are built from the two of them. -/
theorem compile_negated (k : Nat) (hlimit : 2 ≤ limit) :
    compile limit (String.ofList ('-' :: decimal k)) =
      Built.compiled (String.ofList ('-' :: decimal k)) ((negated k).build limit) := by
  obtain ⟨d, ds, htext, hd⟩ := (decimal_spells k).head
  have hminus : IsQuiet '-' := by decide
  have hquiet : ∀ c ∈ '-' :: decimal k, IsQuiet c := List.forall_mem_cons.mpr ⟨hminus, (decimal_spells k).quiet⟩
  have hlaid : Laid 0 ('-' :: decimal k)
      [⟨.symbol (.op .sub), 0, 1⟩, ⟨.atom (.int (decimal k)), 1, 1 + byteSize (decimal k)⟩] := by
    have hsign := htext ▸ minus_read hd ds
    have hint := (decimal_spells k).read
    have hlaid : Laid 1 _ _ := .token hint.1 hint.2 .done
    rw [List.append_nil] at hlaid
    exact .token hsign.1 hsign.2 hlaid
  have hspells : Spells (byteSize ('-' :: decimal k))
      [⟨.symbol (.op .sub), 0, 1⟩, ⟨.atom (.int (decimal k)), 1, 1 + byteSize (decimal k)⟩]
      (.phrase false (.last (negated k) (byteSize ('-' :: decimal k)))) :=
    .last (.signed rfl rfl (.unsigned (.base (.atom rfl))))
  rw [compile_quiet hquiet hlaid (by simp [NoMapType, Token.StartsNoMap]) hspells,
    build_last (.inr (show 1 + 1 ≤ limit from hlimit))]

/-- A minus and the text of a number up to that of the least integer are built to what evaluates to the
negative number. The least integer alone has no positive one to be the opposite of. -/
theorem build_negated {k : Nat} (hpos : 1 ≤ k) (hk : k ≤ 9223372036854775808) (hlimit : 2 ≤ limit) :
    ∃ b, (negated k).build limit = .ok b ∧ ∀ scope, b.expr.value scope = pure (.int (Int64.ofInt (-k))) := by
  have hone : ¬ limit < 1 := by omega
  have htwo : ¬ limit < 2 := by omega
  have hfits : int64? (-(k : Int)) = some (Int64.ofInt (-k)) := if_pos (by omega)
  have hliteral := (decimal_spells k).literal
  by_cases hsmall : k ≤ 9223372036854775807
  · rw [if_pos hsmall] at hliteral
    have hnot : negatedInt? (decimal k) = none := by
      have hsome : int64? (k : Int) = some (Int64.ofInt k) := if_pos (by omega)
      simp [negatedInt?, spelled_decimal, hsome]
    have hvalue : (Int64.ofNat k).toInt = k := by
      rw [Int64.toInt_ofNat_of_lt (by omega)]
    have hbuild : (negated k).build limit = .ok ⟨.unary ⟨0, 1 + byteSize (decimal k)⟩ .neg
        (.constant ⟨1, 1 + byteSize (decimal k)⟩ (.int (Int64.ofNat k))), 2⟩ := by
      simp [negated, Operand.build, Built.atom, Atom.value?, hliteral, Built.above, hone, htwo, Built.sign,
        PrefixOp.meaning?, hnot, Expr.span, Span.cover, bind, Except.bind]
    refine ⟨_, hbuild, fun scope => ?_⟩
    have hopposite : Literal.unary .neg (.int (Int64.ofNat k)) = .ok (.int (Int64.ofInt (-k))) := by
      simp [Literal.unary, Literal.negate, Literal.propagated?, Literal.errorState, Literal.asIntOperand,
        Literal.asInt, hvalue, hfits]
    rw [Expr.value_unary, Expr.value_constant, pure_bind, hopposite]
    rfl
  · obtain rfl : k = 9223372036854775808 := by omega
    rw [if_neg hsmall, if_pos ⟨rfl, Binary64.beyond_int64_lt_overflow⟩] at hliteral
    have hleast : negatedInt? (decimal 9223372036854775808) = some (Int64.ofInt (-9223372036854775808)) := by
      decide +kernel
    have hbuild : (negated 9223372036854775808).build limit =
        .ok ⟨.constant ⟨0, 20⟩ (.int (Int64.ofInt (-9223372036854775808))), 1⟩ := by
      simp [negated, Operand.build, Built.atom, Atom.value?, hliteral, Built.above, hone, Built.sign,
        PrefixOp.meaning?, hleast, Expr.span, Span.cover, bind, Except.bind]
      decide
    exact ⟨_, hbuild, fun scope => rfl⟩

theorem evaluate_of_compile {source : String} {e : Engine} {expr : Expr} {v : Literal}
    (h : compile e.maxDepth source = .ok expr) (hvalue : ∀ scope, expr.value scope = pure v) (bindings : Bindings) :
    e.evaluate source bindings = .ok v := by
  simp only [Engine.evaluate, Engine.compile, h, Except.map, Compiled.evaluate, Compiled.evaluation, hvalue]
  rfl

/-- The text of an integer evaluates to it. -/
theorem evaluate_repr (n : Int64) {e : Engine} (he : 2 ≤ e.maxDepth) (bindings : Bindings) :
    e.evaluate (Int.repr n.toInt) bindings = .ok (.int n) := by
  have hlow : -9223372036854775808 ≤ n.toInt := n.le_toInt
  have hhigh : n.toInt ≤ 9223372036854775807 := n.toInt_le
  have hn := Int64.ofInt_toInt n
  cases hz : n.toInt with
  | ofNat k =>
    have htext : Int.repr (.ofNat k) = String.ofList (decimal k) := by
      rw [← String.toList_inj, String.toList_ofList]
      exact Nat.toList_repr
    rw [hz, Int.ofNat_eq_natCast] at hhigh
    have hk : k ≤ 9223372036854775807 := by omega
    have hcompiled := compile_integer (decimal_spells k) (Nat.le_of_succ_le he)
    have hliteral := (decimal_spells k).literal
    rw [if_pos hk] at hliteral
    rw [value_of_integer hliteral, ← htext] at hcompiled
    rw [evaluate_of_compile hcompiled fun scope => rfl, ← hn, hz]
    rfl
  | negSucc k =>
    have htext : Int.repr (.negSucc k) = String.ofList ('-' :: decimal (k + 1)) := by
      rw [← String.toList_inj, String.toList_ofList, Int.repr, String.toList_append, Nat.toList_repr]
      rfl
    obtain ⟨b, hbuild, hvalue⟩ := build_negated (k := k + 1) (by omega) (by omega) he
    have hcompiled := compile_negated (k + 1) he
    rw [hbuild, ← htext] at hcompiled
    rw [evaluate_of_compile hcompiled hvalue, ← hn, hz]
    rfl

end Decimals

/-- An integer that is read to its end spells a natural number, and is compiled to that number of 64 bits, to
the float nearest to it if it is a greater one in decimal, and else not at all. The text of each integer of
64 bits evaluates to it, the least one too. -/
theorem integers_denote_what_they_spell :
    (∀ t, int? t = some (t, []) ↔ ∃ radix v, IntegerText radix v t) ∧
    (∀ limit radix v t, 1 ≤ limit → IntegerText radix v t →
      (v ≤ 9223372036854775807 → compile limit (String.ofList t) =
        .ok (.constant ⟨0, byteSize t⟩ (.int (Int64.ofNat v)))) ∧
      (9223372036854775807 < v → radix = 10 ∧ v < Binary64.overflow → ∃ s m,
        compile limit (String.ofList t) = .ok (.constant ⟨0, byteSize t⟩ (.float (.finite s m))) ∧
        ∀ r k, |(v : ℚ) - Binary64.signed s m / Binary64.one| ≤ |(v : ℚ) - Binary64.signed r k / Binary64.one|) ∧
      (9223372036854775807 < v → ¬ (radix = 10 ∧ v < Binary64.overflow) → compile limit (String.ofList t) =
        .error ⟨String.ofList t, .malformed, some ⟨0, byteSize t⟩, some "integer literal out of range"⟩)) ∧
    ∀ (n : Int64) (e : Engine) bindings, 2 ≤ e.maxDepth →
      e.evaluate (Int.repr n.toInt) bindings = .ok (.int n) := by
  refine ⟨fun t => int_whole, fun limit radix v t hlimit h => ?_, fun n e bindings he => evaluate_repr n he bindings⟩
  have hliteral := h.literal
  rw [compile_integer h hlimit]
  refine ⟨fun hv => ?_, fun hv hfloat => ?_, fun hv hfloat => ?_⟩
  · rw [if_pos hv] at hliteral
    rw [value_of_integer hliteral]
    rfl
  · rw [if_neg (Nat.not_le.mpr hv), if_pos hfloat] at hliteral
    rw [value_of_integer hliteral]
    have hfinite := (Binary64.finite_of_nat_iff v).mpr hfloat.2
    cases hx : Binary64.ofDecimal ⟨false, v, 0⟩ with
    | nan | infinite =>
      rw [hx] at hfinite
      cases hfinite
    | finite s m =>
      refine ⟨s, m, rfl, fun r k => ?_⟩
      have hnearest := Binary64.ofDecimal_nearest hx r k
      simpa only [Decimal.value, Decimal.size, Bool.false_eq_true, if_false, zpow_zero, mul_one] using hnearest
  · rw [if_neg (Nat.not_le.mpr hv), if_neg hfloat] at hliteral
    rw [no_value_of_integer hliteral]
    rfl

/-- A hexadecimal number with separators, the octal form of old, the first decimal one beyond 64 bits, and
the least integer. -/
theorem integers_denote_what_they_spell_at_ends :
    compile 1 "0X_fF" = .ok (.constant ⟨0, 5⟩ (.int 255)) ∧
      compile 1 "0_17" = .ok (.constant ⟨0, 4⟩ (.int 15)) ∧
      (∃ s m, compile 1 "9223372036854775808" = .ok (.constant ⟨0, 19⟩ (.float (.finite s m)))) ∧
      (∃ failure, compile 1 "0x8000000000000000" = .error failure ∧
        failure.detail = some "integer literal out of range") ∧
      Engine.standard.evaluate "-9223372036854775808" NameMap.empty = .ok (.int Int64.minValue) := by
  obtain ⟨-, hcompiled, hevaluated⟩ := integers_denote_what_they_spell
  have hhex : IntegerText 16 255 "0X_fF".toList := spells_of_read (by decide) (by decide)
  have hoctal : IntegerText 8 15 "0_17".toList := spells_of_read (by decide) (by decide)
  have hdecimal : IntegerText 10 9223372036854775808 "9223372036854775808".toList :=
    spells_of_read (by decide) (by decide)
  have hlarge : IntegerText 16 9223372036854775808 "0x8000000000000000".toList :=
    spells_of_read (by decide) (by decide)
  refine ⟨(hcompiled 1 _ _ _ (by decide) hhex).1 (by decide), (hcompiled 1 _ _ _ (by decide) hoctal).1 (by decide),
    ?_, ?_, hevaluated Int64.minValue Engine.standard NameMap.empty (by decide)⟩
  · obtain ⟨s, m, h, -⟩ := (hcompiled 1 _ _ _ (by decide) hdecimal).2.1 (by decide)
      ⟨rfl, Binary64.beyond_int64_lt_overflow⟩
    exact ⟨s, m, h⟩
  · exact ⟨_, (hcompiled 1 _ _ _ (by decide) hlarge).2.2 (by decide) (by decide), rfl⟩

end Formula
