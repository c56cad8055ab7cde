import Formula.Proofs.AssignedNames
import Formula.Proofs.CoherentComparisons
import Formula.Proofs.ShortestDigits

/-!
Values and their printed texts. A printed float is read back as the float, and yet the two may differ: a text
of an integer is that integer, and the digits of a large float, filled up with zeros, may be those of an integer
beside it.
-/

namespace Formula

theorem radixValue_zeros (i : Nat) (ds : List Char) :
    radixValue 10 (List.replicate i '0' ++ ds) = radixValue 10 ds := by
  induction i with
  | zero => rfl
  | succ i ih => exact ih

/-- Digits with a point among them are a decimal with a fraction. -/
theorem read_decimal_of_fraction {cs whole fraction : List Char} {negative : Bool}
    (hsign : splitSign cs = (negative, whole ++ '.' :: fraction)) (hne : whole ≠ [])
    (hwhole : ∀ c ∈ whole, c.isDigit = true) (hfraction : ∀ c ∈ fraction, c.isDigit = true) :
    Decimal.read cs = some ⟨negative, radixValue 10 (whole ++ fraction), -fraction.length⟩ := by
  have htake : (whole ++ '.' :: fraction).takeWhile Char.isDigit = whole := by
    rw [List.takeWhile_append_of_pos hwhole, List.takeWhile_cons_of_neg (by decide), List.append_nil]
  have hdrop : (whole ++ '.' :: fraction).dropWhile Char.isDigit = '.' :: fraction := by
    rw [List.dropWhile_append_of_pos hwhole, List.dropWhile_cons_of_neg (by decide)]
  have hdigits : fraction.takeWhile Char.isDigit = fraction := List.takeWhile_eq_self_iff.mpr hfraction
  have hrest : fraction.dropWhile Char.isDigit = [] := List.dropWhile_eq_nil_iff.mpr hfraction
  simp only [Decimal.read, hsign, htake, hdrop, hdigits, hrest, Decimal.readExponent, Option.map_some,
    Int.zero_sub]
  obtain ⟨c, tail, rfl⟩ := List.exists_cons_of_ne_nil hne
  rfl

/-- Digits that spell a decimal: those of an integer, or a point among them and no zero at the end. -/
inductive Decimal.Written : List Char → Nat → Int → Prop
  | whole (n : Nat) : Written (decimal n) n 0
  | fraction {whole fraction : List Char} {i n : Nat} (hwhole : whole ≠ []) (hfraction : fraction ≠ [])
      (hdigits : whole ++ fraction = List.replicate i '0' ++ decimal n) (hlast : ¬ 10 ∣ n) :
      Written (whole ++ '.' :: fraction) n (-fraction.length)

namespace Decimal.Written

open Binary64 (signText)

variable {cs : List Char} {n : Nat} {e k : Int}

theorem digits_of_zeros {whole fraction : List Char} {i : Nat}
    (h : whole ++ fraction = List.replicate i '0' ++ decimal n) :
    (∀ c ∈ whole, c.isDigit = true) ∧ ∀ c ∈ fraction, c.isDigit = true := by
  have hall : ∀ c ∈ whole ++ fraction, c.isDigit = true := by
    rw [h]
    refine List.forall_mem_append.mpr ⟨fun c hc => ?_, decimal_digits⟩
    rw [List.eq_of_mem_replicate hc]
    decide
  exact List.forall_mem_append.mp hall

/-- Only the digits and perhaps a point are spelled, the digits with zeros before them. -/
theorem digits (h : Written cs n e) : (∀ c ∈ cs, c.isDigit = true ∨ c = '.') ∧
    ∃ i, cs.filter Char.isDigit = List.replicate i '0' ++ decimal n := by
  cases h with
  | whole => exact ⟨fun c hc => .inl (decimal_digits c hc), 0, List.filter_eq_self.mpr decimal_digits⟩
  | @fraction _ _ i _ _ _ hdigits _ =>
    obtain ⟨hwhole, hfraction⟩ := digits_of_zeros hdigits
    refine ⟨fun c hc => ?_, i, ?_⟩
    · rcases List.mem_append.mp hc with hc | hc
      · exact .inl (hwhole c hc)
      · rcases List.mem_cons.mp hc with rfl | hc
        · exact .inr rfl
        · exact .inl (hfraction c hc)
    · rw [List.filter_append, List.filter_cons_of_neg (by decide), List.filter_eq_self.mpr hwhole,
        List.filter_eq_self.mpr hfraction, hdigits]

/-- What stands before digits is their sign. -/
theorem splitSign_eq (h : Written cs n e) (s : Bool) : splitSign (signText s ++ cs) = (s, cs) := by
  obtain ⟨c, tail, rfl, hc⟩ : ∃ c tail, cs = c :: tail ∧ c.isDigit = true := by
    cases h with
    | whole =>
      obtain ⟨c, tail, hd⟩ := List.exists_cons_of_ne_nil (Nat.toDigits_ne_nil (b := 10) (n := n))
      exact ⟨c, tail, hd, decimal_digits c (hd ▸ List.mem_cons_self)⟩
    | @fraction whole fraction _ _ hwhole _ hdigits _ =>
      obtain ⟨c, tail, rfl⟩ := List.exists_cons_of_ne_nil hwhole
      exact ⟨c, tail ++ '.' :: fraction, rfl, (digits_of_zeros hdigits).1 c List.mem_cons_self⟩
  cases s
  · exact splitSign_digit hc tail
  · rfl

theorem read (h : Written cs n e) (s : Bool) :
    Decimal.read (signText s ++ cs) = some ⟨s, n, e⟩ := by
  have hsign := h.splitSign_eq s
  cases h with
  | whole => rw [read_decimal_of_digits hsign Nat.toDigits_ne_nil decimal_digits, radixValue_decimal]
  | fraction hwhole _ hdigits _ =>
    obtain ⟨hall, hall'⟩ := digits_of_zeros hdigits
    rw [read_decimal_of_fraction hsign hwhole hall hall', hdigits, radixValue_zeros, radixValue_decimal]

/-- Digits of an integer are an integer. With a point among the digits and no zero at the end, the number is
none. -/
theorem readInt_eq (h : Written cs n e) {s : Bool} (hk : Decimal.value ⟨s, n, e⟩ = k) :
    readInt (signText s ++ cs) = some k := by
  have hsign := h.splitSign_eq s
  cases h with
  | whole =>
    simp only [readInt, hsign, readDigits_decimal]
    simp only [Decimal.value, Decimal.size, zpow_zero, mul_one] at hk
    refine congrArg some ?_
    cases s
    · exact_mod_cast hk
    · simp only [if_true] at hk ⊢
      exact_mod_cast hk
  | @fraction whole fraction _ _ _ hfraction _ hlast =>
    refine absurd ?_ hlast
    have hpow : ((10 : ℚ) ^ fraction.length) ≠ 0 := pow_ne_zero _ (by norm_num)
    have hsize : (n : ℚ) * 10 ^ (-(fraction.length : Int)) = |(k : ℚ)| := by
      rw [← hk, Decimal.value]
      have hnonneg := Decimal.size_nonneg ⟨s, n, -fraction.length⟩
      cases s
      · exact (abs_of_nonneg hnonneg).symm
      · simp only [if_true, abs_neg]
        exact (abs_of_nonneg hnonneg).symm
    rw [zpow_neg, zpow_natCast, ← div_eq_mul_inv, div_eq_iff hpow] at hsize
    have hcount : n = k.natAbs * 10 ^ fraction.length := by
      zify
      exact_mod_cast hsize
    have hpos : fraction.length ≠ 0 := fun hzero => hfraction (List.length_eq_zero_iff.mp hzero)
    rw [hcount]
    exact Nat.dvd_mul_left_of_dvd (dvd_pow_self 10 hpos) _

end Decimal.Written

namespace Binary64

open Decimal (Written)

/-- The digits of a number are printed as a decimal of their value, in one of the two ways. -/
theorem positional_written {r : Nat} (hr : ¬ 10 ∣ r) (e : Int) :
    ∃ (j : Nat) (e' : Int), Written (Digits.positional ⟨decimal r, e⟩) (r * 10 ^ j) e' ∧ e = e' + j := by
  cases e with
  | ofNat k =>
    refine ⟨k, 0, ?_, (Int.zero_add _).symm⟩
    have htext : Digits.positional ⟨decimal r, .ofNat k⟩ = decimal (r * 10 ^ k) :=
      (decimal_mul_pow (pos_of_not_dvd hr) k).symm
    rw [htext]
    exact .whole _
  | negSucc k =>
    suffices h : ∃ whole fraction i, Digits.positional ⟨decimal r, .negSucc k⟩ = whole ++ '.' :: fraction ∧
        whole ≠ [] ∧ fraction.length = k + 1 ∧ whole ++ fraction = List.replicate i '0' ++ decimal r by
      obtain ⟨whole, fraction, i, htext, hwhole, hlength, hdigits⟩ := h
      have hfraction : fraction ≠ [] := by
        rintro rfl
        cases hlength
      refine ⟨0, -fraction.length, ?_, ?_⟩
      · rw [htext, pow_zero, mul_one]
        exact .fraction hwhole hfraction hdigits hr
      · omega
    by_cases hplaces : k + 1 < (decimal r).length
    · refine ⟨(decimal r).take ((decimal r).length - (k + 1)),
        (decimal r).drop ((decimal r).length - (k + 1)), 0, ?_, ?_, ?_, ?_⟩
      · simp only [Digits.positional, if_pos hplaces]
      · rw [Ne, ← List.length_eq_zero_iff, List.length_take]
        omega
      · rw [List.length_drop]
        omega
      · exact List.take_append_drop _ _
    · refine ⟨['0'], List.replicate (k + 1 - (decimal r).length) '0' ++ decimal r,
        k + 1 - (decimal r).length + 1, ?_, List.cons_ne_nil _ _, ?_, rfl⟩
      · simp only [Digits.positional, if_neg hplaces]
        rfl
      · rw [List.length_append, List.length_replicate]
        omega

def Fewest (ds : List Char) (x : Binary64) : Prop :=
  ∀ d, ofDecimal d = x → ds.length ≤ (decimal d.coefficient).length

/-- A finite number is printed as a decimal that is read as the number, with no more digits than any other
such decimal has, apart from zeros. -/
theorem text_written (s : Bool) (m : Magnitude) : ∃ cs n e, text (finite s m) = signText s ++ cs ∧
    Written cs n e ∧ ofDecimal ⟨s, n, e⟩ = finite s m ∧
    ∃ i j ds, decimal n = List.replicate i '0' ++ ds ++ List.replicate j '0' ∧ Fewest ds (finite s m) := by
  by_cases hzero : m.units = 0
  · refine ⟨decimal 0, 0, 0, ?_, .whole 0, ?_, 1, 0, [], rfl, fun _ _ => Nat.zero_le _⟩
    · rw [text, if_pos hzero]
      rfl
    · rw [ofDecimal_eq_finite_iff]
      refine ⟨rfl, ?_⟩
      rw [hzero, Decimal.size, Nat.cast_zero, zero_mul, zero_mul]
      exact nearestUnits_short (b := 0) (by decide)
  · obtain ⟨r, e, hdigits, hr, hreads, hfewest⟩ := digits_spec (Nat.pos_of_ne_zero hzero)
    obtain ⟨j, e', hwritten, rfl⟩ := positional_written hr e
    refine ⟨_, _, _, ?_, hwritten, ?_, 0, j, decimal r, ?_, ?_⟩
    · rw [text, if_neg hzero, hdigits]
    · rw [ofDecimal_eq_finite_iff, size_steps]
      rw [readsBack_iff, step_add] at hreads
      refine ⟨rfl, ?_⟩
      push_cast
      rwa [mul_assoc]
    · exact decimal_mul_pow (pos_of_not_dvd hr) j
    · intro d hd
      refine hfewest d.coefficient d.exponent _ ?_ ?_
      · rw [readsBack_iff, ← size_steps d.negative]
        exact (ofDecimal_eq_finite_iff.mp hd).2
      · exact lt_pow_digitCount d.coefficient

structure ShortestText (x : Binary64) : Prop where
  reads_back : finite? x.text = some x
  plain : ∀ c ∈ x.text, c.isDigit = true ∨ c = '.' ∨ c = '-'
  fewest : ∃ i j ds, x.text.filter Char.isDigit = List.replicate i '0' ++ ds ++ List.replicate j '0' ∧
    Fewest ds x

theorem finite_text (s : Bool) (m : Magnitude) : finite? (text (finite s m)) = some (finite s m) := by
  obtain ⟨cs, n, e, htext, hwritten, hvalue, -⟩ := text_written s m
  rw [finite?, htext, hwritten.read, Option.map_some, hvalue]
  rfl

/-- Every finite float is printed so. -/
theorem shortestText {x : Binary64} (h : x.isFinite = true) : ShortestText x := by
  cases x with
  | nan | infinite => cases h
  | finite s m =>
    obtain ⟨cs, n, e, htext, hwritten, -, i, j, ds, hdigits, hfewest⟩ := text_written s m
    obtain ⟨hplain, k, hfilter⟩ := hwritten.digits
    refine ⟨finite_text s m, fun c hc => ?_, k + i, j, ds, ?_, hfewest⟩
    · rw [htext] at hc
      rcases List.mem_append.mp hc with hc | hc
      · cases s
        · cases hc
        · exact .inr (.inr (List.mem_singleton.mp hc))
      · exact (hplain c hc).imp_right .inl
    · have hsign : (signText s).filter Char.isDigit = [] := by
        cases s <;> rfl
      rw [htext, List.filter_append, hsign, List.nil_append, hfilter, hdigits, List.replicate_add]
      simp only [List.append_assoc]

end Binary64

namespace Literal

open Binary64 (one rounded signed)

variable {v : Literal}

def Plain : Literal → Prop
  | .int _ | .str _ => True
  | .float x => x.isFinite = true
  | .bool _ | .err _ => False

instance : DecidablePred Plain
  | .int _ | .str _ => .isTrue trivial
  | .float x => inferInstanceAs (Decidable (x.isFinite = true))
  | .bool _ | .err _ => .isFalse id

def Misprinted (v : Literal) : Prop := ∃ m n : Int64,
  v.exactValue? = some (m.toInt : ℚ) ∧ (str v.text).denoted? = some (n.toInt : ℚ) ∧ m ≠ n

section Floats

variable {s : Bool} {m : Binary64.Magnitude} {n : Int64}

theorem exact_int_iff :
    (float (.finite s m)).exactValue? = some (n.toInt : ℚ) ↔ (Binary64.finite s m).toInt64? = some n := by
  refine ⟨fun h => ?_, exact_of_toInt64⟩
  have hvalue := Option.some.inj h
  rw [div_eq_iff one_cast_pos.ne'] at hvalue
  exact Binary64.toInt64_eq_some_iff.mpr (by exact_mod_cast hvalue)

/-- A printed float spells an integer of 64 bits exactly if it is read as one. -/
theorem denoted_int_iff : (str (float (.finite s m)).text).denoted? = some (n.toInt : ℚ) ↔
    (readInt (Binary64.finite s m).text).bind int64? = some n := by
  obtain ⟨cs, c, e, htext, hwritten, -⟩ := Binary64.text_written s m
  constructor
  · intro h
    rw [text, denoted?, String.toList_ofList, htext, hwritten.read] at h
    rw [htext, hwritten.readInt_eq (Option.some.inj h), Option.bind_some, int64_of_toInt]
  · intro h
    exact denoted_of_readInt (by rwa [text, String.toList_ofList])

theorem misprinted_float_iff : (float (.finite s m)).Misprinted ↔ ∃ a b,
    (Binary64.finite s m).toInt64? = some a ∧ (readInt (Binary64.finite s m).text).bind int64? = some b ∧
      a ≠ b := by
  simp only [Misprinted, exact_int_iff, denoted_int_iff]

/-- A float whose text is an integer is the float that this integer is rounded to. -/
theorem signed_of_printed (h : (readInt (Binary64.finite s m).text).bind int64? = some n) :
    signed s m = rounded n.toInt := by
  obtain ⟨z, hz, hn⟩ := Option.bind_eq_some_iff.mp h
  obtain ⟨t, k, hread, hplace⟩ := Binary64.finite_of_readInt hz hn
  obtain ⟨rfl, rfl⟩ := Binary64.finite.inj (Option.some.inj ((Binary64.finite_text s m).symm.trans hread))
  exact hplace

/-- A misprinted float is no less than the first integer beside which not every integer is a float. -/
theorem float_misprinted_large {a : Int64} (h : (float (.finite s m)).Misprinted)
    (ha : (Binary64.finite s m).toInt64? = some a) : 2 ^ 53 ≤ a.toInt.natAbs := by
  obtain ⟨a', b, ha', hb, hne⟩ := misprinted_float_iff.mp h
  obtain rfl := Option.some.inj (ha.symm.trans ha')
  have hplace : a.toInt * one = rounded b.toInt :=
    (Binary64.toInt64_eq_some_iff.mp ha).symm.trans (signed_of_printed hb)
  have hlarge : 2 ^ 53 ≤ b.toInt.natAbs := by
    by_contra hsmall
    have hshort : Binary64.Short (b.toInt * one).natAbs := by
      rw [Int.natAbs_mul, Int.natAbs_natCast]
      exact Binary64.short_of_small (not_le.mp hsmall)
    have hone : (one : Int) ≠ 0 := Int.natCast_ne_zero.mpr Binary64.one_pos.ne'
    rw [Binary64.rounded_of_short hshort, mul_left_inj' hone, Int64.toInt_inj] at hplace
    exact hne hplace
  have hle := Binary64.le_natAbs_rounded hlarge
  rw [← hplace, Int.natAbs_mul, Int.natAbs_natCast] at hle
  exact Nat.le_of_mul_le_mul_right hle Binary64.one_pos

/-- A finite float equals its printed text unless it is misprinted. -/
theorem equal_float_text_iff :
    compare .eq (float (.finite s m)) (str (float (.finite s m)).text) = .ok true ↔
      ¬ (float (.finite s m)).Misprinted := by
  have hfloat : (str (float (.finite s m)).text).asFloat = some (.finite s m) := by
    rw [asFloat, text, String.toList_ofList, Binary64.finite_text]
  have hint : (str (float (.finite s m)).text).asInt =
      ((readInt (Binary64.finite s m).text).bind int64?).or (Binary64.finite s m).toInt64? := by
    rw [asInt, text, String.toList_ofList, Binary64.finite_text, Option.bind_some]
  rw [misprinted_float_iff]
  cases ha : (Binary64.finite s m).toInt64? with
  | none =>
    have hcompare := compare_floats (v := float (.finite s m)) rfl hfloat (.inl ha) rfl rfl .eq
    simp [hcompare, CompareOp.tells, (orderInt_iff _ _).2.1]
  | some a =>
    cases hb : (readInt (Binary64.finite s m).text).bind int64? with
    | none =>
      rw [hb, ha] at hint
      have hcompare := compare_ints (v := float (.finite s m)) rfl hfloat ha hint .eq
      simp [hcompare, CompareOp.tells, (orderInt_iff _ _).2.1]
    | some b =>
      rw [hb] at hint
      have hcompare := compare_ints (v := float (.finite s m)) rfl hfloat ha hint .eq
      simp [hcompare, CompareOp.tells, (orderInt_iff _ _).2.1, Int64.toInt_inj]

end Floats

/-- A text equals itself, whether it is compared as an integer, as a float or as a text. -/
theorem equal_text_self (t : String) : compare .eq (str t) (str t) = .ok true := by
  have hsame {x : Binary64} (h : (str t).asFloat = some x) : x.same x = true := by
    obtain ⟨-, hfinite⟩ := Option.filter_eq_some_iff.mp h
    refine Binary64.same_self ?_
    rintro rfl
    cases hfinite
  change equal (str t) (str t) = .ok true
  rw [equal_eq]
  cases (str t).asInt with
  | some a => simp [propagatedOf?, propagated?, errorState, asBool]
  | none =>
    cases h : (str t).asFloat with
    | some x => simp [propagatedOf?, propagated?, errorState, asBool, hsame h]
    | none => simp [propagatedOf?, propagated?, errorState, asBool]

/-- Integers are printed as the integers that they are. -/
theorem int_not_misprinted (n : Int64) : ¬ (int n).Misprinted := by
  rintro ⟨a, b, ha, hb, hne⟩
  have hread : (readInt (Int.repr n.toInt).toList).bind int64? = some n := by
    rw [readInt_repr, Option.bind_some, int64_of_toInt]
  have hvalue := Option.some.inj ha
  have hspelled := Option.some.inj ((denoted_of_readInt hread).symm.trans hb)
  rw [Int.cast_inj, Int64.toInt_inj] at hvalue hspelled
  exact hne (hvalue.symm.trans hspelled)

/-- Only floats are misprinted, and only large ones. -/
theorem misprinted_large (h : v.Misprinted) :
    ∃ x n, v = float x ∧ x.toInt64? = some n ∧ 2 ^ 53 ≤ n.toInt.natAbs := by
  obtain ⟨_, _, hvalue, -⟩ := id h
  cases v with
  | str | bool | err => cases hvalue
  | int n => exact absurd h (int_not_misprinted n)
  | float x =>
    cases x with
    | nan | infinite => cases hvalue
    | finite s m =>
      obtain ⟨n, _, hn, -⟩ := misprinted_float_iff.mp h
      exact ⟨_, n, rfl, hn, float_misprinted_large h hn⟩

/-- An integer and a text equal their printed texts, a finite float does unless it is misprinted. -/
theorem equal_text_iff (hv : v.Plain) : compare .eq v (str v.text) = .ok true ↔ ¬ v.Misprinted := by
  cases v with
  | bool | err => cases hv
  | int n =>
    refine iff_of_true ?_ (int_not_misprinted n)
    exact ((interchangeable_repr n).compare (.refl _) .eq).trans (equal_text_self _)
  | str t =>
    refine iff_of_true (equal_text_self t) ?_
    rintro ⟨_, _, h, -⟩
    cases h
  | float x =>
    cases x with
    | nan | infinite => cases hv
    | finite s m => exact equal_float_text_iff

/-- No number is printed as a truth value. -/
theorem text_no_word (hv : v.Plain) {word : String} (hv' : v ≠ str word)
    (hword : Binary64.finite? word.toList = none) : v.text ≠ word := by
  intro he
  cases v with
  | bool | err => cases hv
  | int n =>
    have hread := Binary64.finite_repr n
    rw [show Int.repr n.toInt = word from he, hword] at hread
    cases hread
  | str t => exact hv' (congrArg str he)
  | float x =>
    have hread := (Binary64.shortestText hv).reads_back
    rw [← String.toList_ofList (l := x.text), show String.ofList x.text = word from he, hword] at hread
    cases hread

/-- How a value is printed, and what its text is when it comes back. It equals the value, from both sides and
also as the value of an assignment, where only the two words of truth values are no texts. Only large floats
may be misprinted, and floats are printed with the fewest digits. -/
structure PrintsBack (v : Literal) (t : String) : Prop where
  printed : v.asString = some t
  equal : ¬ v.Misprinted → compare .eq v (str t) = .ok true ∧ compare .eq (str t) v = .ok true
  assigned : ¬ v.Misprinted → v ≠ str "true" → v ≠ str "false" → ∀ before, '=' ∉ before →
    Assignment.Binds (Unicode.trim before) → ∃ w,
      Assignment.read (String.ofList before ++ "=" ++ t) = .ok (String.ofList (Unicode.trim before), w) ∧
        compare .eq v w = .ok true ∧ compare .eq w v = .ok true
  misprinted : v.Misprinted → ∃ x n, v = float x ∧ x.toInt64? = some n ∧ 2 ^ 53 ≤ n.toInt.natAbs
  shortest : ∀ x, v = float x → Binary64.ShortestText x

/-- Integers, texts and finite floats print back. -/
theorem prints_back (hv : v.Plain) : ∃ t, PrintsBack v t := by
  have hnone : v.errorState = none := by
    cases v with
    | bool | err => cases hv
    | int | float | str => rfl
  have hequal (h : ¬ v.Misprinted) :
      compare .eq v (str v.text) = .ok true ∧ compare .eq (str v.text) v = .ok true := by
    obtain ⟨same, hsame, hsame'⟩ := equal_comm hnone (w := str v.text) rfl
    have htrue : equal v (str v.text) = .ok true := (equal_text_iff hv).mpr h
    obtain rfl := Except.ok.inj (hsame.symm.trans htrue)
    exact ⟨hsame, hsame'⟩
  refine ⟨v.text, ?_, hequal, fun h htrue hfalse before hbefore hbinds => ?_, misprinted_large, ?_⟩
  · cases v with
    | bool | err => cases hv
    | int | float | str => rfl
  · have htext : (String.ofList before ++ "=" ++ v.text).toList = before ++ '=' :: v.text.toList := by
      simp
    have hvalue : Assignment.valueOf v.text = str v.text := by
      rw [Assignment.valueOf, if_neg (text_no_word hv htrue (by decide)),
        if_neg (text_no_word hv hfalse (by decide))]
    refine ⟨str v.text, ?_, hequal h⟩
    rw [Assignment.read_sides htext hbefore, if_pos hbinds, String.ofList_toList, hvalue]
  · rintro x rfl
    exact Binary64.shortestText hv

/-- The first power of two that is no integer of 64 bits is printed with zeros, and equals its text. -/
theorem prints_back_end :
    (float (Binary64.ofInt 9223372036854775808)).asString = some "9223372036854776000" ∧
      compare .eq (float (Binary64.ofInt 9223372036854775808)) (str "9223372036854776000") = .ok true ∧
      ∃ w, Assignment.read "x=9223372036854776000" = .ok ("x", w) ∧
        compare .eq (float (Binary64.ofInt 9223372036854775808)) w = .ok true := by
  have hplain : (float (Binary64.ofInt 9223372036854775808)).Plain := by decide +kernel
  have htext : (float (Binary64.ofInt 9223372036854775808)).asString = some "9223372036854776000" := by
    decide +kernel
  have hprinted : ¬ (float (Binary64.ofInt 9223372036854775808)).Misprinted :=
    (equal_text_iff hplain).mp (by decide +kernel)
  obtain ⟨t, ht⟩ := prints_back hplain
  obtain rfl := Option.some.inj (htext.symm.trans ht.printed)
  obtain ⟨w, hread, hequal, -⟩ := ht.assigned hprinted nofun nofun ['x'] (by decide) (by decide +kernel)
  exact ⟨htext, (ht.equal hprinted).1, w, hread, hequal⟩

/-- A power of two whose digits, filled up with a zero, are those of an integer beside it. And a text that is
printed as a word of a truth value comes back as that. -/
theorem printed_unequal :
    (float (Binary64.ofInt 36028797018963968)).asString = some "36028797018963970" ∧
      compare .eq (float (Binary64.ofInt 36028797018963968)) (str "36028797018963970") = .ok false ∧
      Engine.standard.evaluate "36028797018963968.0 == \"36028797018963970\"" NameMap.empty =
        .ok (.bool false) ∧
      (str "true").asString = some "true" ∧ Assignment.read "x=true" = .ok ("x", .bool true) ∧
      compare .eq (.bool true) (str "true") = .ok false ∧
      ¬ ∀ v t, Plain v → v.asString = some t → compare .eq v (str t) = .ok true := by
  have htext : (float (Binary64.ofInt 36028797018963968)).asString = some "36028797018963970" := by
    decide +kernel
  have hunequal : compare .eq (float (Binary64.ofInt 36028797018963968)) (str "36028797018963970") =
      .ok false := by decide +kernel
  refine ⟨htext, hunequal, by decide +kernel, rfl, by decide +kernel, by decide +kernel, fun hall => ?_⟩
  have hequal := hall _ _ (by decide +kernel) htext
  rw [hunequal] at hequal
  cases hequal

end Literal

end Formula
