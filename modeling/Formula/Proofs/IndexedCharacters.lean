import Formula.Engine
import Formula.Proofs.EscapeSpellings
import Formula.Proofs.Indexing
import Formula.Proofs.PrintedNumbers

/-!
Characters of texts by their position. A position counts bytes, and what stands there is a byte, taken as
the code point of its value. So a character is found at its offset where it takes one byte; of all others
there is just one, 'Ã', whose code point is the value of its first byte.
-/

namespace Formula

section Bytes

theorem utf8Bytes_append (as bs : List Char) : utf8Bytes (as ++ bs) = utf8Bytes as ++ utf8Bytes bs := by
  induction as with
  | nil => rfl
  | cons a as ih => rw [List.cons_append, utf8Bytes, utf8Bytes, ih, List.append_assoc]

/-- The byte at the offset of a character is the first one of the character. -/
theorem byte_at_offset (front rest : List Char) {c : Char} {b : UInt8} {bs : List UInt8}
    (hc : String.utf8EncodeChar c = b :: bs) : (utf8Bytes (front ++ c :: rest))[byteSize front]? = some b := by
  rw [utf8Bytes_append, utf8Bytes, hc, ← length_utf8Bytes, List.getElem?_append_right le_rfl,
    Nat.sub_self]
  rfl

theorem code_point_of_byte (b : UInt8) : (Char.ofNat b.toNat).toNat = b.toNat := by
  have hvalid : b.toNat.isValidChar := .inl (b.toNat_lt.trans (by decide))
  rw [Char.ofNat, dif_pos hvalid]
  rfl

/-- A first byte is the code point of its character where that takes one byte, and in one case more. -/
theorem lead_byte (c : Char) : ∃ b bs, String.utf8EncodeChar c = b :: bs ∧
    (Char.ofNat b.toNat = c ↔ c.toNat < 128 ∨ c = 'Ã') := by
  obtain ⟨n, hn⟩ : ∃ n, c.toNat = n := ⟨_, rfl⟩
  have hbound : n < 1114112 := hn ▸ code_point_lt c
  have hvalue : c.val.toNat = n := hn
  have hself : c = 'Ã' ↔ n = 195 := by
    rw [← Char.toNat_inj, hn]
    exact Iff.rfl
  have hpoint (b : UInt8) : Char.ofNat b.toNat = c ↔ b.toNat = n := by
    rw [← Char.toNat_inj, code_point_of_byte, hn]
  simp only [String.utf8EncodeChar, hvalue, hself, hn]
  split_ifs with h1 h2 h3
  all_goals
    refine ⟨_, _, rfl, ?_⟩
    rw [hpoint, byte_value (by omega)]
    omega

end Bytes

namespace Literal

/-- A character beyond the first 128 is no number. -/
theorem no_number_of_wide {c : Char} (h : 128 ≤ c.toNat) :
    (str (String.ofList [c])).asInt = none ∧ (str (String.ofList [c])).asFloat = none := by
  have hne {d : Char} (hd : d.toNat < 128) : c ≠ d := by
    rintro rfl
    omega
  have hdigit : c.isDigit = false := by
    rw [Bool.eq_false_iff]
    intro hc
    obtain ⟨-, hle⟩ := Char.isDigit_iff_toNat.mp hc
    have hnine : '9'.toNat = 57 := rfl
    omega
  have hsign : splitSign [c] = (false, [c]) := by
    rw [splitSign]
    · intro cs hcs
      exact hne (d := '-') (by decide) (List.cons.inj hcs).1
    · intro cs hcs
      exact hne (d := '+') (by decide) (List.cons.inj hcs).1
  have hint : readInt [c] = none := by
    simp [readInt, hsign, readDigits, hdigit]
  have hread : Decimal.read [c] = none := by
    simp [Decimal.read, hsign, hdigit, hne (d := '.') (by decide)]
  constructor
  · simp [asInt, hint, Binary64.finite?, hread]
  · simp [asFloat, Binary64.finite?, hread]

/-- A text is equal to a character beyond the first 128 just if it is that character. -/
theorem equal_wide {c : Char} (h : 128 ≤ c.toNat) (s : String) :
    compare .eq (str s) (str (String.ofList [c])) = .ok (decide (s = String.ofList [c])) := by
  obtain ⟨hint, hfloat⟩ := no_number_of_wide h
  rw [compare, equal_eq, hint, hfloat]
  cases (str s).asInt <;> cases (str s).asFloat <;> rfl

end Literal

namespace Expr

variable {scope : Scope}

theorem asBase_of_plain {e : Expr} {v : Literal} (he : e.Plain) (h : (e.value scope).outcome = .ok v) :
    (e.asBase scope).outcome = .ok (.plain v) := by
  rw [asBase, evaluate_of_plain he, Evaluation.bind_of_ok h]
  rfl

/-- An expression that has a value is that value where it is indexed. -/
theorem asBase_of_value {e : Expr} {v : Literal} (h : (e.value scope).outcome = .ok v) :
    (e.asBase scope).outcome = .ok (.plain v) := by
  induction e using tree_induction with
  | group span inner ih => exact ih h
  | composite => cases h
  | binary _ m _ _ _ _ => cases m <;> exact asBase_of_plain trivial h
  | _ => exact asBase_of_plain trivial h

variable {base position : Expr} {s : String} {front rest : List Char} {c : Char} {p : Literal} {i : Int64}

/-- What stands at the offset of a character is the character of its first byte. -/
theorem value_at_offset (hs : s.toList = front ++ c :: rest)
    (hbase : (base.value scope).outcome = .ok (.str s)) (hposition : (position.value scope).outcome = .ok p)
    (hp : p.asInt = some i) (hi : i.toInt = byteSize front) {b : UInt8} {bs : List UInt8}
    (hc : String.utf8EncodeChar c = b :: bs) (span : Span) :
    ((index span base position).value scope).outcome = .ok (.str (String.ofList [Char.ofNat b.toNat])) := by
  have hbyte : (utf8Bytes s.toList)[byteSize front]? = some b := by
    rw [hs]
    exact byte_at_offset front rest hc
  have hless : byteSize front < byteSize s.toList := by
    rw [← length_utf8Bytes s.toList]
    exact (List.getElem?_eq_some_iff.mp hbyte).1
  have hbelow : p.below? (byteSize s.toList) = some (byteSize front) := by
    simp only [Literal.below?, hp, hi]
    rw [if_pos ⟨Int.natCast_nonneg _, Int.ofNat_lt.mpr hless⟩, Int.toNat_natCast]
  apply value_index_eq_ok.mpr
  refine ⟨.plain (.str s), byteSize s.toList, p, byteSize front, asBase_of_value hbase, rfl, hposition,
    hbelow, ?_⟩
  rw [Base.get?, hbyte, Option.map_some]

end Expr

open Formula.Expr

/-- Indexing a text at the offset of a character, whatever expressions the text, the offset and the
character are the values of, passes the check of constants and gives the character of the first byte. That is
the character there, and equal to it, exactly if the character takes one byte or is the one that leads itself. -/
theorem character_at_offset_iff {scope : Scope} {base position literal : Expr} {s : String}
    {front rest : List Char} {c : Char} {p : Literal} {i : Int64} (hs : s.toList = front ++ c :: rest)
    (hbase : (base.value scope).outcome = .ok (.str s)) (hposition : (position.value scope).outcome = .ok p)
    (hp : p.asInt = some i) (hi : i.toInt = byteSize front)
    (hliteral : (literal.value scope).outcome = .ok (.str (String.ofList [c]))) (span outer : Span) :
    Built.indexFault? span base position = none ∧
      (∃ b bs, String.utf8EncodeChar c = b :: bs ∧ ((index span base position).value scope).outcome =
        .ok (.str (String.ofList [Char.ofNat b.toNat]))) ∧
      (((index span base position).value scope).outcome = .ok (.str (String.ofList [c])) ↔
        c.toNat < 128 ∨ c = 'Ã') ∧
      ((compare outer .eq (index span base position) literal).value scope).outcome =
        .ok (.bool (decide (c.toNat < 128 ∨ c = 'Ã'))) := by
  obtain ⟨b, bs, hc, hsame⟩ := lead_byte c
  have hvalue := value_at_offset hs hbase hposition hp hi hc span
  have hfault : Built.indexFault? span base position = none := by
    by_contra hsome
    obtain ⟨flaw, hflaw⟩ := Option.ne_none_iff_exists'.mp hsome
    exact Built.no_value_of_fault hflaw _ hvalue
  have htexts : String.ofList [Char.ofNat b.toNat] = String.ofList [c] ↔ c.toNat < 128 ∨ c = 'Ã' := by
    rw [← hsame, String.ofList_inj, List.singleton_inj]
  refine ⟨hfault, ⟨b, bs, hc, hvalue⟩, ?_, ?_⟩
  · rw [hvalue, ← htexts]
    simp
  · have hequal : Literal.compare .eq (.str (String.ofList [Char.ofNat b.toNat])) (.str (String.ofList [c])) =
        .ok (decide (c.toNat < 128 ∨ c = 'Ã')) := by
      rcases Nat.lt_or_ge c.toNat 128 with hnarrow | hwide
      · rw [htexts.mpr (.inl hnarrow), Literal.equal_text_self, decide_eq_true (.inl hnarrow)]
      · rw [Literal.equal_wide hwide]
        exact congrArg Except.ok (decide_eq_decide.mpr htexts)
    rw [value_compare, Evaluation.bind_of_ok hvalue, Evaluation.bind_of_ok hliteral, hequal]
    rfl

/-- Behind a character of three bytes, the one that leads itself, at an offset that is given as a text; and the
character before it, at an offset that is given as a float, is not found. -/
theorem character_at_offset_iff_self_led :
    let scope : Scope := ⟨NameMap.empty.insert "s" (.str "日Ãb"), NameMap.empty⟩
    let second := index ⟨0, 6⟩ (ident ⟨0, 1⟩ "s") (constant ⟨2, 5⟩ (.str "3"))
    let first := index ⟨0, 6⟩ (ident ⟨0, 1⟩ "s") (constant ⟨2, 5⟩ (.float (Binary64.ofInt 0)))
    (second.value scope).outcome = .ok (.str "Ã") ∧
      ((compare ⟨0, 14⟩ .eq second (constant ⟨10, 14⟩ (.str "Ã"))).value scope).outcome =
        .ok (.bool true) ∧
      ((compare ⟨0, 15⟩ .eq first (constant ⟨10, 15⟩ (.str "日"))).value scope).outcome =
        .ok (.bool false) := by
  intro scope second first
  have hbase : ((ident ⟨0, 1⟩ "s").value scope).outcome = .ok (.str "日Ãb") := by
    rw [value_ident]
    rfl
  have hconstant (span : Span) (v : Literal) : ((constant span v).value scope).outcome = .ok v := rfl
  have hbehind : "日Ãb".toList = ['日'] ++ 'Ã' :: ['b'] := rfl
  have hthree : (Literal.str "3").asInt = some 3 := by decide +kernel
  have hsecond := character_at_offset_iff hbehind hbase (hconstant ⟨2, 5⟩ _) hthree (by decide)
    (hconstant ⟨10, 14⟩ (.str "Ã")) ⟨0, 6⟩ ⟨0, 14⟩
  have hfront : "日Ãb".toList = [] ++ '日' :: ['Ã', 'b'] := rfl
  have hzero : (Literal.float (Binary64.ofInt 0)).asInt = some 0 := by decide +kernel
  have hfirst := character_at_offset_iff hfront hbase (hconstant ⟨2, 5⟩ _) hzero (by decide)
    (hconstant ⟨10, 15⟩ (.str "日")) ⟨0, 6⟩ ⟨0, 15⟩
  exact ⟨hsecond.2.2.1.mpr (.inr rfl), hsecond.2.2.2, hfirst.2.2.2⟩

/-- The first character of a text that is a letter with an accent is not found at its offset: the byte there,
taken as a code point, is another letter. -/
theorem accented_letter_not_found :
    Engine.standard.evaluate "\"é\"[0]" NameMap.empty = .ok (.str "Ã") ∧
      Engine.standard.evaluate "\"é\"[0] == 'é'" NameMap.empty = .ok (.bool false) ∧
      Engine.standard.evaluate "s[\"0\"] == 'é'" (NameMap.empty.insert "s" (.str "é")) =
        .ok (.bool false) :=
  ⟨by decide +kernel, by decide +kernel, by decide +kernel⟩

end Formula
