import Formula.Engine
import Formula.Proofs.Outcomes

namespace Formula

theorem length_utf8Bytes (cs : List Char) : (utf8Bytes cs).length = byteSize cs := by
  induction cs with
  | nil => rfl
  | cons c cs ih => rw [utf8Bytes, List.length_append, ih, String.length_utf8EncodeChar, byteSize]

theorem Literal.below_lt {v : Literal} {length n : Nat} (h : v.below? length = some n) :
    n < length := by
  simp only [below?] at h
  split at h
  · split_ifs at h
    obtain rfl := Option.some.inj h
    omega
  · cases h

/-- A position counts from zero: it is the integer that the value is. -/
theorem Literal.asInt_of_below {v : Literal} {length n : Nat} (h : v.below? length = some n) :
    v.asInt.map Int64.toInt = some (n : Int) := by
  simp only [below?] at h
  split at h
  · next i hi =>
    split_ifs at h
    obtain rfl := Option.some.inj h
    rw [hi, Option.map_some]
    congr 1
    omega
  · cases h

namespace Base

def length? : Base → Option Nat
  | plain (.str s) => some (byteSize s.toList)
  | plain _ => none
  | items vs => some vs.length

def get? : Base → Nat → Option Literal
  | plain (.str s), n => (utf8Bytes s.toList)[n]?.map fun b => .str (String.ofList [Char.ofNat b.toNat])
  | plain _, _ => none
  | items vs, n => vs[n]?

theorem exists_get {b : Base} {length n : Nat} (h : b.length? = some length) (hn : n < length) :
    ∃ v, b.get? n = some v := by
  cases b with
  | items vs =>
    obtain rfl := Option.some.inj h
    exact ⟨vs[n], List.getElem?_eq_getElem hn⟩
  | plain v =>
    cases v with
    | str s =>
      obtain rfl := Option.some.inj h
      rw [← length_utf8Bytes] at hn
      exact ⟨_, by rw [get?, List.getElem?_eq_getElem hn]; rfl⟩
    | _ => cases h

end Base

namespace Expr

variable {scope : Scope} {span : Span} {base position : Expr}

theorem indexable_eq (b : Base) : indexable span b =
    if b.length?.isSome then pure b else .fault span .typeNotIndexable := by
  rcases b with (_ | _ | _ | _ | _) | _ <;> rfl

/-- An item inside the base is there. -/
theorem item_of_below {b : Base} {p : Literal} {length n : Nat} (hlength : b.length? = some length)
    (hn : p.below? length = some n) (span positionSpan : Span) :
    ∃ v, b.get? n = some v ∧ item span positionSpan b p = pure v := by
  obtain ⟨v, hv⟩ := Base.exists_get hlength (Literal.below_lt hn)
  refine ⟨v, hv, ?_⟩
  cases b with
  | items vs =>
    obtain rfl := Option.some.inj hlength
    rw [Base.get?] at hv
    simp [item, hn, hv]
  | plain w =>
    cases w with
    | str s =>
      obtain rfl := Option.some.inj hlength
      rw [← length_utf8Bytes] at hn
      obtain ⟨byte, hbyte, rfl⟩ := Option.map_eq_some_iff.mp hv
      simp [item, hn, hbyte]
    | _ => cases hlength

/-- A position outside the base is a fault of the position. -/
theorem item_of_not_below {b : Base} {p : Literal} {length : Nat} (hlength : b.length? = some length)
    (hn : p.below? length = none) (span positionSpan : Span) :
    item span positionSpan b p = .fault positionSpan .invalidIndex := by
  cases b with
  | items vs =>
    obtain rfl := Option.some.inj hlength
    simp [item, hn]
  | plain w =>
    cases w with
    | str s =>
      obtain rfl := Option.some.inj hlength
      rw [← length_utf8Bytes] at hn
      simp [item, hn]
    | _ => cases hlength

/-- Indexing gives what stands at the position. -/
theorem value_index_eq_ok {v : Literal} :
    ((index span base position).value scope).outcome = .ok v ↔
      ∃ b length p n, (base.asBase scope).outcome = .ok b ∧ b.length? = some length ∧
        (position.value scope).outcome = .ok p ∧ p.below? length = some n ∧ b.get? n = some v := by
  simp only [value_index, Evaluation.outcome_bind_eq_ok, indexable_eq]
  constructor
  · rintro ⟨b, hb, b', hb', p, hp, hv⟩
    cases hlength : b.length? with
    | none => simp [hlength] at hb'
    | some length =>
      obtain rfl : b = b' := by simpa [hlength] using hb'
      cases hn : p.below? length with
      | none => simp [item_of_not_below hlength hn span position.span] at hv
      | some n =>
        obtain ⟨w, hw, hitem⟩ := item_of_below hlength hn span position.span
        obtain rfl : w = v := by simpa [hitem] using hv
        exact ⟨b, length, p, n, hb, hlength, hp, hn, hw⟩
  · rintro ⟨b, length, p, n, hb, hlength, hp, hn, hv⟩
    obtain ⟨w, hw, hitem⟩ := item_of_below hlength hn span position.span
    obtain rfl : w = v := Option.some.inj (hw.symm.trans hv)
    exact ⟨b, hb, b, by simp [hlength], p, hp, by simp [hitem]⟩

/-- Indexing fails as its base does, at the node where the base has no positions, as its position does, or
at the position where this is not inside the base. -/
theorem value_index_eq_error {flaw : Flaw} :
    ((index span base position).value scope).outcome = .error flaw ↔
      (base.asBase scope).outcome = .error flaw ∨
      ∃ b, (base.asBase scope).outcome = .ok b ∧
        (b.length? = none ∧ flaw = ⟨.typeNotIndexable, span, none⟩ ∨
          ∃ length, b.length? = some length ∧
            ((position.value scope).outcome = .error flaw ∨
              ∃ p, (position.value scope).outcome = .ok p ∧ p.below? length = none ∧
                flaw = ⟨.invalidIndex, position.span, none⟩)) := by
  simp only [value_index, Evaluation.outcome_bind_eq_error, indexable_eq]
  refine or_congr Iff.rfl (exists_congr fun b => and_congr_right fun _ => ?_)
  cases hlength : b.length? with
  | none => simp [eq_comm]
  | some length =>
    have hitem (p : Literal) : (item span position.span b p).outcome = .error flaw ↔
        p.below? length = none ∧ flaw = ⟨.invalidIndex, position.span, none⟩ := by
      cases hn : p.below? length with
      | none => simp [item_of_not_below hlength hn span position.span, eq_comm]
      | some n =>
        obtain ⟨w, -, hw⟩ := item_of_below hlength hn span position.span
        simp [hw]
    simp [hitem]

theorem value_of_ungrouped {e : Expr} {s : Span} {v : Literal} (h : e.ungrouped = .constant s v) :
    e.value scope = pure v := by
  rw [value, ← evaluate_ungrouped, h]
  exact value_constant s v

theorem asBase_of_constant {s : Span} {v : Literal} (h : base.ungrouped = .constant s v) :
    base.asBase scope = pure (.plain v) := by
  rw [asBase, ← evaluate_ungrouped, h]
  rfl

theorem asBase_of_composite {s : Span} {es : List Expr} (h : base.ungrouped = .composite s es) :
    base.asBase scope = evaluateAll scope es >>= fun vs => pure (.items vs) := by
  rw [asBase, ← evaluate_ungrouped, h]
  exact asBase_composite s es

/-- The length that a base is known to have is the one that it turns out to have. -/
theorem length_of_constant {length? : Option Nat} {b : Base}
    (h : Built.constantLength? base.ungrouped = some length?)
    (hb : (base.asBase scope).outcome = .ok b) : b.length? = length? := by
  cases he : base.ungrouped with
  | constant s v =>
    rw [asBase_of_constant he] at hb
    obtain rfl := Except.ok.inj hb
    rw [he] at h
    cases v <;> exact Option.some.inj h
  | composite s es =>
    rw [asBase_of_composite he, Evaluation.outcome_bind_eq_ok] at hb
    obtain ⟨vs, hvs, hb⟩ := hb
    obtain rfl := Except.ok.inj hb
    rw [he] at h
    obtain rfl := Option.some.inj h
    rw [Base.length?, (evaluateAll_eq_ok.mp hvs).length_eq]
  | _ =>
    rw [he] at h
    cases h

/-- A base of a known length has items where its elements have values. -/
theorem asBase_of_elements {length? : Option Nat}
    (h : Built.constantLength? base.ungrouped = some length?)
    (helements : ∀ s es, base.ungrouped = .composite s es →
      ∀ e ∈ es, ∃ v, (e.value scope).outcome = .ok v) :
    ∃ b, (base.asBase scope).outcome = .ok b := by
  cases hb : (base.asBase scope).outcome with
  | ok b => exact ⟨b, rfl⟩
  | error flaw =>
    cases he : base.ungrouped with
    | constant s v =>
      rw [asBase_of_constant he] at hb
      cases hb
    | composite s es =>
      rw [asBase_of_composite he, Evaluation.outcome_bind_eq_error] at hb
      rcases hb with hb | ⟨vs, -, hb⟩
      · obtain ⟨e, hmem, hflaw⟩ := evaluateAll_eq_error hb
        obtain ⟨v, hv⟩ := helements s es he e hmem
        cases hflaw.symm.trans hv
      · cases hb
    | _ =>
      rw [he] at h
      cases h

end Expr

namespace Built

variable {scope : Scope} {span : Span} {base position : Expr}

/-- The two faults that are found before evaluation. -/
theorem indexFault_eq_some {flaw : Flaw} :
    indexFault? span base position = some flaw ↔
      constantLength? base.ungrouped = some none ∧ flaw = ⟨.typeNotIndexable, span, none⟩ ∨
      ∃ length s i, constantLength? base.ungrouped = some (some length) ∧
        position.ungrouped = .constant s i ∧ i.below? length = none ∧
        flaw = ⟨.invalidIndex, position.span, none⟩ := by
  rw [indexFault?]
  rcases constantLength? base.ungrouped with _ | _ | length
  · simp
  · simp [eq_comm]
  · cases position.ungrouped with
    | constant s i => cases hn : i.below? length <;> simp [hn, eq_comm (a := flaw)]
    | _ => simp

/-- What is rejected before evaluation is never evaluated. -/
theorem no_value_of_fault {flaw : Flaw} (h : indexFault? span base position = some flaw)
    (v : Literal) : ((Expr.index span base position).value scope).outcome ≠ .ok v := by
  intro hv
  obtain ⟨b, length, p, n, hb, hlength, hp, hn, -⟩ := Expr.value_index_eq_ok.mp hv
  rcases indexFault_eq_some.mp h with ⟨hknown, -⟩ | ⟨length', s, i, hknown, hi, hnot, -⟩
  · cases hlength.symm.trans (Expr.length_of_constant hknown hb)
  · obtain rfl := Option.some.inj (hlength.symm.trans (Expr.length_of_constant hknown hb))
    rw [Expr.value_of_ungrouped hi] at hp
    obtain rfl := Except.ok.inj hp
    cases hn.symm.trans hnot

/-- What is rejected before evaluation is the fault of evaluation, once the base has items. -/
theorem fails_of_fault {flaw : Flaw} (h : indexFault? span base position = some flaw) {b : Base}
    (hb : (base.asBase scope).outcome = .ok b) :
    ((Expr.index span base position).value scope).outcome = .error flaw := by
  apply Expr.value_index_eq_error.mpr
  refine .inr ⟨b, hb, ?_⟩
  rcases indexFault_eq_some.mp h with ⟨hknown, rfl⟩ | ⟨length, s, i, hknown, hi, hnot, rfl⟩
  · exact .inl ⟨Expr.length_of_constant hknown hb, rfl⟩
  · refine .inr ⟨length, Expr.length_of_constant hknown hb, .inr ⟨i, ?_, hnot, rfl⟩⟩
    rw [Expr.value_of_ungrouped hi]
    rfl

/-- A constant index that passes the check has a value, once the base has items. -/
theorem value_of_no_fault {length : Nat} {s : Span} {i : Literal} {b : Base}
    (h : indexFault? span base position = none)
    (hlength : constantLength? base.ungrouped = some (some length))
    (hi : position.ungrouped = .constant s i) (hb : (base.asBase scope).outcome = .ok b) :
    ∃ (n : Nat) (v : Literal), i.asInt.map Int64.toInt = some (n : Int) ∧ b.get? n = some v ∧
      ((Expr.index span base position).value scope).outcome = .ok v := by
  have hknown := Expr.length_of_constant hlength hb
  cases hn : i.below? length with
  | none =>
    have hfault : indexFault? span base position = some ⟨.invalidIndex, position.span, none⟩ :=
      indexFault_eq_some.mpr (.inr ⟨length, s, i, hlength, hi, hn, rfl⟩)
    cases h.symm.trans hfault
  | some n =>
    obtain ⟨v, hv⟩ := Base.exists_get hknown (Literal.below_lt hn)
    refine ⟨n, v, Literal.asInt_of_below hn, hv, ?_⟩
    apply Expr.value_index_eq_ok.mpr
    refine ⟨b, length, i, n, hb, hknown, ?_, hn, hv⟩
    rw [Expr.value_of_ungrouped hi]
    rfl

end Built

open Formula.Expr in
/-- An index that the check of constants rejects never gives a value, and where the elements of its base
have values it fails with that very fault. A constant index of a text or of a composite that passes the
check gives the byte or the element at its position once the elements have values, and it fails only as
one of these does. -/
theorem constant_index_agrees (scope : Scope) (span : Span) (base position : Expr) :
    (∀ flaw, Built.indexFault? span base position = some flaw →
      (∀ v, ((index span base position).value scope).outcome ≠ .ok v) ∧
      ((∀ s elements, base.ungrouped = .composite s elements →
          ∀ e ∈ elements, ∃ v, (e.value scope).outcome = .ok v) →
        ((index span base position).value scope).outcome = .error flaw)) ∧
    (Built.indexFault? span base position = none →
      ∀ s i, position.ungrouped = .constant s i →
        (∀ s' text, base.ungrouped = .constant s' (.str text) →
          ∃ (n : Nat) (byte : UInt8), i.asInt.map Int64.toInt = some (n : Int) ∧
            (utf8Bytes text.toList)[n]? = some byte ∧
            ((index span base position).value scope).outcome =
              .ok (.str (String.ofList [Char.ofNat byte.toNat]))) ∧
        (∀ s' elements, base.ungrouped = .composite s' elements →
          (∀ vs, List.Forall₂ (fun e v => (e.value scope).outcome = .ok v) elements vs →
            ∃ (n : Nat) (v : Literal), i.asInt.map Int64.toInt = some (n : Int) ∧ vs[n]? = some v ∧
              ((index span base position).value scope).outcome = .ok v) ∧
          ∀ flaw, ((index span base position).value scope).outcome = .error flaw →
            ∃ e ∈ elements, (e.value scope).outcome = .error flaw)) := by
  refine ⟨fun flaw hfault => ⟨Built.no_value_of_fault hfault, fun helements => ?_⟩, ?_⟩
  · obtain ⟨length?, hlength⟩ : ∃ length?, Built.constantLength? base.ungrouped = some length? := by
      rcases Built.indexFault_eq_some.mp hfault with ⟨hnone, -⟩ | ⟨_, _, _, hsome, -⟩
      · exact ⟨none, hnone⟩
      · exact ⟨some _, hsome⟩
    obtain ⟨b, hb⟩ := asBase_of_elements hlength helements
    exact Built.fails_of_fault hfault hb
  intro hfault s i hi
  refine ⟨fun s' text hbase => ?_, fun s' elements hbase => ?_⟩
  · have hlength : Built.constantLength? base.ungrouped = some (some (byteSize text.toList)) := by
      rw [hbase]
      rfl
    have hb : (base.asBase scope).outcome = .ok (.plain (.str text)) := by
      rw [asBase_of_constant hbase]
      rfl
    obtain ⟨n, v, hn, hv, hvalue⟩ := Built.value_of_no_fault hfault hlength hi hb
    obtain ⟨byte, hbyte, rfl⟩ := Option.map_eq_some_iff.mp hv
    exact ⟨n, byte, hn, hbyte, hvalue⟩
  · have hlength : Built.constantLength? base.ungrouped = some (some elements.length) := by
      rw [hbase]
      rfl
    refine ⟨fun vs hvs => ?_, fun flaw hflaw => ?_⟩
    · have hb : (base.asBase scope).outcome = .ok (.items vs) := by
        rw [asBase_of_composite hbase, Evaluation.outcome_bind_eq_ok]
        exact ⟨vs, evaluateAll_eq_ok.mpr hvs, rfl⟩
      exact Built.value_of_no_fault hfault hlength hi hb
    · cases hb : (base.asBase scope).outcome with
      | ok b =>
        obtain ⟨n, v, -, -, hvalue⟩ := Built.value_of_no_fault hfault hlength hi hb
        cases hflaw.symm.trans hvalue
      | error flaw' =>
        have hfails : ((index span base position).value scope).outcome = .error flaw' :=
          value_index_eq_error.mpr (.inl hb)
        obtain rfl := Except.error.inj (hflaw.symm.trans hfails)
        rw [asBase_of_composite hbase, Evaluation.outcome_bind_eq_error] at hb
        rcases hb with hb | ⟨vs, -, hb⟩
        · exact evaluateAll_eq_error hb
        · cases hb

open Formula.Expr in
/-- Behind the end of a composite in parentheses, given as a text, and the last byte of a text. -/
theorem constant_index_agrees_sample :
    let scope : Scope := ⟨NameMap.empty.insert "a" (.int 1), NameMap.empty⟩
    let elements := [constant ⟨7, 8⟩ (.int 7), ident ⟨10, 11⟩ "a"]
    let behind := index ⟨0, 17⟩ (group ⟨0, 13⟩ (composite ⟨1, 12⟩ elements))
      (constant ⟨14, 16⟩ (.str "2"))
    let last := index ⟨0, 10⟩ (constant ⟨0, 5⟩ (.str "hé"))
      (group ⟨6, 9⟩ (constant ⟨7, 8⟩ (.int 2)))
    (behind.value scope).outcome = .error ⟨.invalidIndex, ⟨14, 16⟩, none⟩ ∧
      (last.value scope).outcome = .ok (.str "©") := by
  intro scope elements behind last
  have hbehind := constant_index_agrees scope ⟨0, 17⟩ (group ⟨0, 13⟩ (composite ⟨1, 12⟩ elements))
    (constant ⟨14, 16⟩ (.str "2"))
  have hlast := constant_index_agrees scope ⟨0, 10⟩ (constant ⟨0, 5⟩ (.str "hé"))
    (group ⟨6, 9⟩ (constant ⟨7, 8⟩ (.int 2)))
  constructor
  · refine (hbehind.1 ⟨.invalidIndex, ⟨14, 16⟩, none⟩ (by decide +kernel)).2 ?_
    intro s es hes e he
    obtain ⟨-, rfl⟩ := Expr.composite.inj hes
    rcases List.mem_pair.mp he with rfl | rfl
    · exact ⟨.int 7, by rw [value_constant]; rfl⟩
    · exact ⟨.int 1, by rw [value_ident]; rfl⟩
  · obtain ⟨n, byte, hn, hbyte, hvalue⟩ :=
      (hlast.2 (by decide +kernel) ⟨7, 8⟩ (.int 2) rfl).1 ⟨0, 5⟩ "hé" rfl
    obtain rfl : 2 = n := Int.ofNat.inj (Option.some.inj hn)
    obtain rfl : 169 = byte := Option.some.inj hbyte
    exact hvalue

end Formula
