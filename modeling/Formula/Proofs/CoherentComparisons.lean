import Formula.Proofs.NumericValues

namespace Formula

open Literal (orderInt orderInt_iff)

theorem Literal.orderInt_swap (a b : Int) : (orderInt a b).swap = orderInt b a := by
  obtain ⟨hlt, heq, hgt⟩ := orderInt_iff b a
  rcases lt_trichotomy a b with hless | rfl | hgreater
  · rw [(orderInt_iff a b).1.mpr hless, hgt.mpr hless]
    rfl
  · rw [heq.mpr rfl]
    rfl
  · rw [(orderInt_iff a b).2.2.mpr hgreater, hlt.mpr hgreater]
    rfl

namespace Binary64

variable {x y : Binary64}

/-- All numbers but NaN have a place on the line of units. -/
theorem exists_position (h : x ≠ nan) : ∃ a, x.position? = some a := by
  cases x with
  | nan => exact absurd rfl h
  | infinite | finite => exact ⟨_, rfl⟩

theorem order_eq_of_positions {a b : Int} (hx : x.position? = some a) (hy : y.position? = some b) :
    x.order? y = some (orderInt a b) := by
  simp only [order?, hx, hy]
  rfl

theorem order_eq_none_iff : x.order? y = none ↔ x = nan ∨ y = nan := by
  constructor
  · intro h
    by_contra hnot
    obtain ⟨hx, hy⟩ := not_or.mp hnot
    obtain ⟨a, ha⟩ := exists_position hx
    obtain ⟨b, hb⟩ := exists_position hy
    rw [order_eq_of_positions ha hb] at h
    cases h
  · rintro (rfl | rfl)
    · rfl
    · cases x <;> rfl

theorem same_self (h : x ≠ nan) : x.same x = true := by
  obtain ⟨a, ha⟩ := exists_position h
  rw [same, order_eq_of_positions ha ha, (orderInt_iff a a).2.1.mpr rfl]
  rfl

theorem same_comm (x y : Binary64) : x.same y = y.same x := by
  by_cases h : x = nan ∨ y = nan
  · simp only [same, order_eq_none_iff.mpr h, order_eq_none_iff.mpr h.symm]
  · obtain ⟨hx, hy⟩ := not_or.mp h
    obtain ⟨a, ha⟩ := exists_position hx
    obtain ⟨b, hb⟩ := exists_position hy
    rw [same, same, order_eq_of_positions ha hb, order_eq_of_positions hb ha, decide_eq_decide]
    simp only [Option.some_inj, (orderInt_iff _ _).2.1]
    exact eq_comm

end Binary64

namespace Literal

variable {v w : Literal}

def Orderable (v : Literal) : Prop := v.Numeric ∧ v.asFloat ≠ some .nan

theorem orderable_iff : v.Orderable ↔ ∃ x, v.asFloat = some x ∧ x ≠ .nan := by
  rw [Orderable, numeric_iff]
  constructor
  · rintro ⟨⟨x, hx⟩, hnan⟩
    exact ⟨x, hx, fun he => hnan (he ▸ hx)⟩
  · rintro ⟨x, hx, hnan⟩
    exact ⟨⟨x, hx⟩, fun he => hnan (Option.some.inj (hx.symm.trans he))⟩

theorem orderable_of_int {n : Int64} (h : v.asInt = some n) : v.Orderable := by
  obtain ⟨s, m, hx, -⟩ := float_of_int h
  exact orderable_iff.mpr ⟨_, hx, nofun⟩

/-- The comparisons of two numbers tell one order, and in the other order its opposite. -/
theorem compare_orderable (hv : v.Orderable) (hw : w.Orderable) :
    ∃ o : Ordering, ∀ op, compare op v w = .ok (op.tells o) ∧ compare op w v = .ok (op.tells o.swap) := by
  obtain ⟨x, hx, hxnan⟩ := orderable_iff.mp hv
  obtain ⟨y, hy, hynan⟩ := orderable_iff.mp hw
  by_cases hints : (∃ m, v.asInt = some m) ∧ ∃ n, w.asInt = some n
  · obtain ⟨⟨m, hm⟩, n, hn⟩ := hints
    refine ⟨orderInt m.toInt n.toInt, fun op => ⟨compare_ints hx hy hm hn op, ?_⟩⟩
    rw [orderInt_swap]
    exact compare_ints hy hx hn hm op
  · have hint : v.asInt = none ∨ w.asInt = none := none_of_not_both hints
    obtain ⟨a, ha⟩ := Binary64.exists_position hxnan
    obtain ⟨b, hb⟩ := Binary64.exists_position hynan
    refine ⟨orderInt a b, fun op => ⟨compare_floats hx hy hint ha hb op, ?_⟩⟩
    rw [orderInt_swap]
    exact compare_floats hy hx hint.symm hb ha op

section NoErrors

variable (hv : v.errorState = none) (hw : w.errorState = none)

include hv hw

theorem propagatedOf_no_errors : propagatedOf? v w = none := by
  rw [propagatedOf?, propagated?, propagated?, hv, hw]
  rfl

/-- What is no number, and NaN, has no order. -/
theorem order_of_not_orderable (h : ¬ (v.Orderable ∧ w.Orderable)) :
    order v w = .error .incompatibleTypes := by
  rw [order, propagatedOf_no_errors hv hw]
  dsimp only
  split
  · next m n hm hn => exact absurd ⟨orderable_of_int hm, orderable_of_int hn⟩ h
  · split
    · next x y hx hy =>
      split
      · next o ho =>
        have hnan : ¬ (x = .nan ∨ y = .nan) := by
          rw [← Binary64.order_eq_none_iff, ho]
          exact Option.some_ne_none o
        obtain ⟨hxnan, hynan⟩ := not_or.mp hnan
        exact absurd ⟨orderable_iff.mpr ⟨x, hx, hxnan⟩, orderable_iff.mpr ⟨y, hy, hynan⟩⟩ h
      · rfl
    · rfl

/-- Equality never fails, and it is symmetric. -/
theorem equal_comm : ∃ same, equal v w = .ok same ∧ equal w v = .ok same := by
  have hvalue := equal_eq v w
  have hvalue' := equal_eq w v
  rw [propagatedOf_no_errors hv hw] at hvalue
  rw [propagatedOf_no_errors hw hv] at hvalue'
  refine ⟨_, hvalue, hvalue'.trans (congrArg Except.ok ?_)⟩
  have hbools (a b : Bool) : decide (a = b) = decide (b = a) := decide_eq_decide.mpr eq_comm
  have hints (m n : Int64) : decide (m = n) = decide (n = m) := decide_eq_decide.mpr eq_comm
  have htexts : decide (v.text = w.text) = decide (w.text = v.text) := decide_eq_decide.mpr eq_comm
  -- Each side takes the same one of the four ways: truth values, integers, floats, texts.
  cases v.asBool <;> cases w.asBool <;> try rfl
  · cases v.asInt <;> cases w.asInt <;> cases v.asFloat <;> cases w.asFloat <;>
      simp only [Binary64.same_comm, hints, htexts]
  · exact hbools _ _

end NoErrors

/-- How the comparisons of two values hang together: equality and its negation always have an answer, the
same from both sides; the others have one if both values are numbers, and then just one of less, equal and
greater is true, and each of the rest follows from these three. -/
structure Coherent (v w : Literal) : Prop where
  equality : ∃ same, compare .eq v w = .ok same ∧ compare .eq w v = .ok same ∧
    compare .ne v w = .ok !same
  ordered : v.Orderable → w.Orderable → ∃ less same greater,
    compare .lt v w = .ok less ∧ compare .eq v w = .ok same ∧ compare .gt v w = .ok greater ∧
      [less, same, greater].count true = 1 ∧
      compare .le v w = .ok (less || same) ∧ compare .ge v w = .ok (greater || same) ∧
      compare .gt w v = .ok less
  unordered : ¬ (v.Orderable ∧ w.Orderable) → ∀ op ∈ [.lt, .le, .gt, .ge],
    compare op v w = .error .incompatibleTypes

/-- The comparisons of any two values that are no errors are coherent. -/
theorem comparisons_cohere (hv : v.errorState = none) (hw : w.errorState = none) : Coherent v w where
  equality := by
    obtain ⟨same, hsame, hsame'⟩ := equal_comm hv hw
    refine ⟨same, hsame, hsame', ?_⟩
    rw [compare, hsame]
    rfl
  ordered := by
    intro hv hw
    obtain ⟨o, ho⟩ := compare_orderable hv hw
    refine ⟨_, _, _, (ho .lt).1, (ho .eq).1, (ho .gt).1, ?_, ?_, ?_, ?_⟩
    · cases o <;> rfl
    · rw [(ho .le).1]
      cases o <;> rfl
    · rw [(ho .ge).1]
      cases o <;> rfl
    · rw [(ho .gt).2]
      cases o <;> rfl
  unordered := by
    intro h op hop
    have horder := order_of_not_orderable hv hw h
    simp only [List.mem_cons, List.not_mem_nil, or_false] at hop
    rcases hop with rfl | rfl | rfl | rfl
    all_goals
      rw [compare, horder]
      rfl

/-- A text of an integer beside the float that the integer is rounded to: their places as floats are the
same, and still they are told apart, the float as the lesser from both sides. -/
theorem comparisons_cohere_rounded :
    (Literal.str "9007199254740993").errorState = none ∧
      (Literal.float (Binary64.ofInt 9007199254740992)).errorState = none ∧
      compare .gt (.str "9007199254740993") (.float (Binary64.ofInt 9007199254740992)) = .ok true ∧
      Coherent (.str "9007199254740993") (.float (Binary64.ofInt 9007199254740992)) :=
  ⟨rfl, rfl, by decide +kernel, comparisons_cohere rfl rfl⟩

end Literal

end Formula
