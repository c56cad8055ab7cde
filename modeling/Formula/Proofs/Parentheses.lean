import Formula.Proofs.Indexing

namespace Formula

namespace Evaluation

variable {α β : Type} {x y : Evaluation α} {f g : α → Evaluation β}

/-- The same value, or faults of the same kind wherever they are, behind the same calls. -/
structure SameButPlaces (x y : Evaluation α) : Prop where
  outcome : x.outcome.mapError Flaw.kind = y.outcome.mapError Flaw.kind
  calls : x.calls = y.calls

theorem SameButPlaces.refl (x : Evaluation α) : SameButPlaces x x := ⟨rfl, rfl⟩

theorem same_fault (span span' : Span) (kind : FailureKind) :
    SameButPlaces (fault span kind : Evaluation α) (fault span' kind) := ⟨rfl, rfl⟩

theorem same_operation (span span' : Span) (result : Except FailureKind α) :
    SameButPlaces (operation span result) (operation span' result) := by
  cases result with
  | ok a => exact .refl _
  | error kind => exact same_fault span span' kind

theorem SameButPlaces.bind (hx : SameButPlaces x y) (hf : ∀ a, SameButPlaces (f a) (g a)) :
    SameButPlaces (x >>= f) (y >>= g) := by
  obtain ⟨hout, hcalls⟩ := hx
  cases hx : x.outcome with
  | error flaw =>
    cases hy : y.outcome with
    | ok a =>
      rw [hx, hy] at hout
      cases hout
    | error flaw' =>
      rw [hx, hy] at hout
      have hkind : flaw.kind = flaw'.kind := Except.error.inj hout
      rw [bind_of_error hx, bind_of_error hy]
      exact ⟨congrArg Except.error hkind, hcalls⟩
  | ok a =>
    cases hy : y.outcome with
    | error flaw =>
      rw [hx, hy] at hout
      cases hout
    | ok b =>
      rw [hx, hy] at hout
      obtain rfl : a = b := Except.ok.inj hout
      rw [bind_of_ok hx, bind_of_ok hy]
      exact ⟨(hf a).outcome, congrArg₂ (· ++ ·) hcalls (hf a).calls⟩

end Evaluation

namespace Expr

open Evaluation

mutual

def withoutGroups : Expr → Expr
  | constant span v => constant span v
  | ident span name => ident span name
  | unary span op e => unary span op e.withoutGroups
  | arith span op l r => arith span op l.withoutGroups r.withoutGroups
  | compare span op l r => compare span op l.withoutGroups r.withoutGroups
  | logic span op l r => logic span op l.withoutGroups r.withoutGroups
  | index span base position => index span base.withoutGroups position.withoutGroups
  | call span name args => call span name (allWithoutGroups args)
  | composite span elements => composite span (allWithoutGroups elements)
  | group _ inner => inner.withoutGroups

def allWithoutGroups : List Expr → List Expr
  | [] => []
  | e :: es => e.withoutGroups :: allWithoutGroups es

end

theorem allWithoutGroups_eq (es : List Expr) : allWithoutGroups es = es.map withoutGroups := by
  induction es with
  | nil => rfl
  | cons e es ih => rw [allWithoutGroups, ih, List.map_cons]

/-- Groups around a tree are gone first or last. -/
theorem ungrouped_withoutGroups (e : Expr) :
    e.withoutGroups.ungrouped = e.ungrouped.withoutGroups := by
  induction e using tree_induction with
  | group span inner ih => exact ih
  | binary span m l r => cases m <;> rfl
  | _ => rfl

variable {scope : Scope} {e : Expr}

def Ungroupable (scope : Scope) (e : Expr) : Prop :=
  ∀ role, SameButPlaces (e.withoutGroups.evaluate scope role) (e.evaluate scope role)

theorem Ungroupable.value (h : e.Ungroupable scope) :
    SameButPlaces (e.withoutGroups.value scope) (e.value scope) := h .value

theorem Ungroupable.base (h : e.Ungroupable scope) :
    SameButPlaces (e.withoutGroups.asBase scope) (e.asBase scope) := h .base

theorem Ungroupable.truth (h : e.Ungroupable scope) :
    SameButPlaces (e.withoutGroups.truth scope) (e.truth scope) :=
  h.value.bind fun v => same_operation _ _ v.truth

theorem Ungroupable.all {es : List Expr} (h : ∀ e ∈ es, e.Ungroupable scope) :
    SameButPlaces (evaluateAll scope (allWithoutGroups es)) (evaluateAll scope es) := by
  induction es with
  | nil => exact .refl _
  | cons e es ih =>
    obtain ⟨he, hes⟩ := List.forall_mem_cons.mp h
    rw [allWithoutGroups, evaluateAll, evaluateAll]
    exact he.value.bind fun v => (ih hes).bind fun vs => .refl _

theorem ungroupable_of_plain (h : e.Plain)
    (hvalue : SameButPlaces (e.withoutGroups.value scope) (e.value scope)) :
    e.Ungroupable scope := by
  have h' : e.withoutGroups.Plain := by
    cases e with
    | composite | group => exact h.elim
    | _ => trivial
  intro role
  rw [evaluate_of_plain h, evaluate_of_plain h']
  exact hvalue.bind fun v => .refl _

/-- An item is the same wherever its position stands. -/
theorem same_item (span positionSpan positionSpan' : Span) (b : Base) (p : Literal) :
    SameButPlaces (item span positionSpan b p) (item span positionSpan' b p) := by
  cases b with
  | plain v =>
    cases v with
    | str s =>
      rw [item, item]
      split
      · exact .refl _
      · exact same_fault _ _ _
    | _ => exact .refl _
  | items vs =>
    rw [item, item]
    split
    · exact .refl _
    · exact same_fault _ _ _

/-- Whatever the tree, its groups make no difference to what it is evaluated to. -/
theorem ungroupable (scope : Scope) (e : Expr) : e.Ungroupable scope := by
  induction e using tree_induction with
  | constant span v => exact fun role => .refl _
  | ident span name => exact fun role => .refl _
  | unary span op e ih =>
    refine ungroupable_of_plain trivial ?_
    rw [withoutGroups, value_unary, value_unary]
    exact ih.value.bind fun v => .refl _
  | binary span m l r hl hr =>
    cases m with
    | arith op =>
      refine ungroupable_of_plain trivial ?_
      rw [binary, withoutGroups, value_arith, value_arith]
      exact hl.value.bind fun v => hr.value.bind fun w => .refl _
    | compare op =>
      refine ungroupable_of_plain trivial ?_
      rw [binary, withoutGroups, value_compare, value_compare]
      exact hl.value.bind fun v => hr.value.bind fun w => .refl _
    | logic op =>
      refine ungroupable_of_plain trivial ?_
      rw [binary, withoutGroups, value_logic, value_logic]
      refine hl.truth.bind fun a => ?_
      split
      · exact .refl _
      · exact hr.truth.bind fun b => .refl _
  | index span base position hbase hposition =>
    refine ungroupable_of_plain trivial ?_
    rw [withoutGroups, value_index, value_index]
    refine hbase.base.bind fun b => (SameButPlaces.refl (indexable span b)).bind fun b => ?_
    exact hposition.value.bind fun p => same_item span _ _ b p
  | call span name args ih =>
    refine ungroupable_of_plain trivial ?_
    rw [withoutGroups]
    cases hf : scope.functions.get? name with
    | none =>
      rw [value_call_unknown hf, value_call_unknown hf]
      exact .refl _
    | some f =>
      rw [value_call hf, value_call hf]
      exact (Ungroupable.all ih).bind fun vs => .refl _
  | composite span es ih =>
    -- As a value a composite is a fault, whatever its elements are; they are evaluated as a base only.
    rintro (_ | _)
    · exact .refl _
    · exact (Ungroupable.all ih).bind fun vs => .refl _
  | group span inner ih => exact ih

end Expr

namespace Built

theorem constantLength_withoutGroups (e : Expr) :
    constantLength? e.withoutGroups.ungrouped = constantLength? e.ungrouped := by
  rw [Expr.ungrouped_withoutGroups]
  cases he : e.ungrouped with
  | constant _ v => rfl
  | composite _ es =>
    simp only [Expr.withoutGroups, constantLength?, Expr.allWithoutGroups_eq, List.length_map]
  | group span inner => exact absurd he (e.ungrouped_ne_group span inner)
  | _ => rfl

theorem indexFault_kind_withoutGroups (span : Span) (base position : Expr) :
    (indexFault? span base.withoutGroups position.withoutGroups).map Flaw.kind =
      (indexFault? span base position).map Flaw.kind := by
  rw [indexFault?, indexFault?, constantLength_withoutGroups, Expr.ungrouped_withoutGroups]
  rcases constantLength? base.ungrouped with _ | _ | length
  · rfl
  · rfl
  · cases he : position.ungrouped with
    | constant s v =>
      dsimp only [Expr.withoutGroups]
      split <;> rfl
    | group s inner => exact absurd he (position.ungrouped_ne_group s inner)
    | _ => rfl

end Built

/-- Whatever the tree, the variables and the functions: without its groups the tree has the same value or
a fault of the same kind, and makes the same calls; and an index is accepted before evaluation, or rejected
for the same reason, as it is without the groups of its base and of its position. -/
theorem groups_make_no_difference (scope : Scope) (e : Expr) (span : Span) (base position : Expr) :
    (e.withoutGroups.value scope).outcome.mapError Flaw.kind =
        (e.value scope).outcome.mapError Flaw.kind ∧
      (e.withoutGroups.value scope).calls = (e.value scope).calls ∧
      (Built.indexFault? span base.withoutGroups position.withoutGroups).map Flaw.kind =
        (Built.indexFault? span base position).map Flaw.kind := by
  obtain ⟨houtcome, hcalls⟩ := (Expr.ungroupable scope e).value
  exact ⟨houtcome, hcalls, Built.indexFault_kind_withoutGroups span base position⟩

end Formula
