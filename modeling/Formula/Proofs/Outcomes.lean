import Formula.Engine
import Formula.Proofs.BareTree
import Formula.Proofs.DepthLimit
import Mathlib.Data.List.Forall2

namespace Formula

namespace Evaluation

variable {α β : Type}

@[simp] theorem outcome_pure (a : α) : (pure a : Evaluation α).outcome = .ok a := rfl

@[simp] theorem calls_pure (a : α) : (pure a : Evaluation α).calls = [] := rfl

@[simp] theorem outcome_fault (span : Span) (kind : FailureKind) :
    (fault span kind : Evaluation α).outcome = .error ⟨kind, span, none⟩ := rfl

@[simp] theorem calls_fault (span : Span) (kind : FailureKind) :
    (fault span kind : Evaluation α).calls = [] := rfl

@[simp] theorem calls_operation (span : Span) (x : Except FailureKind α) :
    (operation span x).calls = [] := by
  cases x <;> rfl

@[simp] theorem outcome_bind (x : Evaluation α) (f : α → Evaluation β) :
    (x >>= f).outcome = x.outcome >>= fun a => (f a).outcome := by
  obtain ⟨flaw | a, calls⟩ := x <;> rfl

theorem outcome_bind_eq_ok {x : Evaluation α} {f : α → Evaluation β} {b : β} :
    (x >>= f).outcome = .ok b ↔ ∃ a, x.outcome = .ok a ∧ (f a).outcome = .ok b := by
  rw [outcome_bind]
  exact bind_eq_ok

theorem outcome_bind_eq_error {x : Evaluation α} {f : α → Evaluation β} {flaw : Flaw} :
    (x >>= f).outcome = .error flaw ↔
      x.outcome = .error flaw ∨ ∃ a, x.outcome = .ok a ∧ (f a).outcome = .error flaw := by
  rw [outcome_bind]
  cases x.outcome with
  | error flaw' =>
    constructor
    · intro h
      obtain rfl := Except.error.inj h
      exact .inl rfl
    · rintro (h | ⟨a, ha, -⟩)
      · obtain rfl := Except.error.inj h
        rfl
      · cases ha
  | ok a =>
    constructor
    · exact fun h => .inr ⟨a, rfl, h⟩
    · rintro (h | ⟨a', ha, h⟩)
      · cases h
      · obtain rfl := Except.ok.inj ha
        exact h

theorem calls_bind_ok {x : Evaluation α} {a : α} (h : x.outcome = .ok a) (f : α → Evaluation β) :
    (x >>= f).calls = x.calls ++ (f a).calls := by
  obtain ⟨flaw | a', calls⟩ := x
  · cases h
  · cases h
    rfl

theorem calls_bind_error {x : Evaluation α} {flaw : Flaw} (h : x.outcome = .error flaw)
    (f : α → Evaluation β) : (x >>= f).calls = x.calls := by
  obtain ⟨flaw' | a, calls⟩ := x
  · rfl
  · cases h

theorem eq_of_parts {x y : Evaluation α} (houtcome : x.outcome = y.outcome)
    (hcalls : x.calls = y.calls) : x = y := by
  obtain ⟨outcome, calls⟩ := x
  obtain ⟨outcome', calls'⟩ := y
  cases houtcome
  cases hcalls
  rfl

theorem bind_of_error {x : Evaluation α} {flaw : Flaw} (h : x.outcome = .error flaw)
    (f : α → Evaluation β) : x >>= f = ⟨.error flaw, x.calls⟩ := by
  refine eq_of_parts ?_ (calls_bind_error h f)
  rw [outcome_bind, h]
  rfl

theorem bind_of_ok {x : Evaluation α} {a : α} (h : x.outcome = .ok a) (f : α → Evaluation β) :
    x >>= f = ⟨(f a).outcome, x.calls ++ (f a).calls⟩ := by
  refine eq_of_parts ?_ (calls_bind_ok h f)
  rw [outcome_bind, h]
  rfl

/-- Steps may be put together in any way: the calls of each come behind those of the steps before. -/
instance : LawfulMonad Evaluation := LawfulMonad.mk' Evaluation
  (fun x => by
    change x >>= pure = x
    obtain ⟨flaw | a, calls⟩ := x
    · rfl
    · exact congrArg (mk _) (List.append_nil calls))
  (fun _ _ => rfl)
  (fun x f g => by
    cases hx : x.outcome with
    | error flaw => rw [bind_of_error hx, bind_of_error hx, bind_of_error rfl]
    | ok a =>
      rw [bind_of_ok hx, bind_of_ok hx]
      cases hf : (f a).outcome with
      | error flaw => rw [bind_of_error rfl, bind_of_error hf]
      | ok b => rw [bind_of_ok rfl, bind_of_ok hf, List.append_assoc])

end Evaluation

theorem Literal.truth_eq_ok {v : Literal} {b : Bool} : v.truth = .ok b ↔ v = .bool b := by
  cases v <;> simp [truth, propagated?, errorState, asBool]

def LogicOp.settledBy : LogicOp → Bool → Bool
  | .and, b => !b
  | .or, b => b

namespace Expr

variable {scope : Scope}

def asBase (scope : Scope) (e : Expr) : Evaluation Base := e.evaluate scope .base

theorem evaluate_group (role : Role) (span : Span) (inner : Expr) :
    (group span inner).evaluate scope role = inner.evaluate scope role := rfl

theorem evaluate_ungrouped (role : Role) (e : Expr) :
    e.ungrouped.evaluate scope role = e.evaluate scope role := by
  induction e using tree_induction with
  | group span inner ih => rw [ungrouped, ih, evaluate_group]
  | binary _ m _ _ _ _ => cases m <;> rfl
  | _ => rfl

theorem value_constant (span : Span) (v : Literal) : (constant span v).value scope = pure v := rfl

theorem value_ident (span : Span) (name : String) :
    (ident span name).value scope = lookup scope span name :=
  bind_pure (lookup scope span name)

theorem value_unary (span : Span) (op : UnaryOp) (e : Expr) :
    (unary span op e).value scope =
      e.value scope >>= fun v => Evaluation.operation span (Literal.unary op v) :=
  bind_congr fun v => bind_pure (Evaluation.operation span (Literal.unary op v))

theorem value_arith (span : Span) (op : ArithOp) (left right : Expr) :
    (arith span op left right).value scope =
      left.value scope >>= fun v => right.value scope >>= fun w =>
        Evaluation.operation span (Literal.arith op v w) :=
  bind_congr fun v => bind_congr fun w =>
    bind_pure (Evaluation.operation span (Literal.arith op v w))

theorem value_compare (span : Span) (op : CompareOp) (left right : Expr) :
    (compare span op left right).value scope =
      left.value scope >>= fun v => right.value scope >>= fun w =>
        Evaluation.operation span (Literal.compare op v w) >>= fun b => pure (.bool b) := rfl

def truth (scope : Scope) (e : Expr) : Evaluation Bool :=
  e.value scope >>= fun v => Evaluation.operation e.span (Literal.truth v)

theorem truth_eq_ok {e : Expr} {b : Bool} :
    (e.truth scope).outcome = .ok b ↔ (e.value scope).outcome = .ok (.bool b) := by
  rw [truth, Evaluation.outcome_bind_eq_ok]
  constructor
  · rintro ⟨v, hv, hb⟩
    cases htruth : v.truth with
    | error kind =>
      rw [htruth] at hb
      cases hb
    | ok a =>
      rw [htruth] at hb
      obtain rfl := Except.ok.inj hb
      rw [hv, Literal.truth_eq_ok.mp htruth]
  · exact fun h => ⟨.bool b, h, rfl⟩

theorem evaluate_logic (role : Role) (span : Span) (op : LogicOp) (left right : Expr) :
    (logic span op left right).evaluate scope role =
      left.truth scope >>= fun a =>
        if op.settledBy a then pure (role.ofLiteral (.bool a))
        else right.truth scope >>= fun b => pure (role.ofLiteral (.bool b)) := by
  rw [truth, bind_assoc]
  refine bind_congr fun v => bind_congr fun a => ?_
  cases op <;> cases a
  case and.false | or.true => rfl
  case and.true | or.false => exact (bind_assoc _ _ _).symm

theorem value_logic (span : Span) (op : LogicOp) (left right : Expr) :
    (logic span op left right).value scope =
      left.truth scope >>= fun a =>
        if op.settledBy a then pure (.bool a)
        else right.truth scope >>= fun b => pure (.bool b) :=
  evaluate_logic .value span op left right

theorem value_index (span : Span) (base position : Expr) :
    (index span base position).value scope =
      base.asBase scope >>= fun b => indexable span b >>= fun b =>
        position.value scope >>= fun p => item span position.span b p :=
  bind_congr fun _ => bind_congr fun b => bind_congr fun p =>
    bind_pure (item span position.span b p)

theorem evaluate_call_unknown {name : String} (h : scope.functions.get? name = none) (role : Role)
    (span : Span) (args : List Expr) :
    (call span name args).evaluate scope role = .fault span (.unknownFunction name) := by
  rw [evaluate, h]

theorem evaluate_call {name : String} {f : Function} (h : scope.functions.get? name = some f)
    (role : Role) (span : Span) (args : List Expr) :
    (call span name args).evaluate scope role =
      evaluateAll scope args >>= fun vs => Evaluation.invoke span name f vs >>= fun v =>
        pure (role.ofLiteral v) := by
  rw [evaluate, h]

theorem value_call_unknown {name : String} (h : scope.functions.get? name = none) (span : Span)
    (args : List Expr) :
    (call span name args).value scope = .fault span (.unknownFunction name) :=
  evaluate_call_unknown h .value span args

theorem value_call {name : String} {f : Function} (h : scope.functions.get? name = some f)
    (span : Span) (args : List Expr) :
    (call span name args).value scope =
      evaluateAll scope args >>= fun vs => Evaluation.invoke span name f vs := by
  rw [value, evaluate_call h]
  exact bind_congr fun vs => bind_pure (Evaluation.invoke span name f vs)

theorem asBase_composite (span : Span) (elements : List Expr) :
    (composite span elements).asBase scope =
      evaluateAll scope elements >>= fun vs => pure (.items vs) := rfl

/-- The node has a literal as its result wherever it stands: it is neither a composite nor in
parentheses. -/
def Plain : Expr → Prop
  | composite _ _ | group _ _ => False
  | _ => True

theorem evaluate_of_plain {e : Expr} (h : e.Plain) (role : Role) :
    e.evaluate scope role = e.value scope >>= fun v => pure (role.ofLiteral v) := by
  cases e with
  | composite | group => exact h.elim
  | constant => rfl
  | ident =>
    rw [value_ident]
    rfl
  | unary =>
    rw [value_unary, bind_assoc]
    rfl
  | arith | compare =>
    simp only [value_arith, value_compare, bind_assoc]
    rfl
  | logic =>
    rw [value_logic, evaluate_logic, bind_assoc]
    refine bind_congr fun a => ?_
    split
    · rw [pure_bind]
    · rw [bind_assoc]
      rfl
  | index =>
    simp only [value_index, bind_assoc]
    rfl
  | call span name args =>
    cases hf : scope.functions.get? name with
    | none =>
      rw [value_call_unknown hf, evaluate_call_unknown hf]
      rfl
    | some f =>
      rw [value_call hf, evaluate_call hf, bind_assoc]

/-- Expressions in a row evaluate to the values of each of them. -/
theorem evaluateAll_eq_ok {es : List Expr} {vs : List Literal} :
    (evaluateAll scope es).outcome = .ok vs ↔
      List.Forall₂ (fun e v => (e.value scope).outcome = .ok v) es vs := by
  induction es generalizing vs with
  | nil =>
    rw [evaluateAll, Evaluation.outcome_pure, List.forall₂_nil_left_iff]
    exact ⟨fun h => (Except.ok.inj h).symm, fun h => congrArg _ h.symm⟩
  | cons e es ih =>
    rw [evaluateAll, List.forall₂_cons_left_iff]
    simp only [Evaluation.outcome_bind_eq_ok, ih]
    constructor
    · rintro ⟨v, hv, vs', hvs, h⟩
      exact ⟨v, vs', hv, hvs, (Except.ok.inj h).symm⟩
    · rintro ⟨v, vs', hv, hvs, rfl⟩
      exact ⟨v, hv, vs', hvs, rfl⟩

/-- A row of expressions fails as one of them does. -/
theorem evaluateAll_eq_error {es : List Expr} {flaw : Flaw}
    (h : (evaluateAll scope es).outcome = .error flaw) :
    ∃ e ∈ es, (e.value scope).outcome = .error flaw := by
  induction es with
  | nil => cases h
  | cons e es ih =>
    rw [evaluateAll, Evaluation.outcome_bind_eq_error] at h
    rcases h with h | ⟨v, -, h⟩
    · exact ⟨e, List.mem_cons_self, h⟩
    · rw [Evaluation.outcome_bind_eq_error] at h
      rcases h with h | ⟨vs, -, h⟩
      · obtain ⟨e', he', h⟩ := ih h
        exact ⟨e', List.mem_cons_of_mem e he', h⟩
      · cases h

end Expr

namespace Compiled

variable {c : Compiled} {bindings : Bindings}

theorem evaluate_eq_ok {v : Literal} :
    c.evaluate bindings = .ok v ↔ (c.evaluation bindings).outcome = .ok v := by
  rw [evaluate]
  cases (c.evaluation bindings).outcome with
  | error flaw => simp [explain]
  | ok w => simp [explain]

theorem evaluate_eq_error {f : Failure} :
    c.evaluate bindings = .error f ↔
      ∃ flaw, (c.evaluation bindings).outcome = .error flaw ∧ flaw.inSource c.source = f := by
  rw [evaluate]
  cases (c.evaluation bindings).outcome with
  | error flaw => simp [explain]
  | ok w => simp [explain]

end Compiled

end Formula
