import Formula.Proofs.Indexing
import Formula.Proofs.IntegerTexts
import Formula.Proofs.YieldedValues

namespace Formula

inductive Corresponds {ε α β : Type} (R : α → β → Prop) : Except ε α → Except ε β → Prop
  | ok {a b} (h : R a b) : Corresponds R (.ok a) (.ok b)
  | error (fault : ε) : Corresponds R (.error fault) (.error fault)

namespace Corresponds

variable {ε α β γ δ : Type} {R : α → β → Prop} {S : γ → δ → Prop}

theorem refl {R : α → α → Prop} (h : ∀ a, R a a) (x : Except ε α) : Corresponds R x x := by
  cases x with
  | ok a => exact .ok (h a)
  | error fault => exact .error fault

theorem bind {x : Evaluation α} {y : Evaluation β} {f : α → Evaluation γ} {g : β → Evaluation δ}
    (hx : Corresponds R x.outcome y.outcome)
    (hf : ∀ a b, R a b → Corresponds S (f a).outcome (g b).outcome) :
    Corresponds S (x >>= f).outcome (y >>= g).outcome := by
  rw [Evaluation.outcome_bind, Evaluation.outcome_bind]
  generalize x.outcome = result at hx
  generalize y.outcome = result' at hx
  cases hx with
  | ok h => exact hf _ _ h
  | error fault => exact .error fault

end Corresponds

def Literal.SameOrSpelled (n : Int64) (v w : Literal) : Prop :=
  v = w ∨ v = .int n ∧ w = .str (Int.repr n.toInt)

def Base.SameOrSpelled (n : Int64) : Base → Base → Prop
  | plain v, plain w => v = w
  | items vs, items ws => List.Forall₂ (Literal.SameOrSpelled n) vs ws
  | _, _ => False

def Expr.isLiteralBase (e : Expr) : Bool :=
  match e.ungrouped with
  | composite _ _ | constant _ (.str _) => true
  | _ => false

/-- Two scopes that differ in variables which hold the integer in the one and its text in the other; their
functions do not tell these apart. -/
structure Scope.SameOrSpelled (n : Int64) (scope scope' : Scope) : Prop where
  bound : ∀ name, scope.bindings.get? name = scope'.bindings.get? name ∨
    scope.bindings.get? name = some (.int n) ∧
      scope'.bindings.get? name = some (.str (Int.repr n.toInt))
  functions : scope'.functions = scope.functions
  blind : ∀ name f, scope.functions.get? name = some f → f.Blind

variable {n : Int64} {scope scope' : Scope} {v w : Literal} {vs ws : List Literal}

theorem Literal.SameOrSpelled.refl (v : Literal) : v.SameOrSpelled n v := .inl rfl

theorem Literal.SameOrSpelled.interchangeable (h : v.SameOrSpelled n w) : v.Interchangeable w := by
  rcases h with rfl | ⟨rfl, rfl⟩
  · exact .refl v
  · exact interchangeable_repr n

theorem interchangeable_all (h : List.Forall₂ (Literal.SameOrSpelled n) vs ws) :
    List.Forall₂ Literal.Interchangeable vs ws :=
  h.imp fun _ _ => Literal.SameOrSpelled.interchangeable

namespace Expr

open Evaluation Literal

theorem corresponds_lookup (h : scope.SameOrSpelled n scope') (span : Span) (name : String) :
    Corresponds (Literal.SameOrSpelled n) (lookup scope span name).outcome
      (lookup scope' span name).outcome := by
  rcases h.bound name with hsame | ⟨hint, htext⟩
  · rw [lookup, lookup, hsame]
    exact .refl .refl _
  · rw [lookup, lookup, hint, htext]
    exact .ok (.inr ⟨rfl, rfl⟩)

theorem corresponds_invoke {f : Function} (hf : f.Blind)
    (h : List.Forall₂ (Literal.SameOrSpelled n) vs ws) (span : Span) (name : String) :
    Corresponds (Literal.SameOrSpelled n) (invoke span name f vs).outcome
      (invoke span name f ws).outcome := by
  rw [invoke, invoke, hf vs ws (interchangeable_all h)]
  exact .refl .refl _

theorem corresponds_indexable {b b' : Base} (h : b.SameOrSpelled n b') (span : Span) :
    Corresponds (Base.SameOrSpelled n) (indexable span b).outcome (indexable span b').outcome := by
  cases b with
  | plain v =>
    cases b' with
    | plain w =>
      obtain rfl : v = w := h
      rw [indexable_eq]
      split
      · exact .ok rfl
      · exact .error _
    | items ws => exact h.elim
  | items vs =>
    cases b' with
    | plain w => exact h.elim
    | items ws => exact .ok h

/-- A text has the same byte at two interchangeable positions, and items that are the same or spelled
stand at them. -/
theorem corresponds_item {b b' : Base} (hb : b.SameOrSpelled n b') (h : v.SameOrSpelled n w)
    (span positionSpan : Span) :
    Corresponds (Literal.SameOrSpelled n) (item span positionSpan b v).outcome
      (item span positionSpan b' w).outcome := by
  have hbelow := h.interchangeable.below
  cases b with
  | plain u =>
    cases b' with
    | plain u' =>
      obtain rfl : u = u' := hb
      have hsame : item span positionSpan (.plain u) v = item span positionSpan (.plain u) w := by
        cases u <;> simp only [item, hbelow]
      rw [hsame]
      exact .refl .refl _
    | items ws => exact hb.elim
  | items vs =>
    cases b' with
    | plain u => exact hb.elim
    | items ws =>
      have hlength : vs.length = ws.length := hb.length_eq
      rw [item, item, hbelow, hlength]
      cases hn : w.below? ws.length with
      | none => exact .error _
      | some i =>
        have hi : i < ws.length := below_lt hn
        rw [Option.bind_some, Option.bind_some, List.getElem?_eq_getElem (hlength ▸ hi),
          List.getElem?_eq_getElem hi]
        exact .ok (hb.get _ _)

structure Simulated (n : Int64) (scope scope' : Scope) (e : Expr) : Prop where
  value : Corresponds (Literal.SameOrSpelled n) (e.value scope).outcome (e.value scope').outcome
  base : e.isLiteralBase →
    Corresponds (Base.SameOrSpelled n) (e.asBase scope).outcome (e.asBase scope').outcome

variable {e : Expr}

theorem simulated_of_value (h : e.isLiteralBase = false)
    (hvalue : Corresponds (Literal.SameOrSpelled n) (e.value scope).outcome
      (e.value scope').outcome) : e.Simulated n scope scope' :=
  ⟨hvalue, fun hbase => (Bool.false_ne_true (h.symm.trans hbase)).elim⟩

theorem Simulated.truth (h : e.Simulated n scope scope') :
    Corresponds Eq (e.truth scope).outcome (e.truth scope').outcome := by
  rw [Expr.truth, Expr.truth]
  refine h.value.bind fun v w hv => ?_
  rw [hv.interchangeable.truth]
  exact .refl (fun _ => rfl) _

theorem Simulated.all {es : List Expr} (h : ∀ e ∈ es, e.Simulated n scope scope') :
    Corresponds (List.Forall₂ (Literal.SameOrSpelled n)) (evaluateAll scope es).outcome
      (evaluateAll scope' es).outcome := by
  induction es with
  | nil => exact .ok .nil
  | cons e es ih =>
    obtain ⟨he, hes⟩ := List.forall_mem_cons.mp h
    rw [evaluateAll, evaluateAll]
    exact he.value.bind fun v w hv => (ih hes).bind fun vs ws hvs => .ok (.cons hv hvs)

theorem simulated (hscope : scope.SameOrSpelled n scope') (e : Expr)
    (h : ∀ span base position, index span base position ∈ e.nodes → base.isLiteralBase) :
    e.Simulated n scope scope' := by
  induction e using child_induction with
  | node e ih =>
    have hbelow : ∀ c ∈ e.children, c.Simulated n scope scope' :=
      fun c hc => ih c hc fun s b p hn => h s b p (mem_nodes_of_child hc hn)
    cases e with
    | constant span v =>
      have hplain : Base.SameOrSpelled n (.plain v) (.plain v) := rfl
      exact ⟨.ok (.refl v), fun _ => .ok hplain⟩
    | ident span name =>
      refine simulated_of_value rfl ?_
      rw [value_ident, value_ident]
      exact corresponds_lookup hscope span name
    | unary span op e =>
      refine simulated_of_value rfl ?_
      rw [value_unary, value_unary]
      refine (hbelow e (by simp [children])).value.bind fun v w hv => ?_
      rw [hv.interchangeable.unary]
      exact .refl .refl _
    | arith span op l r =>
      refine simulated_of_value rfl ?_
      rw [value_arith, value_arith]
      refine (hbelow l (by simp [children])).value.bind fun v w hv => ?_
      refine (hbelow r (by simp [children])).value.bind fun v' w' hv' => ?_
      rw [hv.interchangeable.arith hv'.interchangeable]
      exact .refl .refl _
    | compare span op l r =>
      refine simulated_of_value rfl ?_
      rw [value_compare, value_compare]
      refine (hbelow l (by simp [children])).value.bind fun v w hv => ?_
      refine (hbelow r (by simp [children])).value.bind fun v' w' hv' => ?_
      rw [hv.interchangeable.compare hv'.interchangeable]
      exact .refl .refl _
    | logic span op l r =>
      refine simulated_of_value rfl ?_
      rw [value_logic, value_logic]
      refine (hbelow l (by simp [children])).truth.bind fun a _ ha => ?_
      obtain rfl := ha
      split
      · exact .ok (.refl _)
      · refine (hbelow r (by simp [children])).truth.bind fun b _ hb => ?_
        obtain rfl := hb
        exact .ok (.refl _)
    | index span base position =>
      refine simulated_of_value rfl ?_
      rw [value_index, value_index]
      -- The base is no variable: the text of an integer has bytes to take out, the integer has none.
      have hbase := hbelow base (by simp [children])
      have hposition := hbelow position (by simp [children])
      refine (hbase.base (h span base position (self_mem_nodes _))).bind fun b b' hb => ?_
      refine (corresponds_indexable hb span).bind fun b b' hb => ?_
      exact hposition.value.bind fun p q hp => corresponds_item hb hp span position.span
    | call span name args =>
      refine simulated_of_value rfl ?_
      cases hf : scope.functions.get? name with
      | none =>
        rw [value_call_unknown hf, value_call_unknown (hscope.functions ▸ hf)]
        exact .error _
      | some f =>
        rw [value_call hf, value_call (hscope.functions ▸ hf)]
        exact (Simulated.all hbelow).bind fun vs ws hvs =>
          corresponds_invoke (hscope.blind name f hf) hvs span name
    | composite span es =>
      refine ⟨.error _, fun _ => ?_⟩
      rw [asBase_composite, asBase_composite]
      exact (Simulated.all hbelow).bind fun vs ws hvs => .ok hvs
    | group span inner =>
      have hinner := hbelow inner (by simp [children])
      exact ⟨hinner.value, hinner.base⟩

end Expr

theorem Compiled.evaluate_corresponds {c : Compiled} {bindings bindings' : Bindings}
    (h : Corresponds (Literal.SameOrSpelled n) (c.evaluation bindings).outcome
      (c.evaluation bindings').outcome) :
    Corresponds (Literal.SameOrSpelled n) (c.evaluate bindings) (c.evaluate bindings') := by
  rw [evaluate, evaluate]
  generalize (c.evaluation bindings).outcome = result at h
  generalize (c.evaluation bindings').outcome = result' at h
  cases h with
  | ok h => exact .ok h
  | error flaw => exact .error _

/-- A variable that holds an integer may as well hold the decimal text of it, where the functions are the
standard ones and nothing is indexed but composites and constant texts: both evaluations fail alike, or
both have a value and the values are equal, unless they are that integer and that text themselves. -/
theorem text_for_integer {c : Compiled} (hfunctions : c.functions = Registry.standard)
    (hbases : ∀ span base position, .index span base position ∈ c.expr.nodes →
      base.isLiteralBase)
    (bindings : Bindings) (name : String) (n : Int64) :
    (∃ f, c.evaluate (bindings.insert name (.int n)) = .error f ∧
      c.evaluate (bindings.insert name (.str (Int.repr n.toInt))) = .error f) ∨
    ∃ v w, c.evaluate (bindings.insert name (.int n)) = .ok v ∧
      c.evaluate (bindings.insert name (.str (Int.repr n.toInt))) = .ok w ∧
      (v = w ∨ v = .int n ∧ w = .str (Int.repr n.toInt)) := by
  have hscope : Scope.SameOrSpelled n ⟨bindings.insert name (.int n), c.functions⟩
      ⟨bindings.insert name (.str (Int.repr n.toInt)), c.functions⟩ :=
    { bound := fun other => by
        simp only [NameMap.get_insert]
        split
        · exact .inr ⟨rfl, rfl⟩
        · exact .inl rfl
      functions := rfl
      blind := fun _ _ hf => Function.standard_blind (hfunctions ▸ hf) }
  have hboth := Compiled.evaluate_corresponds (Expr.simulated hscope c.expr hbases).value
  revert hboth
  generalize c.evaluate (bindings.insert name (.int n)) = result
  generalize c.evaluate (bindings.insert name (.str (Int.repr n.toInt))) = result'
  rintro (⟨h⟩ | f)
  · exact .inr ⟨_, _, rfl, rfl, h⟩
  · exact .inl ⟨f, rfl, rfl⟩

def Expr.indexesLiteral : Expr → Bool
  | .index _ base _ => base.isLiteralBase
  | _ => true

/-- An element that is taken out at a position which the variable gives itself. -/
theorem text_for_integer_element :
    ∃ c, Engine.standard.compile "[]lit{max(x, 1.5), x}[x - 1]" = .ok c ∧
      c.evaluate (NameMap.empty.insert "x" (.int 2)) = .ok (.int 2) ∧
      ∃ w, c.evaluate (NameMap.empty.insert "x" (.str "2")) = .ok w ∧
        (Literal.int 2 = w ∨ w = .str "2") := by
  have hrun : (Engine.standard.compile "[]lit{max(x, 1.5), x}[x - 1]").toOption.any (fun c =>
      c.expr.nodes.all Expr.indexesLiteral &&
        decide (c.evaluate (NameMap.empty.insert "x" (.int 2)) = .ok (.int 2))) = true := by
    decide +kernel
  obtain ⟨c, hc, hcheck⟩ := exists_checked hrun
  obtain ⟨hnodes, hvalue⟩ := Bool.and_eq_true_iff.mp hcheck
  have hvalue := of_decide_eq_true hvalue
  have hbases : ∀ span base position, .index span base position ∈ c.expr.nodes →
      base.isLiteralBase := fun _ _ _ hn => List.all_eq_true.mp hnodes _ hn
  have hboth := text_for_integer (Engine.functions_of_compile hc) hbases NameMap.empty "x" 2
  refine ⟨c, hc, hvalue, ?_⟩
  rcases hboth with ⟨f, hf, -⟩ | ⟨v, w, hv, hw, h⟩
  · cases hvalue.symm.trans hf
  · obtain rfl := Except.ok.inj (hvalue.symm.trans hv)
    exact ⟨w, hw, h.imp_right And.right⟩

end Formula
