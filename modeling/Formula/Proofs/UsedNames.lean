import Formula.Proofs.Outcomes
import Formula.Proofs.YieldedValues

namespace Formula

open Evaluation

variable {scope scope' : Scope} {e c : Expr}

/-- Two scopes hold the same under the names that the nodes of a tree use, or both hold nothing. -/
structure Scope.AgreeOn (scope scope' : Scope) (e : Expr) : Prop where
  bound : ∀ span name, .ident span name ∈ e.nodes →
    scope.bindings.get? name = scope'.bindings.get? name
  called : ∀ span name args, .call span name args ∈ e.nodes →
    scope.functions.get? name = scope'.functions.get? name

theorem Scope.AgreeOn.child (h : scope.AgreeOn scope' e) (hc : c ∈ e.children) :
    scope.AgreeOn scope' c where
  bound span name hn := h.bound span name (Expr.mem_nodes_iff.mpr (.inr ⟨c, hc, hn⟩))
  called span name args hn :=
    h.called span name args (Expr.mem_nodes_iff.mpr (.inr ⟨c, hc, hn⟩))

namespace Expr

theorem lookup_congr {span : Span} {name : String}
    (h : scope.bindings.get? name = scope'.bindings.get? name) :
    lookup scope span name = lookup scope' span name := by
  rw [lookup, lookup, h]

theorem evaluateAll_congr {es : List Expr} (h : ∀ e ∈ es, e.value scope = e.value scope') :
    evaluateAll scope es = evaluateAll scope' es := by
  induction es with
  | nil => rfl
  | cons e es ih =>
    obtain ⟨he, hes⟩ := List.forall_mem_cons.mp h
    rw [value, value] at he
    rw [evaluateAll, evaluateAll, he, ih hes]

/-- In scopes that agree on the names of a tree its evaluations are the same, calls and all. -/
theorem evaluate_congr (h : scope.AgreeOn scope' e) (role : Role) :
    e.evaluate scope role = e.evaluate scope' role := by
  induction e using child_induction generalizing role with
  | node e ih =>
    have hbelow : ∀ c ∈ e.children, ∀ role, c.evaluate scope role = c.evaluate scope' role :=
      fun c hc => ih c hc (h.child hc)
    cases e with
    | constant span v => rfl
    | ident span name =>
      have hname := h.bound span name (self_mem_nodes _)
      rw [evaluate, evaluate, lookup_congr hname]
    | unary span op e =>
      have he := hbelow e (by simp [children])
      rw [evaluate, evaluate, he]
    | arith span op l r | compare span op l r | logic span op l r =>
      have hl := hbelow l (by simp [children])
      have hr := hbelow r (by simp [children])
      simp only [evaluate, hl, hr]
    | index span base position =>
      have hbase := hbelow base (by simp [children])
      have hposition := hbelow position (by simp [children])
      simp only [evaluate, hbase, hposition]
    | call span name args =>
      have hname := h.called span name args (self_mem_nodes _)
      have hargs : evaluateAll scope args = evaluateAll scope' args :=
        evaluateAll_congr fun a ha => hbelow a ha .value
      rw [evaluate, evaluate, hname, hargs]
    | composite span es =>
      have hes : evaluateAll scope es = evaluateAll scope' es :=
        evaluateAll_congr fun e he => hbelow e he .value
      cases role with
      | value => rfl
      | base =>
        change (composite span es).asBase scope = (composite span es).asBase scope'
        rw [asBase_composite, asBase_composite, hes]
    | group span inner => exact hbelow inner (by simp [children]) role

end Expr

/-- The same source compiled with other functions is the same tree. -/
theorem Engine.compile_with {limit : Nat} {functions functions' : Registry} {source : String}
    {c : Compiled} (h : (⟨limit, functions⟩ : Engine).compile source = .ok c) :
    (⟨limit, functions'⟩ : Engine).compile source = .ok { c with functions := functions' } := by
  obtain ⟨rfl, hexpr⟩ := Engine.compile_eq_ok h
  have hlimit : Formula.compile limit c.source = .ok c.expr := hexpr
  rw [compile, hlimit]
  rfl

/-- Two registries that are made of registrations in any order, and two bindings: where they agree on the
names that the nodes of a compiled expression use, the last registration of each function being the one
that counts, both evaluations have the same outcome, as a value and as a truth value, and make the same
calls. -/
theorem evaluation_of_used_names {limit : Nat} {functions functions' : List (String × Function)}
    {source : String} {c : Compiled}
    (hc : (⟨limit, NameMap.ofList functions⟩ : Engine).compile source = .ok c)
    {bindings bindings' : Bindings}
    (hbound : ∀ span name, .ident span name ∈ c.expr.nodes →
      bindings.get? name = bindings'.get? name)
    (hcalled : ∀ span name args, .call span name args ∈ c.expr.nodes →
      functions.reverse.lookup name = functions'.reverse.lookup name) :
    ∃ d, (⟨limit, NameMap.ofList functions'⟩ : Engine).compile source = .ok d ∧
      d.evaluate bindings' = c.evaluate bindings ∧
      d.evaluateBool bindings' = c.evaluateBool bindings ∧
      d.calls bindings' = c.calls bindings := by
  have hfunctions : c.functions = NameMap.ofList functions := Engine.functions_of_compile hc
  have hagree : Scope.AgreeOn ⟨bindings, c.functions⟩ ⟨bindings', NameMap.ofList functions'⟩ c.expr :=
    { bound := hbound
      called := fun span name args hn => by
        rw [hfunctions, NameMap.get_ofList, NameMap.get_ofList, hcalled span name args hn] }
  let d : Compiled := { c with functions := NameMap.ofList functions' }
  have hevaluation : d.evaluation bindings' = c.evaluation bindings :=
    (Expr.evaluate_congr hagree .value).symm
  have hevaluate : d.evaluate bindings' = c.evaluate bindings := by
    rw [Compiled.evaluate, Compiled.evaluate, hevaluation]
    rfl
  refine ⟨d, Engine.compile_with hc, hevaluate, ?_, ?_⟩
  · rw [Compiled.evaluateBool, Compiled.evaluateBool, hevaluate]
  · rw [Compiled.calls, Compiled.calls, hevaluation]

def Expr.usesOnly (idents calls : String → Bool) : Expr → Bool
  | .ident _ name => idents name
  | .call _ name _ => calls name
  | _ => true

/-- Registrations in another order, with one that is replaced later, and another variable that the
expression does not name. -/
theorem evaluation_of_used_names_twice :
    let functions := [("f", Function.failing "old"), ("g", .count), ("f", .probe)]
    let functions' := [("h", Function.failing "new"), ("f", .probe), ("g", .failing "other")]
    let bindings := NameMap.ofList [("x", .int 1), ("y", .err "lost")]
    let bindings' := NameMap.ofList [("a", .bool true), ("x", .int 1)]
    ∃ c d, (⟨9, NameMap.ofList functions⟩ : Engine).compile "f(7) > x || z" = .ok c ∧
      (⟨9, NameMap.ofList functions'⟩ : Engine).compile "f(7) > x || z" = .ok d ∧
      c.evaluateBool bindings = .ok true ∧ d.evaluateBool bindings' = .ok true ∧
      d.calls bindings' = c.calls bindings := by
  intro functions functions' bindings bindings'
  have hrun : ((⟨9, NameMap.ofList functions⟩ : Engine).compile "f(7) > x || z").toOption.any
      (fun c => c.expr.nodes.all (Expr.usesOnly (fun name => bindings.get? name = bindings'.get? name) (· = "f")) &&
        decide (c.evaluateBool bindings = .ok true)) = true := by
    decide +kernel
  obtain ⟨c, hc, hcheck⟩ := exists_checked hrun
  obtain ⟨hused, hvalue⟩ := Bool.and_eq_true_iff.mp hcheck
  have hnodes := List.all_eq_true.mp hused
  have hvalue := of_decide_eq_true hvalue
  have hcalled : ∀ span name args, .call span name args ∈ c.expr.nodes →
      functions.reverse.lookup name = functions'.reverse.lookup name := by
    intro span name args hn
    obtain rfl : name = "f" := of_decide_eq_true (hnodes _ hn)
    rfl
  have hbound : ∀ span name, .ident span name ∈ c.expr.nodes →
      bindings.get? name = bindings'.get? name :=
    fun _ _ hn => of_decide_eq_true (hnodes _ hn)
  obtain ⟨d, hd, -, hbool, hcalls⟩ := evaluation_of_used_names hc hbound hcalled
  exact ⟨c, d, hc, hd, hvalue, hbool.trans hvalue, hcalls⟩

end Formula
