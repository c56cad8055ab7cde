import Formula.Proofs.YieldedValues

namespace Formula

theorem Literal.truth_eq_error {v : Literal} {kind : FailureKind} (hv : v.errorState = none)
    (h : v.truth = .error kind) : kind = .incompatibleTypes ∧ v.asBool = none := by
  cases v with
  | bool b => cases h
  | err message => cases hv
  | int | float | str =>
    obtain rfl := Except.error.inj h
    exact ⟨rfl, rfl⟩

namespace Expr

open Evaluation

variable {scope : Scope} {e c n : Expr} {flaw : Flaw}

inductive Faulty (scope : Scope) (root : Expr) (flaw : Flaw) (n : Expr) : Prop
  | alone (hn : n ∈ root.nodes) (hspan : flaw.span = n.span)
      (hfails : (n.value scope).outcome = .error flaw)
  | position {span base b length p} (hn : index span base n ∈ root.nodes)
      (hflaw : flaw = ⟨.invalidIndex, n.span, none⟩) (hb : (base.asBase scope).outcome = .ok b)
      (hlength : b.length? = some length) (hp : (n.value scope).outcome = .ok p)
      (hout : p.below? length = none)
  | operand {span op left right v} (hn : logic span op left right ∈ root.nodes)
      (hside : n = left ∨ n = right) (hflaw : flaw = ⟨.incompatibleTypes, n.span, none⟩)
      (hv : (n.value scope).outcome = .ok v) (hbool : v.asBool = none)

/-- The fault of a part is a fault of the whole. -/
theorem Faulty.above (h : Faulty scope c flaw n) (hc : c ∈ e.children) : Faulty scope e flaw n := by
  have hnodes {m : Expr} (hm : m ∈ c.nodes) : m ∈ e.nodes := mem_nodes_of_child hc hm
  cases h with
  | alone hn hspan hfails => exact .alone (hnodes hn) hspan hfails
  | position hn hflaw hb hlength hp hout => exact .position (hnodes hn) hflaw hb hlength hp hout
  | operand hn hside hflaw hv hbool => exact .operand (hnodes hn) hside hflaw hv hbool

theorem Faulty.mem (h : Faulty scope e flaw n) : n ∈ e.nodes ∧ flaw.span = n.span := by
  cases h with
  | alone hn hspan _ => exact ⟨hn, hspan⟩
  | @position span base _ _ _ hn hflaw _ _ _ _ =>
    have hchild : n ∈ (index span base n).children := List.mem_pair.mpr (.inr rfl)
    exact ⟨mem_nodes_trans hn (mem_nodes_of_child hchild (self_mem_nodes n)), by rw [hflaw]⟩
  | @operand span op left right _ hn hside hflaw _ _ =>
    have hchild : n ∈ (logic span op left right).children := List.mem_pair.mpr hside
    exact ⟨mem_nodes_trans hn (mem_nodes_of_child hchild (self_mem_nodes n)), by rw [hflaw]⟩

/-- A constant that a tree has been built with is sound, and so no value is an error. -/
theorem no_error_of_value (h : ∀ n ∈ e.nodes, n.SoundConstant) {v : Literal}
    (hv : (e.value scope).outcome = .ok v) : v.errorState = none :=
  (kept scope.keeps_no_error e h).value.result v hv

def Located (scope : Scope) (e : Expr) : Prop :=
  ∀ role flaw, (e.evaluate scope role).outcome = .error flaw → ∃ n, Faulty scope e flaw n

theorem Located.value (h : e.Located scope) (hflaw : (e.value scope).outcome = .error flaw)
    {root : Expr} (he : e ∈ root.children) : ∃ n, Faulty scope root flaw n := by
  obtain ⟨n, hn⟩ := h .value flaw hflaw
  exact ⟨n, hn.above he⟩

theorem Located.base (h : e.Located scope) (hflaw : (e.asBase scope).outcome = .error flaw)
    {root : Expr} (he : e ∈ root.children) : ∃ n, Faulty scope root flaw n := by
  obtain ⟨n, hn⟩ := h .base flaw hflaw
  exact ⟨n, hn.above he⟩

/-- A node that is no base in itself fails on its own wherever it fails at its place. -/
theorem located_of_plain (h : e.Plain)
    (hvalue : ∀ flaw, (e.value scope).outcome = .error flaw →
      flaw.span = e.span ∨ ∃ n, Faulty scope e flaw n) : e.Located scope := by
  intro role flaw hflaw
  rw [evaluate_of_plain h, outcome_bind_eq_error] at hflaw
  rcases hflaw with hflaw | ⟨v, -, hflaw⟩
  · rcases hvalue flaw hflaw with hspan | hbelow
    · exact ⟨e, .alone (self_mem_nodes e) hspan hflaw⟩
    · exact hbelow
  · cases hflaw

/-- An operation on the values of two operands fails as one of them does, or at its own place. -/
theorem Located.operands {l r : Expr} {span : Span} {f : Literal → Literal → Evaluation Literal}
    (hl : l.Located scope) (hr : r.Located scope) (hchildren : e.children = [l, r])
    (hf : ∀ v w, Quiet (f v w) span)
    (hflaw : (l.value scope >>= fun v => r.value scope >>= fun w => f v w).outcome = .error flaw) :
    flaw.span = span ∨ ∃ n, Faulty scope e flaw n := by
  rcases outcome_bind_eq_error.mp hflaw with hflaw | ⟨v, -, hflaw⟩
  · exact .inr (hl.value hflaw (by simp [hchildren]))
  · rcases outcome_bind_eq_error.mp hflaw with hflaw | ⟨w, -, hflaw⟩
    · exact .inr (hr.value hflaw (by simp [hchildren]))
    · exact .inl ((hf v w).fault flaw hflaw)

/-- The truth value of an operand is missing as its value is, or where its value is none. -/
theorem Located.truth {span : Span} {op : LogicOp} {left right : Expr} (h : n.Located scope)
    (hconst : ∀ m ∈ n.nodes, m.SoundConstant) (hside : n = left ∨ n = right)
    (hflaw : (n.truth scope).outcome = .error flaw) :
    ∃ m, Faulty scope (logic span op left right) flaw m := by
  rw [Expr.truth, outcome_bind_eq_error] at hflaw
  rcases hflaw with hflaw | ⟨v, hv, hflaw⟩
  · exact h.value hflaw (List.mem_pair.mpr hside)
  · cases htruth : v.truth with
    | ok b =>
      rw [htruth] at hflaw
      cases hflaw
    | error kind =>
      rw [htruth] at hflaw
      -- No value is an error, so that the operand cannot fail with one that it carries.
      obtain rfl := Except.error.inj hflaw
      obtain ⟨rfl, hbool⟩ := Literal.truth_eq_error (no_error_of_value hconst hv) htruth
      exact ⟨n, .operand (self_mem_nodes _) hside rfl hv hbool⟩

theorem located_logic {span : Span} {op : LogicOp} {l r : Expr} (hl : l.Located scope)
    (hr : r.Located scope) (hconst : ∀ m ∈ (logic span op l r).nodes, m.SoundConstant) :
    (logic span op l r).Located scope := by
  have hbelow : ∀ c ∈ [l, r], ∀ m ∈ c.nodes, m.SoundConstant :=
    fun c hc m hm => hconst m (mem_nodes_of_child hc hm)
  refine located_of_plain trivial fun flaw hflaw => .inr ?_
  rw [value_logic, outcome_bind_eq_error] at hflaw
  rcases hflaw with hflaw | ⟨a, -, hflaw⟩
  · exact hl.truth (hbelow l (by simp)) (.inl rfl) hflaw
  · split at hflaw
    · cases hflaw
    · rcases outcome_bind_eq_error.mp hflaw with hflaw | ⟨b, -, hflaw⟩
      · exact hr.truth (hbelow r (by simp)) (.inr rfl) hflaw
      · cases hflaw

theorem located_index {span : Span} {base position : Expr} (hbase : base.Located scope)
    (hposition : position.Located scope) : (index span base position).Located scope := by
  refine located_of_plain trivial fun flaw hflaw => ?_
  rcases value_index_eq_error.mp hflaw with hflaw | ⟨b, hb, hflaw⟩
  · exact .inr (hbase.base hflaw (by simp [children]))
  · rcases hflaw with ⟨-, rfl⟩ | ⟨length, hlength, hflaw | ⟨p, hp, hout, rfl⟩⟩
    · exact .inl rfl
    · exact .inr (hposition.value hflaw (by simp [children]))
    · exact .inr ⟨position, .position (self_mem_nodes _) rfl hb hlength hp hout⟩

theorem located_of_all {root : Expr} {es : List Expr} (h : ∀ e ∈ es, e.Located scope)
    (hes : ∀ e ∈ es, e ∈ root.children) (hflaw : (evaluateAll scope es).outcome = .error flaw) :
    ∃ n, Faulty scope root flaw n := by
  obtain ⟨e, he, hflaw⟩ := evaluateAll_eq_error hflaw
  exact (h e he).value hflaw (hes e he)

theorem located_call {span : Span} {name : String} {args : List Expr}
    (h : ∀ e ∈ args, e.Located scope) : (call span name args).Located scope := by
  refine located_of_plain trivial fun flaw hflaw => ?_
  cases hf : scope.functions.get? name with
  | none =>
    rw [value_call_unknown hf] at hflaw
    exact .inl (fault_span hflaw)
  | some f =>
    rw [value_call hf, outcome_bind_eq_error] at hflaw
    rcases hflaw with hflaw | ⟨vs, -, hflaw⟩
    · exact .inr (located_of_all h (fun _ he => he) hflaw)
    · exact .inl (invoke_fault hflaw)

theorem located_composite {span : Span} {es : List Expr} (h : ∀ e ∈ es, e.Located scope) :
    (composite span es).Located scope := by
  rintro (_ | _) flaw hflaw
  · exact ⟨_, .alone (self_mem_nodes _) (fault_span hflaw) hflaw⟩
  · have hitems : ((composite span es).asBase scope).outcome = .error flaw := hflaw
    rw [asBase_composite, outcome_bind_eq_error] at hitems
    rcases hitems with hitems | ⟨vs, -, hitems⟩
    · exact located_of_all h (fun _ he => he) hitems
    · cases hitems

/-- Whatever fails does so at one of its nodes. -/
theorem located (e : Expr) (h : ∀ n ∈ e.nodes, n.SoundConstant) : e.Located scope := by
  induction e using child_induction with
  | node e ih =>
    have hbelow : ∀ c ∈ e.children, c.Located scope :=
      fun c hc => ih c hc fun n hn => h n (mem_nodes_of_child hc hn)
    cases e with
    | constant span v =>
      refine located_of_plain trivial fun flaw hflaw => ?_
      rw [value_constant] at hflaw
      cases hflaw
    | ident span name =>
      refine located_of_plain trivial fun flaw hflaw => .inl ?_
      rw [value_ident] at hflaw
      exact lookup_fault hflaw
    | unary span op e =>
      refine located_of_plain trivial fun flaw hflaw => ?_
      rw [value_unary] at hflaw
      rcases outcome_bind_eq_error.mp hflaw with hflaw | ⟨v, -, hflaw⟩
      · exact .inr ((hbelow e (by simp [children])).value hflaw (by simp [children]))
      · exact .inl (operation_fault hflaw)
    | arith span op l r =>
      refine located_of_plain trivial fun flaw hflaw => ?_
      rw [value_arith] at hflaw
      exact (hbelow l (by simp [children])).operands (hbelow r (by simp [children])) rfl
        (fun v w => quiet_operation _) hflaw
    | compare span op l r =>
      refine located_of_plain trivial fun flaw hflaw => ?_
      rw [value_compare] at hflaw
      exact (hbelow l (by simp [children])).operands (hbelow r (by simp [children])) rfl
        (fun v w => (quiet_operation _).map Literal.bool) hflaw
    | logic span op l r =>
      exact located_logic (hbelow l (by simp [children])) (hbelow r (by simp [children])) h
    | index span base position =>
      exact located_index (hbelow base (by simp [children])) (hbelow position (by simp [children]))
    | call span name args => exact located_call hbelow
    | composite span es => exact located_composite hbelow
    | group span inner =>
      intro role flaw hflaw
      rw [evaluate_group] at hflaw
      obtain ⟨n, hn⟩ := hbelow inner (by simp [children]) role flaw hflaw
      exact ⟨n, hn.above (by simp [children])⟩

end Expr

/-- A position is outside where the value is no integer or one that is out of range. -/
theorem Literal.below_eq_none {v : Literal} {length : Nat} (h : v.below? length = none) :
    ∀ i, v.asInt = some i → i.toInt < 0 ∨ length ≤ i.toInt := by
  intro i hi
  rw [below?, hi] at h
  dsimp only at h
  split_ifs at h with hrange
  omega

def Compiled.alone (c : Compiled) (n : Expr) : Compiled := { c with expr := n }

open Formula.Expr in
/-- A failure to evaluate is at the place of one node and of no other. The node alone fails in the very
same way; or it is a position, and alone it has a value that is no integer inside the base; or it is an
operand of a logic operator, and alone it has a value that is no truth value. -/
theorem failure_at_node {engine : Engine} {source : String} {c : Compiled}
    (hc : engine.compile source = .ok c) {bindings : Bindings} {f : Failure}
    (hf : c.evaluate bindings = .error f) :
    ∃ n ∈ c.expr.nodes, f.span = some n.span ∧ (c.expr.nodes.map span).count n.span = 1 ∧
      ((c.alone n).evaluate bindings = .error f ∨
        (f.kind = .invalidIndex ∧ ∃ s base b length p, index s base n ∈ c.expr.nodes ∧
          (base.asBase ⟨bindings, c.functions⟩).outcome = .ok b ∧ b.length? = some length ∧
          (c.alone n).evaluate bindings = .ok p ∧
          ∀ i, p.asInt = some i → i.toInt < 0 ∨ length ≤ i.toInt) ∨
        (f.kind = .incompatibleTypes ∧ ∃ s op left right v,
          logic s op left right ∈ c.expr.nodes ∧ (n = left ∨ n = right) ∧
          (c.alone n).evaluate bindings = .ok v ∧ ∀ b, v ≠ .bool b)) := by
  obtain ⟨-, hcompile⟩ := Engine.compile_eq_ok hc
  obtain ⟨flaw, hflaw, rfl⟩ := Compiled.evaluate_eq_error.mp hf
  obtain ⟨n, hn⟩ := located c.expr (compile_constants hcompile) .value flaw hflaw
  obtain ⟨hmem, hspan⟩ := hn.mem
  have hcount : (c.expr.nodes.map span).count n.span = 1 :=
    List.count_eq_one_of_mem (nodup_spans (compile_placed hcompile)) (List.mem_map_of_mem hmem)
  refine ⟨n, hmem, congrArg some hspan, hcount, ?_⟩
  cases hn with
  | alone _ _ hfails =>
    left
    exact Compiled.evaluate_eq_error.mpr ⟨flaw, hfails, rfl⟩
  | position hindex hkind hb hlength hp hout =>
    right; left
    have halone := Compiled.evaluate_eq_ok (c := c.alone n) |>.mpr hp
    exact ⟨congrArg Flaw.kind hkind, _, _, _, _, _, hindex, hb, hlength, halone,
      Literal.below_eq_none hout⟩
  | operand hlogic hside hkind hv hbool =>
    right; right
    have halone := Compiled.evaluate_eq_ok (c := c.alone n) |>.mpr hv
    refine ⟨congrArg Flaw.kind hkind, _, _, _, _, _, hlogic, hside, halone, ?_⟩
    rintro b rfl
    cases hbool

/-- A position behind the end of a text, below an operator and in parentheses. -/
theorem failure_at_position :
    ∃ c f n, Engine.standard.compile "1 + (\"abc\")[(x)]" = .ok c ∧
      c.evaluate (NameMap.ofList [("x", .int 3)]) = .error f ∧ f.kind = .invalidIndex ∧
      n ∈ c.expr.nodes ∧ f.span = some n.span ∧ n.span = ⟨12, 15⟩ ∧
      (c.expr.nodes.map Expr.span).count n.span = 1 := by
  have hrun : (Engine.standard.compile "1 + (\"abc\")[(x)]").toOption.any (fun c => decide (
      c.evaluate (NameMap.ofList [("x", .int 3)]) =
        .error ⟨"1 + (\"abc\")[(x)]", .invalidIndex, some ⟨12, 15⟩, none⟩)) = true := by
    decide +kernel
  obtain ⟨c, hc, hcheck⟩ := exists_checked hrun
  have hf := of_decide_eq_true hcheck
  obtain ⟨n, hmem, hspan, hcount, -⟩ := failure_at_node hc hf
  exact ⟨c, _, n, hc, hf, rfl, hmem, hspan, (Option.some.inj hspan).symm, hcount⟩

end Formula
