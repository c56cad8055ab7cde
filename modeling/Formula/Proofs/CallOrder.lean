import Formula.Proofs.Indexing
import Formula.Proofs.NodeOrder
import Mathlib.Data.List.Nodup

namespace Formula

def Call.Of (c : Call) (n : Expr) : Prop := ∃ args, n = .call c.span c.name args

theorem Call.Of.span {c : Call} {n : Expr} (h : c.Of n) : n.span = c.span := by
  obtain ⟨args, rfl⟩ := h
  rfl

namespace Evaluation

variable {α β : Type} {x : Evaluation α} {f : α → Evaluation β} {row behind kept later : List Expr}
  {span : Span}

/-- A step that calls nothing and fails at one place only. -/
structure Quiet (x : Evaluation α) (span : Span) : Prop where
  calls : x.calls = []
  fault : ∀ flaw, x.outcome = .error flaw → flaw.span = span

theorem Quiet.map (hx : Quiet x span) (g : α → β) : Quiet (x >>= fun a => pure (g a)) span where
  calls := by
    cases h : x.outcome with
    | error flaw => rw [calls_bind_error h, hx.calls]
    | ok a => rw [calls_bind_ok h, hx.calls, calls_pure, List.append_nil]
  fault flaw h := by
    rcases outcome_bind_eq_error.mp h with h | ⟨a, -, h⟩
    · exact hx.fault flaw h
    · exact (pure_no_fault h).elim

theorem quiet_operation (x : Except FailureKind α) : Quiet (operation span x) span where
  calls := calls_operation span x
  fault _ := operation_fault

/-- A fault at a place ends a run through the row at a node there; what was called stands no further
behind. -/
def Stops (row called : List Expr) (span : Span) : Prop :=
  ∃ front n, front ++ [n] <+: row ∧ n.span = span ∧ called.Sublist (front ++ [n])

theorem stops_at_last {n : Expr} (h : kept.Sublist (row ++ [n])) : Stops (row ++ [n]) kept n.span :=
  ⟨row, n, List.prefix_rfl, rfl, h⟩

theorem stops_at_root {e : Expr} (h : kept.Sublist e.postorder) : Stops e.postorder kept e.span := by
  rw [Expr.postorder_eq] at h ⊢
  exact stops_at_last h

theorem Stops.extend (h : Stops row kept span) (behind : List Expr) :
    Stops (row ++ behind) kept span := by
  obtain ⟨front, n, hfront, hspan, hkept⟩ := h
  exact ⟨front, n, hfront.trans (List.prefix_append row behind), hspan, hkept⟩

theorem Stops.sublist (h : Stops row kept span) : kept.Sublist row := by
  obtain ⟨front, n, hfront, -, hkept⟩ := h
  exact hkept.trans hfront.sublist

theorem Stops.after (h : Stops behind later span) (hkept : kept.Sublist row) :
    Stops (row ++ behind) (kept ++ later) span := by
  obtain ⟨front, n, hfront, hspan, hlater⟩ := h
  refine ⟨row ++ front, n, ?_, hspan, ?_⟩
  · rw [List.append_assoc]
    exact (List.prefix_append_right_inj row).mpr hfront
  · rw [List.append_assoc]
    exact hkept.append hlater

/-- Where each node has a place of its own, nothing behind the one that failed was called. -/
theorem Stops.not_called {front back : List Expr} {n : Expr} (h : Stops row kept n.span)
    (hspans : (row.map Expr.span).Nodup) (hrow : row = front ++ n :: back) : ∀ m ∈ back, m ∉ kept := by
  -- The row is split at the node in two ways; as the node is in it once these are the same.
  obtain ⟨front', n', ⟨back', hrow'⟩, hspan, hkept⟩ := h
  rw [List.append_assoc, List.singleton_append] at hrow'
  have hnodup : row.Nodup := hspans.of_map
  have hmem : n ∈ row := by simp [hrow]
  have hmem' : n' ∈ row := by simp [← hrow']
  obtain rfl : n' = n := List.inj_on_of_nodup_map hspans hmem' hmem hspan
  obtain ⟨hnot, -⟩ := List.nodup_cons.mp (List.nodup_middle.mp (hrow' ▸ hnodup))
  obtain ⟨hfront, hback⟩ := not_or.mp (List.mem_append.not.mp hnot)
  obtain ⟨rfl, -, rfl⟩ := (List.append_cons_inj_of_notMem hfront hback).mp (hrow'.trans hrow)
  intro m hm hcalled
  rw [← hrow', List.append_cons] at hnodup
  exact (List.nodup_append.mp hnodup).2.2 m (hkept.subset hcalled) m hm rfl

/-- The evaluation runs through the row: if it succeeds its calls are those of the kept nodes, if it fails
they are those of nodes up to the one that failed. -/
structure Walks (x : Evaluation α) (row kept : List Expr) : Prop where
  ok : ∀ a, x.outcome = .ok a → kept.Sublist row ∧ List.Forall₂ Call.Of x.calls kept
  error : ∀ flaw, x.outcome = .error flaw →
    ∃ called, Stops row called flaw.span ∧ List.Forall₂ Call.Of x.calls called

theorem walks_pure (a : α) : Walks (pure a) row [] where
  ok _ _ := ⟨List.nil_sublist row, .nil⟩
  error _ h := (pure_no_fault h).elim

theorem walks_fault (row : List Expr) (n : Expr) (kind : FailureKind) (kept : List Expr) :
    Walks (fault n.span kind : Evaluation α) (row ++ [n]) kept where
  ok _ h := by cases h
  error flaw h := by
    rw [fault_span h]
    exact ⟨[], stops_at_last (List.nil_sublist _), .nil⟩

theorem walks_quiet {n : Expr} (h : Quiet x n.span) : Walks x [n] [] where
  ok _ _ := ⟨List.nil_sublist _, h.calls ▸ .nil⟩
  error flaw hflaw := by
    rw [h.fault flaw hflaw]
    exact ⟨[], ⟨[], n, List.prefix_rfl, rfl, List.nil_sublist _⟩, h.calls ▸ .nil⟩

theorem walks_invoke (span : Span) (name : String) (args : List Expr) (f : Function)
    (vs : List Literal) :
    Walks (invoke span name f vs) [.call span name args] [.call span name args] where
  ok _ _ := ⟨List.Sublist.refl _, .cons ⟨args, rfl⟩ .nil⟩
  error flaw h := by
    rw [invoke_fault h]
    refine ⟨[.call span name args], ?_, .cons ⟨args, rfl⟩ .nil⟩
    exact ⟨[], .call span name args, List.prefix_rfl, rfl, List.Sublist.refl _⟩

theorem Walks.extend (h : Walks x row kept) (behind : List Expr) :
    Walks x (row ++ behind) kept where
  ok a ha := by
    obtain ⟨hkept, hcalls⟩ := h.ok a ha
    exact ⟨hkept.trans (List.sublist_append_left row behind), hcalls⟩
  error flaw hflaw := by
    obtain ⟨called, hstops, hcalls⟩ := h.error flaw hflaw
    exact ⟨called, hstops.extend behind, hcalls⟩

/-- One step behind the other runs through both rows. -/
theorem Walks.bind (hx : Walks x row kept)
    (hf : ∀ a, x.outcome = .ok a → Walks (f a) behind later) :
    Walks (x >>= f) (row ++ behind) (kept ++ later) where
  ok b hb := by
    obtain ⟨a, ha, hb⟩ := outcome_bind_eq_ok.mp hb
    obtain ⟨hkept, hcalls⟩ := hx.ok a ha
    obtain ⟨hlater, hcalls'⟩ := (hf a ha).ok b hb
    rw [calls_bind_ok ha]
    exact ⟨hkept.append hlater, List.rel_append hcalls hcalls'⟩
  error flaw hflaw := by
    rcases outcome_bind_eq_error.mp hflaw with hflaw | ⟨a, ha, hflaw⟩
    · obtain ⟨called, hstops, hcalls⟩ := hx.error flaw hflaw
      rw [calls_bind_error hflaw]
      exact ⟨called, hstops.extend behind, hcalls⟩
    · obtain ⟨hkept, hcalls⟩ := hx.ok a ha
      obtain ⟨called, hstops, hcalls'⟩ := (hf a ha).error flaw hflaw
      rw [calls_bind_ok ha]
      exact ⟨kept ++ called, hstops.after hkept, List.rel_append hcalls hcalls'⟩

/-- A quiet step that fails at a node of the row with none of the kept nodes behind it. -/
theorem Walks.check (hx : Walks x row kept) (hf : ∀ a, Quiet (f a) span)
    (hstops : kept.Sublist row → Stops row kept span) : Walks (x >>= f) row kept where
  ok b hb := by
    obtain ⟨a, ha, -⟩ := outcome_bind_eq_ok.mp hb
    rw [calls_bind_ok ha, (hf a).calls, List.append_nil]
    exact hx.ok a ha
  error flaw hflaw := by
    rcases outcome_bind_eq_error.mp hflaw with hflaw | ⟨a, ha, hflaw⟩
    · rw [calls_bind_error hflaw]
      exact hx.error flaw hflaw
    · obtain ⟨hkept, hcalls⟩ := hx.ok a ha
      rw [calls_bind_ok ha, (hf a).calls, List.append_nil, (hf a).fault flaw hflaw]
      exact ⟨kept, hstops hkept, hcalls⟩

theorem Walks.map (hx : Walks x row kept) (g : α → β) :
    Walks (x >>= fun a => pure (g a)) row kept := by
  have h : Walks (x >>= fun a => pure (g a)) (row ++ []) (kept ++ []) :=
    hx.bind fun a _ => walks_pure (g a)
  rwa [List.append_nil, List.append_nil] at h

/-- The nodes whose calls were made, whatever came of it. -/
theorem Walks.exists_called (hx : Walks x row kept) :
    ∃ called, called.Sublist row ∧ List.Forall₂ Call.Of x.calls called ∧
      (∀ a, x.outcome = .ok a → called = kept) ∧
      ∀ flaw, x.outcome = .error flaw → Stops row called flaw.span := by
  cases houtcome : x.outcome with
  | ok a =>
    obtain ⟨hkept, hcalls⟩ := hx.ok a houtcome
    exact ⟨kept, hkept, hcalls, fun _ _ => rfl, nofun⟩
  | error flaw =>
    obtain ⟨called, hstops, hcalls⟩ := hx.error flaw houtcome
    exact ⟨called, hstops.sublist, hcalls, nofun, fun _ h => Except.error.inj h ▸ hstops⟩

end Evaluation

namespace Expr

open Evaluation

variable {scope : Scope} {e : Expr}

def settles (scope : Scope) (op : LogicOp) (left : Expr) : Bool :=
  match (left.value scope).outcome with
  | .ok (.bool b) => op.settledBy b
  | _ => false

mutual

/-- The call nodes of a tree from left to right, without those under right operands that are left out. -/
def live (scope : Scope) : Expr → List Expr
  | constant _ _ | ident _ _ => []
  | unary _ _ e | group _ e => e.live scope
  | arith _ _ l r | compare _ _ l r | index _ l r => l.live scope ++ r.live scope
  | logic _ op l r => l.live scope ++ if l.settles scope op then [] else r.live scope
  | call span name args => liveAll scope args ++ [call span name args]
  | composite _ es => liveAll scope es

def liveAll (scope : Scope) : List Expr → List Expr
  | [] => []
  | e :: es => e.live scope ++ liveAll scope es

end

def Walked (scope : Scope) (e : Expr) : Prop :=
  ∀ role, Walks (e.evaluate scope role) e.postorder (e.live scope)

theorem Walked.value (h : e.Walked scope) :
    Walks (e.value scope) e.postorder (e.live scope) := h .value

theorem Walked.base (h : e.Walked scope) :
    Walks (e.asBase scope) e.postorder (e.live scope) := h .base

theorem walked_of_plain (h : e.Plain) (hvalue : Walks (e.value scope) e.postorder (e.live scope)) :
    e.Walked scope := by
  intro role
  rw [evaluate_of_plain h]
  exact hvalue.map role.ofLiteral

theorem Walked.all {es : List Expr} (h : ∀ e ∈ es, e.Walked scope) :
    Walks (evaluateAll scope es) (postorderAll es) (liveAll scope es) := by
  induction es with
  | nil => exact walks_pure []
  | cons e es ih =>
    obtain ⟨he, hes⟩ := List.forall_mem_cons.mp h
    exact he.value.bind fun v _ => (ih hes).map (v :: ·)

/-- An operation on the values of two operands. -/
theorem Walked.operands {l r n : Expr} {f : Literal → Literal → Evaluation Literal}
    (hl : l.Walked scope) (hr : r.Walked scope) (hf : ∀ v w, Quiet (f v w) n.span) :
    Walks (l.value scope >>= fun v => r.value scope >>= fun w => f v w)
      (l.postorder ++ (r.postorder ++ [n])) (l.live scope ++ r.live scope) :=
  hl.value.bind fun v _ => (hr.value.extend [n]).check (hf v) stops_at_last

theorem Walked.truth (h : e.Walked scope) :
    Walks (e.truth scope) e.postorder (e.live scope) :=
  h.value.check (fun v => quiet_operation v.truth) stops_at_root

theorem quiet_lookup (span : Span) (name : String) : Quiet (lookup scope span name) span where
  calls := by
    rw [lookup]
    split <;> rfl
  fault _ := lookup_fault

theorem quiet_item {b : Base} {length : Nat} (h : b.length? = some length) (span positionSpan : Span)
    (p : Literal) : Quiet (item span positionSpan b p) positionSpan := by
  cases hn : p.below? length with
  | none =>
    rw [item_of_not_below h hn]
    exact ⟨rfl, fun _ => fault_span⟩
  | some n =>
    obtain ⟨v, -, hv⟩ := item_of_below h hn span positionSpan
    rw [hv]
    exact ⟨rfl, fun _ hflaw => (pure_no_fault hflaw).elim⟩

theorem settles_eq {op : LogicOp} {left : Expr} {b : Bool} (h : (left.truth scope).outcome = .ok b) :
    left.settles scope op = op.settledBy b := by
  rw [settles, truth_eq_ok.mp h]

theorem walked_unary {span : Span} {op : UnaryOp} (h : e.Walked scope) :
    (unary span op e).Walked scope := by
  refine walked_of_plain trivial ?_
  rw [value_unary]
  exact (h.value.extend [unary span op e]).check (fun v => quiet_operation _) stops_at_last

theorem walked_arith {span : Span} {op : ArithOp} {l r : Expr} (hl : l.Walked scope)
    (hr : r.Walked scope) : (arith span op l r).Walked scope := by
  refine walked_of_plain trivial ?_
  rw [value_arith]
  exact hl.operands (n := arith span op l r) hr fun v w => quiet_operation _

theorem walked_compare {span : Span} {op : CompareOp} {l r : Expr} (hl : l.Walked scope)
    (hr : r.Walked scope) : (compare span op l r).Walked scope := by
  refine walked_of_plain trivial ?_
  rw [value_compare]
  exact hl.operands (n := compare span op l r) hr fun v w => (quiet_operation _).map Literal.bool

theorem walked_index {span : Span} {base position : Expr} (hbase : base.Walked scope)
    (hposition : position.Walked scope) : (index span base position).Walked scope := by
  refine walked_of_plain trivial ?_
  rw [value_index]
  refine hbase.base.bind fun b _ => ?_
  rw [indexable_eq]
  cases hlength : b.length? with
  | none => exact walks_fault position.postorder (index span base position) _ _
  | some length =>
    exact (hposition.value.check (quiet_item hlength span position.span) stops_at_root).extend _

theorem walked_logic {span : Span} {op : LogicOp} {l r : Expr} (hl : l.Walked scope)
    (hr : r.Walked scope) : (logic span op l r).Walked scope := by
  intro role
  rw [evaluate_logic]
  refine hl.truth.bind fun b hb => ?_
  rw [settles_eq hb]
  split
  · exact walks_pure _
  · exact (hr.truth.map _).extend _

theorem walked_call {span : Span} {name : String} {args : List Expr}
    (h : ∀ e ∈ args, e.Walked scope) : (call span name args).Walked scope := by
  refine walked_of_plain trivial ?_
  cases hf : scope.functions.get? name with
  | none =>
    rw [value_call_unknown hf]
    exact walks_fault (postorderAll args) (call span name args) _ _
  | some f =>
    rw [value_call hf]
    exact (Walked.all h).bind fun vs _ => walks_invoke span name args f vs

theorem walked_composite {span : Span} {es : List Expr} (h : ∀ e ∈ es, e.Walked scope) :
    (composite span es).Walked scope := by
  rintro (_ | _)
  · exact walks_fault (postorderAll es) (composite span es) _ _
  · exact ((Walked.all h).map Base.items).extend _

/-- Whatever is evaluated, its calls follow the tree. -/
theorem walked (e : Expr) : e.Walked scope := by
  induction e using tree_induction with
  | constant span v =>
    refine walked_of_plain trivial ?_
    rw [value_constant]
    exact walks_pure v
  | ident span name =>
    refine walked_of_plain trivial ?_
    rw [value_ident]
    exact walks_quiet (n := ident span name) (quiet_lookup span name)
  | unary span op e ih => exact walked_unary ih
  | binary span m l r hl hr =>
    cases m with
    | arith op => exact walked_arith hl hr
    | compare op => exact walked_compare hl hr
    | logic op => exact walked_logic hl hr
  | index span base position hbase hposition => exact walked_index hbase hposition
  | call span name args ih => exact walked_call ih
  | composite span es ih => exact walked_composite ih
  | group span inner ih =>
    intro role
    rw [evaluate_group]
    exact (ih role).extend _

theorem settles_iff {op : LogicOp} {left : Expr} : left.settles scope op = true ↔
    ∃ b, (left.value scope).outcome = .ok (.bool b) ∧ op.settledBy b = true := by
  rw [settles]
  split
  · next b hb => simp [hb]
  · next hno => exact ⟨fun h => (nomatch h), fun ⟨b, hb, _⟩ => (hno b hb).elim⟩

/-- The node is under the right operand of a logic operator whose left operand alone makes the result:
an `and` with false on the left or an `or` with true on the left. -/
def LeftOut (scope : Scope) (root n : Expr) : Prop :=
  ∃ span op left right b, logic span op left right ∈ root.nodes ∧ n ∈ right.nodes ∧
    (left.value scope).outcome = .ok (.bool b) ∧ op.settledBy b = true

def entered (scope : Scope) : Expr → List Expr
  | logic _ op l r => if l.settles scope op then [l] else [l, r]
  | e => e.children

theorem mem_live_of_all {n : Expr} {es : List Expr} :
    n ∈ liveAll scope es ↔ ∃ e ∈ es, n ∈ e.live scope := by
  induction es with
  | nil => simp [liveAll]
  | cons e es ih => simp [liveAll, ih]

theorem mem_live_iff {n e : Expr} : n ∈ e.live scope ↔
    (n = e ∧ ∃ span name args, e = call span name args) ∨
      ∃ c ∈ e.entered scope, n ∈ c.live scope := by
  cases e with
  | logic span op l r =>
    cases h : l.settles scope op <;> simp [live, entered, h]
  | _ => simp [live, entered, children, mem_live_of_all, or_comm]

theorem mem_children_of_entered {c e : Expr} (h : c ∈ e.entered scope) : c ∈ e.children := by
  cases e with
  | logic span op l r =>
    rw [entered] at h
    split at h
    · exact List.mem_cons.mpr (.inl (List.mem_singleton.mp h))
    · exact h
  | _ => exact h

/-- What is not entered is the right operand of a logic operator. -/
theorem logic_of_not_entered {c e : Expr} (hc : c ∈ e.children) (h : c ∉ e.entered scope) :
    ∃ span op left, e = logic span op left c ∧ left.settles scope op = true := by
  cases e with
  | logic span op l r =>
    rw [entered] at h
    split at h
    · next hsettles =>
      rcases List.mem_pair.mp hc with rfl | rfl
      · exact (h List.mem_cons_self).elim
      · exact ⟨span, op, l, rfl, hsettles⟩
    · exact (h hc).elim
  | _ => exact (h hc).elim

theorem mem_nodes_of_live {n e : Expr} (h : n ∈ e.live scope) : n ∈ e.nodes := by
  induction e using child_induction with
  | node e ih =>
    rcases mem_live_iff.mp h with ⟨rfl, -⟩ | ⟨c, hc, hn⟩
    · exact self_mem_nodes n
    · have hchild := mem_children_of_entered hc
      exact mem_nodes_of_child hchild (ih c hchild hn)

/-- A call node that is not live was left out. -/
theorem leftOut_of_not_live {span : Span} {name : String} {args : List Expr}
    (hn : call span name args ∈ e.nodes) (h : call span name args ∉ e.live scope) :
    LeftOut scope e (call span name args) := by
  induction e using child_induction with
  | node e ih =>
    rcases mem_nodes_iff.mp hn with rfl | ⟨c, hc, hbelow⟩
    · exact (h (mem_live_iff.mpr (.inl ⟨rfl, span, name, args, rfl⟩))).elim
    -- Either the child with the node was not entered, or it was and the node was left out further down.
    · by_cases hlive : call span name args ∈ c.live scope
      · have hout : c ∉ e.entered scope := fun hin => h (mem_live_iff.mpr (.inr ⟨c, hin, hlive⟩))
        obtain ⟨s, op, left, rfl, hsettles⟩ := logic_of_not_entered hc hout
        obtain ⟨b, hb, hsettled⟩ := settles_iff.mp hsettles
        exact ⟨s, op, left, c, b, self_mem_nodes _, hbelow, hb, hsettled⟩
      · obtain ⟨s, op, left, right, b, hlogic, hright, hb, hsettled⟩ := ih c hc hbelow hlive
        exact ⟨s, op, left, right, b, mem_nodes_of_child hc hlogic, hright, hb, hsettled⟩

/-- What is live was not left out. -/
theorem not_leftOut_of_live {cs : List Char} {n : Expr} (hplaced : ∀ n ∈ e.nodes, n.Placed cs)
    (h : n ∈ e.live scope) : ¬ LeftOut scope e n := by
  induction e using child_induction with
  | node e ih =>
    rintro ⟨span, op, left, right, b, hlogic, hright, hb, hsettled⟩
    rcases mem_nodes_iff.mp hlogic with rfl | ⟨d, hd, hlogic⟩
    · have hsettles : left.settles scope op = true := settles_iff.mpr ⟨b, hb, hsettled⟩
      have hleft : n ∈ left.live scope := by simpa [live, hsettles] using h
      have hordered := (hplaced _ (self_mem_nodes _)).ordered
      have hapart := List.rel_of_pairwise_cons hordered List.mem_cons_self
      exact span_ne_of_apart hplaced (by simp [children]) (by simp [children]) hapart
        (mem_nodes_of_live hleft) hright rfl
    · have hn : n ∈ d.nodes := by
        refine mem_nodes_trans hlogic (mem_nodes_of_child (c := right) ?_ hright)
        simp [children]
      rcases mem_live_iff.mp h with ⟨rfl, -⟩ | ⟨c, hc, hlive⟩
      · exact span_ne_of_below hplaced hd hn rfl
      · have hchild := mem_children_of_entered hc
        obtain rfl := eq_of_below hplaced hchild hd (mem_nodes_of_live hlive) hn
        refine ih c hd (fun m hm => hplaced m (mem_nodes_of_child hd hm)) hlive ?_
        exact ⟨span, op, left, right, b, hlogic, hright, hb, hsettled⟩

end Expr

/-- The calls of a row of nodes are at their places. -/
theorem spans_of_calls {calls : List Call} {nodes : List Expr} (h : List.Forall₂ Call.Of calls nodes) :
    calls.map Call.span = nodes.map Expr.span := by
  induction h with
  | nil => rfl
  | cons hcall _ ih => rw [List.map_cons, List.map_cons, hcall.span, ih]

open Formula.Expr in
/-- Under any bindings the calls of a compiled expression are those of nodes that follow each other in
its tree, run through from left to right and each node behind those below it, where every node has a
place of its own: no node is called twice. Where there is a value, the call nodes that were not called
are those which a logic operator left out; where a node failed, none behind it was called. -/
theorem calls_in_order {engine : Engine} {source : String} {c : Compiled}
    (hc : engine.compile source = .ok c) (bindings : Bindings) :
    (c.expr.postorder.map span).Nodup ∧ ((c.calls bindings).map Call.span).Nodup ∧
    ∃ invoked : List Expr, invoked.Sublist c.expr.postorder ∧
      List.Forall₂ Call.Of (c.calls bindings) invoked ∧
      (∀ v, c.evaluate bindings = .ok v →
        ∀ s name args, call s name args ∈ c.expr.postorder →
          (call s name args ∉ invoked ↔
            LeftOut ⟨bindings, c.functions⟩ c.expr (call s name args))) ∧
      ∀ f front n back, c.evaluate bindings = .error f → c.expr.postorder = front ++ n :: back →
        f.span = some n.span → ∀ m ∈ back, m ∉ invoked := by
  obtain ⟨-, hcompile⟩ := Engine.compile_eq_ok hc
  have hplaced := compile_placed hcompile
  have hspans : (c.expr.postorder.map span).Nodup :=
    ((postorder_perm c.expr).map span).nodup_iff.mpr (nodup_spans hplaced)
  have hwalk : Evaluation.Walks (c.evaluation bindings) c.expr.postorder _ := (walked c.expr).value
  obtain ⟨invoked, hsub, hcalls, hok, herror⟩ := hwalk.exists_called
  refine ⟨hspans, ?_, invoked, hsub, hcalls, ?_, ?_⟩
  · rw [Compiled.calls, spans_of_calls hcalls]
    exact hspans.sublist (hsub.map span)
  · intro v hv s name args hmem
    rw [hok v (Compiled.evaluate_eq_ok.mp hv)]
    refine ⟨leftOut_of_not_live (mem_postorder.mp hmem), fun hout hlive => ?_⟩
    exact not_leftOut_of_live hplaced hlive hout
  · intro f front n back hf hrow hspan
    obtain ⟨flaw, hflaw, rfl⟩ := Compiled.evaluate_eq_error.mp hf
    have hhere : flaw.span = n.span := Option.some.inj hspan
    exact (hhere ▸ herror flaw hflaw).not_called hspans hrow

open Formula.Expr in
/-- An operand that is left out: of the three calls the last two are made, the inner one first. -/
theorem calls_in_order_sample :
    ∃ c, (⟨60, NameMap.empty.insert "f" Function.probe⟩ : Engine).compile
        "1 > 2 && f(1) || f(f(2)) == 2" = .ok c ∧
      c.evaluate NameMap.empty = .ok (.bool true) ∧
      (c.calls NameMap.empty).map Call.span = [⟨19, 23⟩, ⟨17, 24⟩] ∧
      ∃ invoked : List Expr, invoked.Sublist c.expr.postorder ∧
        List.Forall₂ Call.Of (c.calls NameMap.empty) invoked ∧
        ∀ s name args, call s name args ∈ c.expr.postorder →
          (call s name args ∉ invoked ↔
            LeftOut ⟨NameMap.empty, c.functions⟩ c.expr (call s name args)) := by
  have hrun : ((⟨60, NameMap.empty.insert "f" Function.probe⟩ : Engine).compile
      "1 > 2 && f(1) || f(f(2)) == 2").toOption.any (fun c => decide (
        c.evaluate NameMap.empty = .ok (.bool true) ∧
        (c.calls NameMap.empty).map Call.span = [⟨19, 23⟩, ⟨17, 24⟩])) = true := by
    decide +kernel
  obtain ⟨c, hc, hcheck⟩ := exists_checked hrun
  obtain ⟨hvalue, hspans⟩ := of_decide_eq_true hcheck
  obtain ⟨-, -, invoked, hsub, hcalls, hout, -⟩ := calls_in_order hc NameMap.empty
  exact ⟨c, hc, hvalue, hspans, invoked, hsub, hcalls, hout _ hvalue⟩

end Formula
