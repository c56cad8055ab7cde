import Formula.Proofs.CallOrder
import Formula.Proofs.FiniteNumbers

/-!
The values that evaluations come by. A property of values that every operation establishes, and that
variables and functions keep to, holds of each result and of each argument of a call. So no error is ever
a value, and no infinite number where bindings and functions hold none.
-/

namespace Formula

open Formula.Parser

section Constants

theorem sound_intLiteral {text : List Char} {v : Literal} (h : intLiteral? text = some v) :
    v.Sound := by
  rw [intLiteral?] at h
  dsimp only at h
  split at h
  · obtain rfl := Option.some.inj h
    exact Literal.sound_int _
  · split at h
    · next hfinite =>
      obtain rfl := Option.some.inj h
      exact Literal.sound_float hfinite.2
    · cases h

theorem sound_floatLiteral {text : List Char} {v : Literal} (h : floatLiteral? text = some v) :
    v.Sound := by
  obtain ⟨x, hx, rfl⟩ := Option.map_eq_some_iff.mp h
  exact Literal.sound_float (Binary64.finite_of_text hx)

theorem Atom.sound_value {a : Atom} {v : Literal} (h : a.value? = .ok v) : v.Sound := by
  cases a with
  | name => cases h
  | int text =>
    rw [value?] at h
    split at h
    · next w hw =>
      obtain rfl := Except.ok.inj h
      exact sound_intLiteral hw
    · cases h
  | float text =>
    rw [value?] at h
    split at h
    · next w hw =>
      obtain rfl := Except.ok.inj h
      exact sound_floatLiteral hw
    · cases h
  | rune body | string body =>
    rw [value?] at h
    split at h
    · obtain rfl := Except.ok.inj h
      exact Literal.sound_str _
    · cases h
  | raw body =>
    obtain rfl := Except.ok.inj h
    exact Literal.sound_str _

def Expr.SoundConstant : Expr → Prop
  | .constant _ v => v.Sound
  | _ => True

namespace Built

variable {limit : Nat} {b : Built}

theorem sound_atom {a : Placed Atom} (h : atom limit a = .ok b) : b.expr.SoundConstant := by
  rw [atom] at h
  split at h
  · rw [above_eq_ok h]
    trivial
  · split at h
    · next v hv =>
      rw [above_eq_ok h]
      exact Atom.sound_value hv
    · cases h

theorem sound_sign {op : Placed PrefixOp} {o : Operand} {built : Built}
    (h : sign limit op o built = .ok b) : b.expr.SoundConstant := by
  simp only [sign] at h
  split at h
  · cases h
  · split at h
    · rw [above_eq_ok h]
      exact Literal.sound_int _
    · rw [above_eq_ok h]
      trivial

end Built

variable {limit : Nat} {b : Built}

theorem Operand.sound_build {o : Operand} (h : o.build limit = .ok b) : b.expr.SoundConstant := by
  cases o with
  | atom a =>
    rw [build] at h
    exact Built.sound_atom h
  | group span inner =>
    rw [build] at h
    obtain ⟨_, -, h⟩ := bind_eq_ok.mp h
    rw [Built.above_eq_ok h]
    trivial
  | call span name args =>
    rw [build] at h
    obtain ⟨_, -, h⟩ := bind_eq_ok.mp h
    rw [Built.above_eq_ok h]
    trivial
  | composite span type elements =>
    rw [build] at h
    split at h
    · cases h
    · obtain ⟨_, -, h⟩ := bind_eq_ok.mp h
      rw [Built.above_eq_ok h]
      trivial
  | index base position stop =>
    rw [build] at h
    obtain ⟨_, -, h⟩ := bind_eq_ok.mp h
    obtain ⟨_, -, h⟩ := bind_eq_ok.mp h
    obtain ⟨_, rfl⟩ := Built.index_eq_ok h
    trivial
  | signed op operand =>
    rw [build] at h
    obtain ⟨_, -, h⟩ := bind_eq_ok.mp h
    exact Built.sound_sign h

theorem Phrase.sound_build {q : Phrase} (h : q.build limit = .ok b) : b.expr.SoundConstant := by
  rw [build, assemble] at h
  split at h
  · cases h
  · rw [row_tree] at h
    generalize q.tree = c at h
    cases c with
    | leaf o => exact Operand.sound_build h
    | node l op r =>
      rw [Chain.bimap, Chain.fold_node] at h
      obtain ⟨_, -, h⟩ := bind_eq_ok.mp h
      obtain ⟨_, -, h⟩ := bind_eq_ok.mp h
      obtain ⟨m, _, rfl⟩ := Built.join_eq_ok h
      cases m <;> trivial

/-- The constants of a compiled tree are sound. -/
theorem compile_constants {source : String} {e : Expr} (h : compile limit source = .ok e) :
    ∀ n ∈ e.nodes, n.SoundConstant := by
  intro n hn
  obtain ⟨p, us, -, -, -, hstands⟩ := compile_stands h
  obtain ⟨_, _, _, -, hnode⟩ := hstands.node hn
  cases hnode with
  | intro _ _ hbuild => exact Phrase.sound_build hbuild

end Constants

namespace Evaluation

variable {α β : Type} {Q : Literal → Prop} {P : α → Prop} {R : β → Prop} {x : Evaluation α}

/-- A result has the one property, and the arguments of the calls that lead to it have the other. -/
structure Yields (P : α → Prop) (Q : Literal → Prop) (x : Evaluation α) : Prop where
  result : ∀ a, x.outcome = .ok a → P a
  arguments : ∀ call ∈ x.calls, ∀ v ∈ call.args, Q v

theorem yields_pure {a : α} (h : P a) : Yields P Q (pure a) where
  result _ ha := Except.ok.inj ha ▸ h
  arguments _ hcall := nomatch hcall

theorem yields_fault (span : Span) (kind : FailureKind) : Yields P Q (fault span kind) where
  result _ ha := nomatch ha
  arguments _ hcall := nomatch hcall

theorem yields_operation {span : Span} {y : Except FailureKind α} (h : ∀ a, y = .ok a → P a) :
    Yields P Q (operation span y) := by
  cases y with
  | ok a => exact yields_pure (h a rfl)
  | error kind => exact yields_fault span kind

theorem Yields.bind {f : α → Evaluation β} (hx : Yields P Q x) (hf : ∀ a, P a → Yields R Q (f a)) :
    Yields R Q (x >>= f) where
  result b hb := by
    obtain ⟨a, ha, hb⟩ := outcome_bind_eq_ok.mp hb
    exact (hf a (hx.result a ha)).result b hb
  arguments call hcall := by
    cases hx' : x.outcome with
    | error flaw =>
      rw [calls_bind_error hx'] at hcall
      exact hx.arguments call hcall
    | ok a =>
      rw [calls_bind_ok hx'] at hcall
      rcases List.mem_append.mp hcall with hcall | hcall
      · exact hx.arguments call hcall
      · exact (hf a (hx.result a hx')).arguments call hcall

end Evaluation

theorem Literal.no_error_of_ne {v : Literal} (h : ∀ message, v ≠ .err message) :
    v.errorState = none := by
  cases v with
  | err message => exact (h message rfl).elim
  | _ => rfl

structure Scope.Keeps (scope : Scope) (Q : Literal → Prop) : Prop where
  sound : ∀ v, v.Sound → Q v
  bound : ∀ name v, scope.bindings.get? name = some v → v.errorState = none → Q v
  returned : ∀ name f args v, scope.functions.get? name = some f → (∀ a ∈ args, Q a) →
    f.call args = .ok v → v.errorState = none → Q v

def Base.All (Q : Literal → Prop) : Base → Prop
  | plain v => Q v
  | items vs => ∀ v ∈ vs, Q v

theorem Base.All.get {Q : Literal → Prop} (hstr : ∀ s, Q (.str s)) {b : Base} (h : b.All Q) {n : Nat}
    {v : Literal} (hv : b.get? n = some v) : Q v := by
  cases b with
  | items vs => exact h v (List.mem_of_getElem? hv)
  | plain w =>
    cases w with
    | str s =>
      obtain ⟨_, -, rfl⟩ := Option.map_eq_some_iff.mp hv
      exact hstr _
    | _ => cases hv

def Role.All (Q : Literal → Prop) : (role : Role) → role.Result → Prop
  | value, v => Q v
  | base, b => Base.All Q b

namespace Expr

open Evaluation

variable {scope : Scope} {Q : Literal → Prop} {e : Expr}

def Kept (scope : Scope) (Q : Literal → Prop) (e : Expr) : Prop :=
  ∀ role, Yields (role.All Q) Q (e.evaluate scope role)

theorem Kept.value (h : e.Kept scope Q) : Yields Q Q (e.value scope) := h .value

theorem Kept.base (h : e.Kept scope Q) : Yields (Base.All Q) Q (e.asBase scope) := h .base

theorem kept_of_plain (h : e.Plain) (hvalue : Yields Q Q (e.value scope)) : e.Kept scope Q := by
  intro role
  rw [evaluate_of_plain h]
  refine hvalue.bind fun v hv => yields_pure ?_
  cases role <;> exact hv

theorem Kept.all {es : List Expr} (h : ∀ e ∈ es, e.Kept scope Q) :
    Yields (fun vs => ∀ v ∈ vs, Q v) Q (evaluateAll scope es) := by
  induction es with
  | nil => exact yields_pure fun v hv => nomatch hv
  | cons e es ih =>
    obtain ⟨he, hes⟩ := List.forall_mem_cons.mp h
    rw [evaluateAll]
    refine he.value.bind fun v hv => (ih hes).bind fun vs hvs => yields_pure ?_
    exact List.forall_mem_cons.mpr ⟨hv, hvs⟩

theorem Kept.truth (h : e.Kept scope Q) : Yields (fun _ => True) Q (e.truth scope) :=
  h.value.bind fun _ _ => yields_operation fun _ _ => trivial

theorem yields_lookup (hscope : scope.Keeps Q) (span : Span) (name : String) :
    Yields Q Q (lookup scope span name) := by
  rw [lookup]
  split
  · exact yields_fault _ _
  · exact yields_fault _ _
  · next v hnot hv =>
    exact yields_pure (hscope.bound name v hv (Literal.no_error_of_ne hnot))

theorem yields_invoke (hscope : scope.Keeps Q) {name : String} {f : Function}
    (hf : scope.functions.get? name = some f) (span : Span) {args : List Literal}
    (hargs : ∀ a ∈ args, Q a) : Yields Q Q (invoke span name f args) where
  result v hv := by
    simp only [invoke] at hv
    split at hv
    · cases hv
    · cases hv
    · next w hnot hcall =>
      obtain rfl := Except.ok.inj hv
      exact hscope.returned name f args w hf hargs hcall (Literal.no_error_of_ne hnot)
  arguments call hcall := by
    obtain rfl := List.mem_singleton.mp hcall
    exact hargs

theorem kept_index (hscope : scope.Keeps Q) {span : Span} {base position : Expr}
    (hbase : base.Kept scope Q) (hposition : position.Kept scope Q) :
    (index span base position).Kept scope Q := by
  refine kept_of_plain trivial ?_
  rw [value_index]
  refine hbase.base.bind fun b hb => ?_
  rw [indexable_eq]
  cases hlength : b.length? with
  | none => exact yields_fault _ _
  | some length =>
    refine hposition.value.bind fun p _ => ?_
    cases hn : p.below? length with
    | none =>
      rw [item_of_not_below hlength hn]
      exact yields_fault _ _
    | some n =>
      obtain ⟨v, hv, hitem⟩ := item_of_below hlength hn span position.span
      rw [hitem]
      exact yields_pure (hb.get (fun s => hscope.sound _ (Literal.sound_str s)) hv)

theorem kept_logic (hscope : scope.Keeps Q) {span : Span} {op : LogicOp} {l r : Expr}
    (hl : l.Kept scope Q) (hr : r.Kept scope Q) : (logic span op l r).Kept scope Q := by
  have hbool (b : Bool) : Q (.bool b) := hscope.sound _ (Literal.sound_bool b)
  refine kept_of_plain trivial ?_
  rw [value_logic]
  refine hl.truth.bind fun a _ => ?_
  split
  · exact yields_pure (hbool a)
  · exact hr.truth.bind fun b _ => yields_pure (hbool b)

theorem kept_call (hscope : scope.Keeps Q) {span : Span} {name : String} {args : List Expr}
    (h : ∀ e ∈ args, e.Kept scope Q) : (call span name args).Kept scope Q := by
  refine kept_of_plain trivial ?_
  cases hf : scope.functions.get? name with
  | none =>
    rw [value_call_unknown hf]
    exact yields_fault _ _
  | some f =>
    rw [value_call hf]
    exact (Kept.all h).bind fun vs hvs => yields_invoke hscope hf span hvs

theorem kept_composite {span : Span} {es : List Expr} (h : ∀ e ∈ es, e.Kept scope Q) :
    (composite span es).Kept scope Q := by
  rintro (_ | _)
  · exact yields_fault _ _
  · exact (Kept.all h).bind fun vs hvs => yields_pure hvs

/-- Where the constants of a tree are sound, every value that its evaluation comes by has the
property. -/
theorem kept (hscope : scope.Keeps Q) (e : Expr) (h : ∀ n ∈ e.nodes, n.SoundConstant) :
    e.Kept scope Q := by
  induction e using child_induction with
  | node e ih =>
    have hbelow : ∀ c ∈ e.children, c.Kept scope Q :=
      fun c hc => ih c hc fun n hn => h n (mem_nodes_of_child hc hn)
    cases e with
    | constant span v =>
      refine kept_of_plain trivial ?_
      rw [value_constant]
      exact yields_pure (hscope.sound v (h _ (self_mem_nodes _)))
    | ident span name =>
      refine kept_of_plain trivial ?_
      rw [value_ident]
      exact yields_lookup hscope span name
    | unary span op e =>
      refine kept_of_plain trivial ?_
      rw [value_unary]
      refine (hbelow e (by simp [children])).value.bind fun v _ => yields_operation fun w hw => ?_
      exact hscope.sound w (Literal.sound_unary hw)
    | arith span op l r =>
      refine kept_of_plain trivial ?_
      rw [value_arith]
      refine (hbelow l (by simp [children])).value.bind fun v _ => ?_
      refine (hbelow r (by simp [children])).value.bind fun w _ => yields_operation fun u hu => ?_
      exact hscope.sound u (Literal.sound_arith hu)
    | compare span op l r =>
      refine kept_of_plain trivial ?_
      rw [value_compare]
      refine (hbelow l (by simp [children])).value.bind fun v _ => ?_
      refine (hbelow r (by simp [children])).value.bind fun w _ => ?_
      have hop : Yields (fun _ => True) Q (operation span (Literal.compare op v w)) :=
        yields_operation fun _ _ => trivial
      exact hop.bind fun b _ => yields_pure (hscope.sound _ (Literal.sound_bool b))
    | logic span op l r =>
      exact kept_logic hscope (hbelow l (by simp [children])) (hbelow r (by simp [children]))
    | index span base position =>
      exact kept_index hscope (hbelow base (by simp [children])) (hbelow position (by simp [children]))
    | call span name args => exact kept_call hscope hbelow
    | composite span es => exact kept_composite hbelow
    | group span inner =>
      intro role
      rw [evaluate_group]
      exact hbelow inner (by simp [children]) role

end Expr

/-- Whatever variables hold and functions give back, an error among it is never a value. -/
theorem Scope.keeps_no_error (scope : Scope) : scope.Keeps fun v => v.errorState = none where
  sound _ hv := hv.no_error
  bound _ _ _ hv := hv
  returned _ _ _ _ _ _ _ hv := hv

theorem Scope.keeps_sound {scope : Scope}
    (hbindings : ∀ name v, scope.bindings.get? name = some v → v.Finite)
    (hfunctions : ∀ name f, scope.functions.get? name = some f → f.KeepsFinite) :
    scope.Keeps Literal.Sound where
  sound _ hv := hv
  bound name v hv herror := ⟨herror, hbindings name v hv⟩
  returned name f args v hf hargs hv herror := ⟨herror, hfunctions name f hf args v hargs hv⟩

theorem Engine.functions_of_compile {e : Engine} {source : String} {c : Compiled}
    (h : e.compile source = .ok c) : c.functions = e.functions := by
  rw [compile] at h
  cases hexpr : Formula.compile e.maxDepth source with
  | error f =>
    rw [hexpr] at h
    cases h
  | ok expr =>
    rw [hexpr] at h
    obtain rfl := Except.ok.inj h
    rfl

/-- Whatever errors variables hold and functions give back, no value of a compiled expression is an error
and none is given to a function. Where in addition the floats that variables hold are finite, and the
functions have finite results for finite arguments, every float that is the value or is given to a
function is finite; the standard functions are such functions. -/
theorem values_well_formed {engine : Engine} {source : String} {c : Compiled}
    (hc : engine.compile source = .ok c) (bindings : Bindings) :
    ((∀ v, c.evaluate bindings = .ok v → v.errorState = none) ∧
      ∀ call ∈ c.calls bindings, ∀ a ∈ call.args, a.errorState = none) ∧
    ((∀ name v, bindings.get? name = some v → v.Finite) →
      (∀ name f, c.functions.get? name = some f → f.KeepsFinite) →
        (∀ v, c.evaluate bindings = .ok v → v.Finite) ∧
        ∀ call ∈ c.calls bindings, ∀ a ∈ call.args, a.Finite) ∧
    ∀ name f, Registry.standard.get? name = some f → f.KeepsFinite := by
  have hconstants := compile_constants (Engine.compile_eq_ok hc).2
  have hyields {Q : Literal → Prop} (hscope : Scope.Keeps ⟨bindings, c.functions⟩ Q) :
      Evaluation.Yields Q Q (c.evaluation bindings) :=
    (Expr.kept hscope c.expr hconstants).value
  refine ⟨⟨fun v hv => ?_, ?_⟩, fun hbindings hfunctions => ⟨fun v hv => ?_, ?_⟩,
    fun name f hf => Function.standard_keepsFinite hf⟩
  · exact (hyields (Scope.keeps_no_error _)).result v (Compiled.evaluate_eq_ok.mp hv)
  · exact (hyields (Scope.keeps_no_error _)).arguments
  · have hsound := hyields (Scope.keeps_sound hbindings hfunctions)
    exact (hsound.result v (Compiled.evaluate_eq_ok.mp hv)).finite
  · have hsound := hyields (Scope.keeps_sound hbindings hfunctions)
    exact fun call hcall a ha => (hsound.arguments call hcall a ha).finite

/-- A third of one, rounded by a standard function, beside a variable that holds an error. -/
theorem values_well_formed_of_third :
    ∃ c, Engine.standard.compile "roundto(x / 3, 2)" = .ok c ∧
      (∀ v, c.evaluate (NameMap.ofList [("e", .err "lost"), ("x", .int 1)]) = .ok v →
        v.errorState = none ∧ v.Finite) ∧
      ∀ call ∈ c.calls (NameMap.ofList [("e", .err "lost"), ("x", .int 1)]), ∀ a ∈ call.args,
        a.errorState = none ∧ a.Finite := by
  obtain ⟨c, hc⟩ : ∃ c, Engine.standard.compile "roundto(x / 3, 2)" = .ok c :=
    exists_ok (by decide +kernel)
  have hbindings : ∀ name v, (NameMap.ofList [("e", .err "lost"), ("x", .int 1)]).get? name = some v →
      Literal.Finite v := by
    intro name v hv
    have hmem := NameMap.mem_of_mem_ofList (NameMap.mem_entries_of_get hv)
    rcases List.mem_pair.mp hmem with h | h
    · obtain ⟨-, rfl⟩ := Prod.mk.inj h
      trivial
    · obtain ⟨-, rfl⟩ := Prod.mk.inj h
      trivial
  have hfunctions : ∀ name f, c.functions.get? name = some f → f.KeepsFinite := by
    rw [Engine.functions_of_compile hc]
    exact fun name f hf => Function.standard_keepsFinite hf
  obtain ⟨⟨hvalue, hargs⟩, hfinite, -⟩ :=
    values_well_formed hc (NameMap.ofList [("e", .err "lost"), ("x", .int 1)])
  obtain ⟨hvalue', hargs'⟩ := hfinite hbindings hfunctions
  exact ⟨c, hc, fun v hv => ⟨hvalue v hv, hvalue' v hv⟩,
    fun call hcall a ha => ⟨hargs call hcall a ha, hargs' call hcall a ha⟩⟩

end Formula
