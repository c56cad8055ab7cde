import Formula.Expr.OfPhrase
import Mathlib.Tactic.Common

namespace Formula

namespace Expr

def binary (span : Span) : InfixOp.Meaning → Expr → Expr → Expr
  | .arith o, left, right => arith span o left right
  | .compare o, left, right => compare span o left right
  | .logic o, left, right => logic span o left right

/-- A property of all trees is shown node by node. -/
@[elab_as_elim]
theorem tree_induction {P : Expr → Prop}
    (constant : ∀ span value, P (constant span value))
    (ident : ∀ span name, P (ident span name))
    (unary : ∀ span op operand, P operand → P (unary span op operand))
    (binary : ∀ span m left right, P left → P right → P (binary span m left right))
    (index : ∀ span base position, P base → P position → P (index span base position))
    (call : ∀ span name args, (∀ a ∈ args, P a) → P (call span name args))
    (composite : ∀ span elements, (∀ e ∈ elements, P e) → P (composite span elements))
    (group : ∀ span inner, P inner → P (group span inner)) (e : Expr) : P e :=
  @Expr.rec P (fun es => ∀ e ∈ es, P e) constant ident unary
    (fun span o => binary span (.arith o)) (fun span o => binary span (.compare o))
    (fun span o => binary span (.logic o)) index call composite group
    (fun _ h => nomatch h) (fun _ _ he hes => List.forall_mem_cons.mpr ⟨he, hes⟩) e

mutual

def bare : Expr → Expr
  | constant _ value => constant ⟨0, 0⟩ value
  | ident _ name => ident ⟨0, 0⟩ name
  | unary _ o e => unary ⟨0, 0⟩ o e.bare
  | arith _ o l r => arith ⟨0, 0⟩ o l.bare r.bare
  | compare _ o l r => compare ⟨0, 0⟩ o l.bare r.bare
  | logic _ o l r => logic ⟨0, 0⟩ o l.bare r.bare
  | index _ base position => index ⟨0, 0⟩ base.bare position.bare
  | call _ name args => call ⟨0, 0⟩ name (bares args)
  | composite _ elements => composite ⟨0, 0⟩ (bares elements)
  | group _ inner => inner.bare

def bares : List Expr → List Expr
  | [] => []
  | e :: es => e.bare :: bares es

end

theorem bares_eq (es : List Expr) : bares es = es.map bare := by
  induction es with
  | nil => rfl
  | cons e es ih => rw [bares, ih, List.map_cons]

@[simp] theorem bare_binary (span : Span) (m : InfixOp.Meaning) (l r : Expr) :
    (binary span m l r).bare = binary ⟨0, 0⟩ m l.bare r.bare := by
  cases m <;> rfl

theorem ungrouped_bare (e : Expr) : e.ungrouped.bare = e.bare := by
  induction e using tree_induction with
  | group _ _ ih => exact ih
  | binary _ m _ _ _ _ => cases m <;> rfl
  | _ => rfl

theorem ungrouped_ne_group (e : Expr) : ∀ span inner, e.ungrouped ≠ group span inner := by
  induction e using tree_induction with
  | group _ _ ih => exact ih
  | binary _ m _ _ _ _ => cases m <;> exact fun _ _ h => nomatch h
  | _ => exact fun _ _ h => nomatch h

end Expr

namespace Built

/-- The length that a base is known to have is that of its bare tree. -/
theorem constantLength_bare (e : Expr) :
    constantLength? e.ungrouped = constantLength? e.bare := by
  -- Groups around a base are gone on both sides; what is left is no group.
  rw [← Expr.ungrouped_bare]
  cases he : e.ungrouped with
  | constant _ v => cases v <;> rfl
  | composite _ es => simp [Expr.bare, constantLength?, Expr.bares_eq]
  | group span inner => exact absurd he (e.ungrouped_ne_group span inner)
  | _ => rfl

/-- The constant that a position is known to be is that of its bare tree. -/
theorem ungrouped_constant (e : Expr) (v : Literal) :
    (∃ span, e.ungrouped = .constant span v) ↔ e.bare = .constant ⟨0, 0⟩ v := by
  rw [← Expr.ungrouped_bare]
  cases he : e.ungrouped with
  | group span inner => exact absurd he (e.ungrouped_ne_group span inner)
  | _ => simp [Expr.bare]

def Indexable (base position : Expr) : Prop :=
  ∀ length?, constantLength? base = some length? → ∃ length, length? = some length ∧
    ∀ v, position = .constant ⟨0, 0⟩ v → (v.below? length).isSome

theorem indexFault_eq_none (span : Span) (base position : Expr) :
    indexFault? span base position = none ↔ Indexable base.bare position.bare := by
  simp only [indexFault?, constantLength_bare, Indexable, ← ungrouped_constant]
  rcases constantLength? base.bare with _ | _ | length
  · simp
  · simp
  · cases position.ungrouped <;> simp [Option.isSome_iff_ne_none]

end Built

end Formula
