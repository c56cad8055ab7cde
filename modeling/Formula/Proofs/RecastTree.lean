import Formula.Proofs.BareTree
import Formula.Proofs.Recast

namespace Formula

variable (r : Recast)

namespace Expr

theorem recastAll_eq (es : List Expr) : recastAll r es = es.map (recast r) := by
  induction es with
  | nil => rfl
  | cons e es ih => rw [recastAll, ih, List.map_cons]

theorem span_recast (e : Expr) : (e.recast r).span = r.span e.span := by
  cases e <;> rfl

theorem ungrouped_recast (e : Expr) : (e.recast r).ungrouped = e.ungrouped.recast r := by
  induction e using tree_induction with
  | group _ _ ih => exact ih
  | binary _ m _ _ _ _ => cases m <;> rfl
  | _ => rfl

end Expr

section Outcomes

variable {α β γ δ : Type} {f : α → β} {g : γ → δ} {x : Except Flaw α} {y : Except Flaw β}

/-- One outcome is another one changed: where that fails it fails as well, and else its result is the other
one's, changed. -/
def Changed (f : α → β) (x : Except Flaw α) (y : Except Flaw β) : Prop := y.toOption = x.toOption.map f

theorem changed_ok (f : α → β) (a : α) : Changed f (.ok a) (.ok (f a)) := rfl

theorem changed_error (f : α → β) (e e' : Flaw) : Changed f (.error e) (.error e') := rfl

theorem Changed.ok (h : Changed f x y) {a : α} (ha : x = .ok a) : y = .ok (f a) := by
  subst ha
  cases y with
  | error e => cases h
  | ok b => exact congrArg _ (Option.some.inj h)

theorem Changed.exists_ok (h : Changed f x y) {b : β} (hb : y = .ok b) : ∃ a, x = .ok a ∧ f a = b := by
  subst hb
  cases x with
  | error e => cases h
  | ok a => exact ⟨a, rfl, (Option.some.inj h).symm⟩

theorem Changed.bind {k : α → Except Flaw γ} {l : β → Except Flaw δ} (h : Changed f x y)
    (hk : ∀ a, Changed g (k a) (l (f a))) : Changed g (x >>= k) (y >>= l) := by
  cases x with
  | error e =>
    cases y with
    | error e' => rfl
    | ok b => cases h
  | ok a =>
    obtain rfl := h.ok rfl
    exact hk a

/-- Of two faults that are missing together, one is there where the other one is. -/
theorem fault_of_iff {a b : Option Flaw} (h : b = none ↔ a = none) {e : Flaw} (ha : a = some e) :
    ∃ e', b = some e' :=
  Option.ne_none_iff_exists'.mp fun hb => Option.some_ne_none e (ha.symm.trans (h.mp hb))

end Outcomes

namespace Built

def recast (b : Built) : Built := ⟨b.expr.recast r, b.height⟩

variable {r} {limit : Nat}

theorem above_recast (e : Expr) (below : Nat) :
    Changed (recast r) (above limit e below) (above limit (e.recast r) below) := by
  simp only [above]
  split_ifs <;> rfl

theorem constantLength_recast (e : Expr) : constantLength? (e.recast r) = constantLength? e := by
  cases e with
  | constant _ v => cases v <;> rfl
  | composite _ es => simp [Expr.recast, constantLength?, Expr.recastAll_eq]
  | _ => rfl

/-- Whether an index can succeed does not depend on where it stands. -/
theorem indexFault_recast (span : Span) (base position : Expr) :
    indexFault? (r.span span) (base.recast r) (position.recast r) = none ↔
      indexFault? span base position = none := by
  simp only [indexFault?, Expr.ungrouped_recast, constantLength_recast]
  -- Nothing but the length of a constant base and a constant position is looked at.
  rcases constantLength? base.ungrouped with _ | _ | length
  · rfl
  · exact iff_of_false (Option.some_ne_none _) (Option.some_ne_none _)
  · cases position.ungrouped with
    | constant s v =>
      simp only [Expr.recast]
      split_ifs <;> simp
    | _ => rfl

theorem index_recast (base position : Built) (stop : Nat) : Changed (recast r)
    (index limit base position stop) (index limit (base.recast r) (position.recast r) (r.place stop)) := by
  have hspan : (⟨(base.recast r).expr.span.start, r.place stop⟩ : Span) =
      r.span ⟨base.expr.span.start, stop⟩ := by
    rw [recast, Expr.span_recast]
    rfl
  have hfault := indexFault_recast (r := r) ⟨base.expr.span.start, stop⟩ base.expr position.expr
  simp only [index, hspan]
  cases hold : indexFault? ⟨base.expr.span.start, stop⟩ base.expr position.expr with
  | none =>
    simp only [recast, hfault.mpr hold]
    exact above_recast _ _
  | some flaw =>
    obtain ⟨flaw', hnew⟩ := fault_of_iff hfault hold
    simp only [recast, hnew]
    exact changed_error _ _ _

theorem literal_recast {a : Atom} (ha : ∀ text, a ≠ .name text) (span : Span) :
    Changed (recast r) (atom limit ⟨a, span⟩) (atom limit ⟨a, r.span span⟩) := by
  cases a with
  | name text => exact absurd rfl (ha text)
  | _ =>
    simp only [atom]
    split
    · exact above_recast _ _
    · exact changed_error _ _ _

theorem atom_recast (a : Placed Atom) : Changed (recast r) (atom limit a) (atom limit (r.atom a)) := by
  obtain ⟨value, span⟩ := a
  cases value with
  | name text =>
    have hident : (Expr.ident span (String.ofList text)).recast r =
        .ident (r.span span) (String.ofList (r.name span.start text)) := by
      rw [Expr.recast, String.toList_ofList]
    have habove : Changed (recast r) (above limit (.ident span (String.ofList text)) 0) _ := above_recast _ 0
    rwa [hident] at habove
  | _ =>
    refine literal_recast (fun text h => ?_) span
    cases h

/-- Whether a sign makes the least integer of its operand does not depend on where it stands. -/
theorem sign_recast (op : Placed PrefixOp) (o : Operand) (built : Built) : Changed (recast r)
    (sign limit op o built) (sign limit (r.op op) (o.recast r) (built.recast r)) := by
  have hspan : (r.op op).span.cover (built.recast r).expr.span =
      r.span (op.span.cover built.expr.span) := by
    rw [recast, Expr.span_recast]
    rfl
  simp only [sign, hspan]
  simp only [Recast.op]
  cases op.value.meaning? with
  | none => exact changed_error _ _ _
  | some o' =>
    cases o' with
    | not => cases o <;> exact above_recast _ _
    | neg =>
      cases o with
      | atom a =>
        obtain ⟨value, span⟩ := a
        cases value with
        | int text =>
          simp only [Operand.recast, Recast.atom]
          cases negatedInt? text <;> exact above_recast _ _
        | _ => exact above_recast _ _
      | _ => exact above_recast _ _

theorem join_recast (left : Built) (op : Placed InfixOp) (right : Built) : Changed (recast r)
    (join limit left op right) (join limit (left.recast r) (r.op op) (right.recast r)) := by
  have hspan : (left.recast r).expr.span.cover (right.recast r).expr.span =
      r.span (left.expr.span.cover right.expr.span) := by
    rw [recast, recast, Expr.span_recast, Expr.span_recast]
    rfl
  simp only [join, hspan]
  simp only [Recast.op]
  split
  case h_4 => exact changed_error _ _ _
  all_goals exact above_recast _ _

theorem highest_recast (bs : List Built) : highest (bs.map (recast r)) = highest bs := by
  induction bs with
  | nil => rfl
  | cons b bs ih =>
    rw [List.map_cons, highest_cons, highest_cons, ih]
    rfl

theorem exprs_recast (bs : List Built) :
    (bs.map (recast r)).map (·.expr) = Expr.recastAll r (bs.map (·.expr)) := by
  rw [Expr.recastAll_eq, List.map_map, List.map_map]
  rfl

theorem typeFault_recast (t : TypeExpr) : typeFault? (t.recast r) = none ↔ typeFault? t = none := by
  cases t with
  | slice _ element | array _ _ element | openArray _ element =>
    cases element with
    | name span text =>
      simp only [TypeExpr.recast, typeFault?]
      split_ifs <;> simp
    | _ => exact iff_of_false (Option.some_ne_none _) (Option.some_ne_none _)
  | _ => exact iff_of_false (Option.some_ne_none _) (Option.some_ne_none _)

end Built

section Phrase

variable {r} {limit : Nat}

theorem Operand.signCount_recast (o : Operand) : (o.recast r).signCount = o.signCount := by
  induction o using Operand.signCount.induct with
  | case1 op operand ih => exact congrArg (· + 1) ih
  | case2 o hne =>
    cases o with
    | signed op operand => exact absurd rfl (hne op operand)
    | _ => rfl

theorem Phrase.operands_recast (p : Phrase) : (p.recast r).operands =
    (p.operands.1.recast r, p.operands.2.map fun (op, o) => (r.op op, o.recast r)) := by
  induction p using row_induction with
  | last o stop => rfl
  | join o op rest ih =>
    rw [recast, operands, ih]
    rfl

/-- Precedence does not look at places. -/
theorem Phrase.tree_recast (p : Phrase) :
    (p.recast r).tree = p.tree.bimap r.op (Operand.recast r) := by
  rw [tree, operands_recast]
  exact Chain.ofRow_bimap r.op (Operand.recast r) (fun _ => rfl) _ _

def Operand.BuiltAlike (r : Recast) (limit : Nat) (o : Operand) : Prop :=
  Changed (Built.recast r) (o.build limit) ((o.recast r).build limit)

theorem Chain.fold_recast {c : Chain (Placed InfixOp) Operand} (hall : c.All fun o => o.BuiltAlike r limit) :
    Changed (Built.recast r) ((c.bimap id fun o => o.build limit).fold (Built.join limit))
      (((c.bimap r.op (Operand.recast r)).bimap id fun o => o.build limit).fold (Built.join limit)) := by
  induction c with
  | leaf o => exact hall
  | node left op right ihl ihr =>
    simp only [bimap, fold_node]
    exact (ihl hall.1).bind fun x => (ihr hall.2).bind fun y => Built.join_recast x op y

theorem Phrase.runFault_recast (p : Phrase) : (p.recast r).runFault? limit = none ↔ p.runFault? limit = none := by
  rw [runFault_eq_none, runFault_eq_none, AllOperands, AllOperands, operands_recast]
  simp only [Operand.signCount_recast, List.forall_mem_map]

theorem Phrase.assemble_recast {p : Phrase} (hall : p.AllOperands fun o => o.BuiltAlike r limit) :
    Changed (Built.recast r) (p.assemble limit (p.row limit))
      ((p.recast r).assemble limit ((p.recast r).row limit)) := by
  have hruns : (p.recast r).runFault? limit = none ↔ p.runFault? limit = none := runFault_recast p
  rw [assemble, assemble]
  cases hold : p.runFault? limit with
  | none =>
    rw [row_tree, row_tree, hruns.mpr hold, tree_recast]
    exact Chain.fold_recast ((Chain.all_ofRow _ _ _).mpr hall)
  | some flaw =>
    obtain ⟨flaw', hnew⟩ := fault_of_iff hruns hold
    rw [hnew]
    exact changed_error _ _ _

end Phrase

mutual

theorem Phrase.build_operands_recast {r : Recast} {limit : Nat} : ∀ p : Phrase,
    p.AllOperands fun o => o.BuiltAlike r limit
  | .last o _ => ⟨Operand.build_recast o, fun _ h => nomatch h⟩
  | .join o _ rest =>
    Phrase.allOperands_join.mpr ⟨Operand.build_recast o, Phrase.build_operands_recast rest⟩

/-- The changed operand is built to the changed tree. -/
theorem Operand.build_recast {r : Recast} {limit : Nat} : ∀ o : Operand, o.BuiltAlike r limit
  | .atom a => Built.atom_recast a
  | .group span inner => by
    rw [Operand.BuiltAlike, Operand.recast, Operand.build, Operand.build]
    exact (Phrase.assemble_recast (Phrase.build_operands_recast inner)).bind fun x => Built.above_recast _ _
  | .call span name args => by
    rw [Operand.BuiltAlike, Operand.recast, Operand.build, Operand.build]
    refine (Phrase.buildAll_recast args).bind fun xs => ?_
    rw [Built.highest_recast, Built.exprs_recast]
    exact Built.above_recast _ _
  | .composite span type elements => by
    have htype := Built.typeFault_recast (r := r) type
    rw [Operand.BuiltAlike, Operand.recast, Operand.build, Operand.build]
    cases hold : Built.typeFault? type with
    | none =>
      simp only [htype.mpr hold]
      refine (Element.buildAll_recast elements).bind fun xs => ?_
      rw [Built.highest_recast, Built.exprs_recast]
      exact Built.above_recast _ _
    | some flaw =>
      obtain ⟨flaw', hnew⟩ := fault_of_iff htype hold
      simp only [hnew]
      exact changed_error _ _ _
  | .index base position stop => by
    rw [Operand.BuiltAlike, Operand.recast, Operand.build, Operand.build]
    refine Changed.bind (Operand.build_recast base) fun x => ?_
    exact (Phrase.assemble_recast (Phrase.build_operands_recast position)).bind fun y => Built.index_recast x y stop
  | .signed op operand => by
    rw [Operand.BuiltAlike, Operand.recast, Operand.build, Operand.build]
    exact Changed.bind (Operand.build_recast operand) fun x => Built.sign_recast op operand x

theorem Phrase.buildAll_recast {r : Recast} {limit : Nat} : ∀ ps : List Phrase,
    Changed (List.map (Built.recast r)) (Phrase.buildAll limit ps)
      (Phrase.buildAll limit (Phrase.recastAll r ps))
  | [] => changed_ok _ []
  | p :: ps => by
    rw [Phrase.recastAll, Phrase.buildAll, Phrase.buildAll]
    refine (Phrase.assemble_recast (Phrase.build_operands_recast p)).bind fun x => ?_
    exact (Phrase.buildAll_recast ps).bind fun xs => changed_ok _ (x :: xs)

theorem Element.buildAll_recast {r : Recast} {limit : Nat} : ∀ es : List Element,
    Changed (List.map (Built.recast r)) (Element.buildAll limit es)
      (Element.buildAll limit (Element.recastAll r es))
  | [] => changed_ok _ []
  | .keyed span key value :: es => changed_error _ _ _
  | .plain value :: es => by
    rw [Element.recastAll, Element.buildAll, Element.buildAll, Element.recast, Element.build, Element.build]
    refine (Phrase.assemble_recast (Phrase.build_operands_recast value)).bind fun x => ?_
    exact (Element.buildAll_recast es).bind fun xs => changed_ok _ (x :: xs)

end

/-- The changed phrase is built just if the phrase is, under the same limit, and to the changed tree. -/
theorem Phrase.build_changed (r : Recast) (limit : Nat) (p : Phrase) :
    Changed (Built.recast r) (p.build limit) ((p.recast r).build limit) :=
  Phrase.assemble_recast (Phrase.build_operands_recast p)

/-- The changed phrase is built to the changed tree, under the same limit. -/
theorem Phrase.build_recast {r : Recast} {limit : Nat} {p : Phrase} {b : Built}
    (h : p.build limit = .ok b) : (p.recast r).build limit = .ok (b.recast r) :=
  (p.build_changed r limit).ok h

end Formula
