import Formula.Proofs.DepthLimit
import Formula.Proofs.GrammarSound

namespace Formula

open Formula.Parser

namespace Phrase

def append : Phrase → Placed InfixOp → Phrase → Phrase
  | last o _, op, second => join o op second
  | join o op' rest, op, second => join o op' (rest.append op second)

theorem operands_append (p : Phrase) (op : Placed InfixOp) (q : Phrase) :
    (p.append op q).operands =
      (p.operands.1, p.operands.2 ++ (op, q.operands.1) :: q.operands.2) := by
  fun_induction append p op q with
  | case1 => rfl
  | case2 o op' rest op q ih =>
    rw [operands, ih]
    rfl

/-- Two phrases with an operator between them are spelled one after the other. -/
theorem spells_append {next : Nat} {ots us : List Token} {op : Placed InfixOp} {q : Phrase}
    (hop : Joins ots us op) (hq : Spells next us (.phrase true q)) :
    ∀ (p : Phrase) (ts : List Token) (joined : Bool), Spells (startOf ots) ts (.phrase joined p) →
      Spells next (ts ++ (ots ++ us)) (.phrase joined (p.append op q))
  | .last o stop, ts, joined, h => by
    cases h with
    | last h => exact .join h hop hq
  | .join o op' rest, ts, joined, h => by
    cases h with
    | @join _ ts ots' vs _ _ _ _ h hop' hr =>
      have hrest := spells_append hop hq rest vs true hr
      have hop'' : Joins ots' (vs ++ (ots ++ us)) op' := (joins_append_iff (hr.ne_nil id)).mpr hop'
      rw [List.append_assoc, List.append_assoc]
      exact .join h hop'' hrest

inductive Rows (P : Nat → List Token → Operand → Prop) : Nat → List Token → Phrase → Prop
  | last {next ts o stop} (h : P next ts o) : Rows P next ts (.last o stop)
  | join {next ts ots us o op rest} (h : P (startOf ots) ts o) (hop : Joins ots us op)
      (hr : Rows P next us rest) : Rows P next (ts ++ (ots ++ us)) (.join o op rest)

end Phrase

namespace Chain

inductive Rows (P : Nat → List Token → Operand → Prop) :
    Nat → List Token → Chain (Placed InfixOp) Operand → Prop
  | leaf {next ts o} (h : P next ts o) : Rows P next ts (.leaf o)
  | node {next ts ots us l op r} (hl : Rows P (startOf ots) ts l) (hop : Joins ots us op)
      (hr : Rows P next us r) : Rows P next (ts ++ (ots ++ us)) (.node l op r)

variable {P Q : Nat → List Token → Operand → Prop}

theorem Rows.mono (h : ∀ next ts o, P next ts o → Q next ts o) {next : Nat} {ts : List Token}
    {c : Chain (Placed InfixOp) Operand} (hc : Rows P next ts c) : Rows Q next ts c := by
  induction hc with
  | leaf ho => exact .leaf (h _ _ _ ho)
  | node _ hop _ ihl ihr => exact .node ihl hop ihr

theorem Rows.all {R : Operand → Prop} (h : ∀ next ts o, P next ts o → R o) {next : Nat}
    {ts : List Token} {c : Chain (Placed InfixOp) Operand} (hc : Rows P next ts c) : c.All R := by
  induction hc with
  | leaf ho => exact h _ _ _ ho
  | node _ _ _ ihl ihr => exact ⟨ihl, ihr⟩

variable (hP : ∀ next ts o, P next ts o → ts ≠ [])

include hP in
theorem Rows.ne_nil {next : Nat} {ts : List Token} {c : Chain (Placed InfixOp) Operand}
    (h : Rows P next ts c) : ts ≠ [] := by
  induction h with
  | leaf ho => exact hP _ _ _ ho
  | node _ _ _ ihl _ => exact List.append_ne_nil_of_left_ne_nil ihl _

include hP in
/-- An operand behind a tree takes its own row, wherever in the tree it goes. -/
theorem rows_attach (precedence : Placed InfixOp → Nat) {next : Nat} {ts ots us : List Token}
    {op : Placed InfixOp} {o : Operand} {c : Chain (Placed InfixOp) Operand}
    (hc : Rows P (startOf ots) ts c) (hop : Joins ots us op) (ho : P next us o) :
    Rows P next (ts ++ (ots ++ us)) (attach precedence op o c) := by
  induction c generalizing ts with
  | leaf a => exact .node hc hop (.leaf ho)
  | node l o' r _ ih =>
    rw [attach]
    split_ifs with hlt
    · cases hc with
      | @node _ ts ots' vs _ _ _ hl hop' hr =>
        have hright := ih hr
        have hop'' : Joins ots' (vs ++ (ots ++ us)) o' :=
          (joins_append_iff (Rows.ne_nil hP hr)).mpr hop'
        rw [List.append_assoc, List.append_assoc]
        exact .node hl hop'' hright
    · exact .node hc hop (.leaf ho)

end Chain

namespace Phrase

variable {P : Nat → List Token → Operand → Prop}

/-- The tree of a phrase has the rows of its operands. -/
theorem Rows.tree (hP : ∀ next ts o, P next ts o → ts ≠ []) {next : Nat} {ts : List Token}
    {p : Phrase} (h : Rows P next ts p) : Chain.Rows P next ts p.tree := by
  -- Any tree of the operands before goes on with those of the phrase.
  have goOn : ∀ {next us} {q : Phrase}, Rows P next us q → ∀ {ts ots op c},
      Chain.Rows P (startOf ots) ts c → Joins ots us op →
        Chain.Rows P next (ts ++ (ots ++ us))
          (((op, q.operands.1) :: q.operands.2).foldl
            (fun tree pair => Chain.attach (fun op => op.value.precedence) pair.1 pair.2 tree) c) := by
    intro next us q hq
    induction hq with
    | last ho =>
      intro ts ots op c hc hop
      exact Chain.rows_attach hP _ hc hop ho
    | @join ts' ots' us' o op' rest ho hop' _ ih =>
      intro ts ots op c hc hop
      have hop'' : Joins ots ts' op := (joins_append_iff (hP _ _ _ ho)).mp hop
      have hrest := ih (Chain.rows_attach hP (fun op => op.value.precedence) hc hop'' ho) hop'
      simpa [operands] using hrest
  cases h with
  | last ho => exact .leaf ho
  | join ho hop hr => exact goOn hr (.leaf ho) hop

end Phrase

/-- A tree of spelled operands is spelled by a phrase, which has the operands of the tree. -/
theorem Chain.Rows.spelled {next : Nat} {ts : List Token} {c : Chain (Placed InfixOp) Operand}
    (h : Rows (fun next ts o => Spells next ts (.operand o)) next ts c) (joined : Bool) :
    ∃ q : Phrase, Spells next ts (.phrase joined q) ∧ q.operands = c.toRow := by
  induction h generalizing joined with
  | leaf ho => exact ⟨_, .last ho, rfl⟩
  | node _ hop _ ihl ihr =>
    obtain ⟨p, hp, hleft⟩ := ihl joined
    obtain ⟨q, hq, hright⟩ := ihr true
    refine ⟨p.append _ q, Phrase.spells_append hop hq p _ joined hp, ?_⟩
    rw [Phrase.operands_append, hleft, hright, Chain.toRow]

end Formula
