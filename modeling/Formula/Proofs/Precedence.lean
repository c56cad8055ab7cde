import Formula.Expr.Chain
import Mathlib.Order.Lattice
import Mathlib.Tactic.Common

namespace Formula.Chain

variable {ω ω' α β : Type} {precedence : ω → Nat}

def bimap (f : ω → ω') (g : α → β) : Chain ω α → Chain ω' β
  | leaf a => leaf (g a)
  | node left op right => node (left.bimap f g) (f op) (right.bimap f g)

def All (P : α → Prop) : Chain ω α → Prop
  | leaf a => P a
  | node left _ right => left.All P ∧ right.All P

theorem attach_bimap (f : ω → ω') (g : α → β) {precedence' : ω' → Nat}
    (hf : ∀ o, precedence' (f o) = precedence o) (op : ω) (a : α) (c : Chain ω α) :
    attach precedence' (f op) (g a) (c.bimap f g) = (attach precedence op a c).bimap f g := by
  induction c with
  | leaf b => rfl
  | node left o right _ ih =>
    simp only [bimap, attach, hf]
    split_ifs
    · simp only [bimap, ih]
    · rfl

/-- Precedence looks at operators alone. -/
theorem ofRow_bimap (f : ω → ω') (g : α → β) {precedence' : ω' → Nat}
    (hf : ∀ o, precedence' (f o) = precedence o) (first : α) (rest : List (ω × α)) :
    ofRow precedence' (g first) (rest.map fun (op, a) => (f op, g a)) =
      (ofRow precedence first rest).bimap f g := by
  have folded (c : Chain ω α) :
      (rest.map fun (op, a) => (f op, g a)).foldl
        (fun tree (op, operand) => attach precedence' op operand tree) (c.bimap f g) =
      (rest.foldl (fun tree (op, operand) => attach precedence op operand tree) c).bimap f g := by
    induction rest generalizing c with
    | nil => rfl
    | cons pair rest ih =>
      simp only [List.map_cons, List.foldl_cons]
      rw [attach_bimap f g hf, ih]
  exact folded (leaf first)

theorem all_attach (P : α → Prop) (op : ω) (a : α) (c : Chain ω α) :
    (attach precedence op a c).All P ↔ c.All P ∧ P a := by
  induction c with
  | leaf b => rfl
  | node left o right _ ih =>
    simp only [attach]
    split_ifs
    · simp only [All, ih, and_assoc]
    · rfl

theorem all_ofRow (P : α → Prop) (first : α) (rest : List (ω × α)) :
    (ofRow precedence first rest).All P ↔ P first ∧ ∀ pair ∈ rest, P pair.2 := by
  have folded (c : Chain ω α) :
      (rest.foldl (fun tree (op, operand) => attach precedence op operand tree) c).All P ↔
        c.All P ∧ ∀ pair ∈ rest, P pair.2 := by
    induction rest generalizing c with
    | nil => simp
    | cons pair rest ih => simp only [List.foldl_cons, ih, all_attach, List.forall_mem_cons, and_assoc]
  exact folded (leaf first)

def operators (c : Chain ω α) : List ω := c.toRow.2.map Prod.fst

/-- Every operator binds what it joins: on its left operators that bind as tightly, on its right
operators that bind more tightly. -/
def Tight (precedence : ω → Nat) : Chain ω α → Prop
  | leaf _ => True
  | node left op right => left.Tight precedence ∧ right.Tight precedence ∧
      (∀ o ∈ left.operators, precedence op ≤ precedence o) ∧
      ∀ o ∈ right.operators, precedence op < precedence o

/-- The operator at the top of a tree is one of its operators. -/
theorem mem_operators_top (left right : Chain ω α) (op : ω) :
    op ∈ (node left op right).operators := by
  simp [operators, toRow]

/-- Operators that bind more tightly than the one at the top go below it, on its right. -/
theorem foldl_attach_node (left right : Chain ω α) (op : ω) (row : List (ω × α))
    (h : ∀ pair ∈ row, precedence op < precedence pair.1) :
    row.foldl (fun tree (o, a) => attach precedence o a tree) (node left op right) =
      node left op (row.foldl (fun tree (o, a) => attach precedence o a tree) right) := by
  induction row generalizing right with
  | nil => rfl
  | cons pair row ih =>
    obtain ⟨hpair, hrow⟩ := List.forall_mem_cons.mp h
    simp only [List.foldl_cons]
    rw [attach, if_pos hpair, ih _ hrow]

/-- The row of a tree that is bound as precedence demands makes that tree again. -/
theorem ofRow_toRow {c : Chain ω α} (h : c.Tight precedence) :
    ofRow precedence c.toRow.1 c.toRow.2 = c := by
  induction c with
  | leaf a => rfl
  | node left op right ihl ihr =>
    obtain ⟨hl, hr, hleft, hright⟩ := h
    -- Operators on the left bind at least as tightly as the top, which goes above them all; those on
    -- the right bind more tightly and go below it.
    have htop : attach precedence op right.toRow.1 left = node left op (leaf right.toRow.1) := by
      cases left with
      | leaf a => rfl
      | node l o r =>
        have hle := hleft o (mem_operators_top l r o)
        rw [attach, if_neg (by omega)]
    have htail : ∀ pair ∈ right.toRow.2, precedence op < precedence pair.1 :=
      fun pair hpair => hright pair.1 (List.mem_map_of_mem hpair)
    calc
      ofRow precedence left.toRow.1 (left.toRow.2 ++ (op, right.toRow.1) :: right.toRow.2)
        = right.toRow.2.foldl (fun tree (o, a) => attach precedence o a tree)
            (attach precedence op right.toRow.1 (ofRow precedence left.toRow.1 left.toRow.2)) := by
          simp only [ofRow, List.foldl_append, List.foldl_cons]
      _ = right.toRow.2.foldl (fun tree (o, a) => attach precedence o a tree)
            (node left op (leaf right.toRow.1)) := by rw [ihl hl, htop]
      _ = node left op (ofRow precedence right.toRow.1 right.toRow.2) :=
          foldl_attach_node _ _ _ _ htail
      _ = node left op right := by rw [ihr hr]

theorem toRow_attach (op : ω) (a : α) (c : Chain ω α) :
    (attach precedence op a c).toRow = (c.toRow.1, c.toRow.2 ++ [(op, a)]) := by
  induction c with
  | leaf b => rfl
  | node left o right _ ih =>
    simp only [attach]
    split_ifs
    · simp [toRow, ih]
    · simp [toRow]

/-- The tree of a row has the row's operands and operators, in their order. -/
theorem toRow_ofRow (first : α) (rest : List (ω × α)) :
    (ofRow precedence first rest).toRow = (first, rest) := by
  have folded (c : Chain ω α) :
      (rest.foldl (fun tree (op, operand) => attach precedence op operand tree) c).toRow =
        (c.toRow.1, c.toRow.2 ++ rest) := by
    induction rest generalizing c with
    | nil => simp
    | cons pair rest ih => simp [ih, toRow_attach]
  exact folded (leaf first)

theorem operators_node (left right : Chain ω α) (op : ω) :
    (node left op right).operators = left.operators ++ op :: right.operators := by
  simp [operators, toRow]

theorem operators_attach (op : ω) (a : α) (c : Chain ω α) :
    (attach precedence op a c).operators = c.operators ++ [op] := by
  simp [operators, toRow_attach]

/-- An operator that is added on the right leaves a tree bound as precedence demands. -/
theorem tight_attach (op : ω) (a : α) {c : Chain ω α} (h : c.Tight precedence) :
    (attach precedence op a c).Tight precedence := by
  induction c with
  | leaf b => exact ⟨trivial, trivial, by simp [operators, toRow], by simp [operators, toRow]⟩
  | node left o right _ ih =>
    obtain ⟨hl, hr, hleft, hright⟩ := h
    rw [attach]
    by_cases ho : precedence o < precedence op
    · rw [if_pos ho]
      refine ⟨hl, ih hr, hleft, ?_⟩
      rw [operators_attach]
      intro o' ho'
      rcases List.mem_append.mp ho' with ho' | ho'
      · exact hright o' ho'
      · obtain rfl := List.mem_singleton.mp ho'
        exact ho
    · rw [if_neg ho]
      refine ⟨⟨hl, hr, hleft, hright⟩, trivial, ?_, by simp [operators, toRow]⟩
      rw [operators_node]
      intro o' ho'
      rcases List.mem_append.mp ho' with ho' | ho'
      · have hle := hleft o' ho'
        omega
      · rcases List.mem_cons.mp ho' with rfl | ho'
        · omega
        · have hlt := hright o' ho'
          omega

/-- The tree of any row is bound as precedence demands. -/
theorem tight_ofRow (first : α) (rest : List (ω × α)) :
    (ofRow precedence first rest).Tight precedence := by
  have folded (c : Chain ω α) (h : c.Tight precedence) :
      (rest.foldl (fun tree (op, operand) => attach precedence op operand tree) c).Tight
        precedence := by
    induction rest generalizing c with
    | nil => exact h
    | cons pair rest ih => exact ih _ (tight_attach pair.1 pair.2 h)
  exact folded (leaf first) trivial

/-- Joining goes to the left, then to the right, then to the node. -/
theorem fold_node {ε : Type} (join : β → ω → β → Except ε β) (left right : Chain ω (Except ε β))
    (op : ω) : (node left op right).fold join =
      left.fold join >>= fun l => right.fold join >>= join l op := by
  rw [fold]
  cases left.fold join with
  | error e => rfl
  | ok l => cases right.fold join <;> rfl

end Formula.Chain
