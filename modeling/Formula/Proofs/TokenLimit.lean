import Formula.Proofs.TreePlaces

namespace Formula

open Formula.Parser

theorem Expr.heights_le {n : Nat} {es : List Expr} (h : ∀ e ∈ es, e.height ≤ n) : heights es ≤ n := by
  induction es with
  | nil => exact Nat.zero_le n
  | cons e es ih =>
    obtain ⟨he, hes⟩ := List.forall_mem_cons.mp h
    exact Nat.max_le.mpr ⟨he, ih hes⟩

/-- A node is one level higher than the highest of its parts. -/
theorem Expr.height_le {n : Nat} (e : Expr) (h : ∀ c ∈ e.children, c.height ≤ n) :
    e.height ≤ n + 1 := by
  cases e with
  | constant | ident => exact Nat.le_add_left 1 n
  | call _ _ es | composite _ es => exact Nat.succ_le_succ (heights_le h)
  | _ =>
    simp only [children, List.forall_mem_cons, List.not_mem_nil] at h
    simp only [height]
    omega

variable {limit : Nat} {vars : List Nat} {ts : List Token}

/-- A tree is no higher than the number of the tokens that it stands on. -/
theorem Expr.Stands.height_le {e : Expr} (h : e.Stands limit vars ts) : e.height ≤ ts.length := by
  -- Each part stands on fewer tokens than the whole, and a node adds one level.
  induction e using child_induction generalizing ts with
  | node e ih =>
    have hpos := List.length_pos_iff.mpr h.ne_nil
    cases h with
    | intro _ _ _ _ hchildren =>
      have hle := e.height_le (n := ts.length - 1) fun c hc => by
        obtain ⟨_, us, _, -, hlt, -, hstands⟩ := hchildren.part c hc
        have hcle := ih c hc hstands
        omega
      omega

def Form.longestRun : Form → Nat
  | .phrase _ p => p.longestRun
  | .operand o | .indexed o | .primary o => max o.signCount o.runWithin
  | .phrases ps => Phrase.longestRuns ps
  | .element e => e.longestRun
  | .elements es => Element.longestRuns es
  | .type _ => 0

/-- A run of signs and the operand behind it take as many tokens as the run has levels. -/
theorem spells_run {next : Nat} {ts : List Token} {f : Form} (h : Spells next ts f) :
    runLevels f.longestRun ≤ ts.length := by
  have hzero : runLevels 0 = 0 := rfl
  have hpos {f : Form} {n : Nat} {ts : List Token} (h : Spells n ts f) (hf : ¬ Spells.MayBeEmpty f) :
      0 < ts.length := List.length_pos_iff.mpr (h.ne_nil hf)
  induction h with
  | @signed next ts o op t s ht hs h ih =>
    have hlen := hpos h id
    simp only [Form.longestRun, Operand.runWithin, Operand.signCount, runLevels_max,
      List.length_cons] at ih ⊢
    have hstep : runLevels (o.signCount + 1) ≤ max (runLevels o.signCount) 1 + 1 := by
      simp only [runLevels]
      split_ifs <;> omega
    omega
  | last _ ih | unsigned _ ih | base _ ih | plain _ ih => exact ih
  | _ =>
    simp only [Form.longestRun, Phrase.longestRun, Phrase.longestRuns, Operand.runWithin,
      Operand.signCount, Element.longestRun, Element.longestRuns, runLevels_max, hzero,
      List.length_append, List.length_cons, List.length_nil] at *
    omega

/-- A phrase is built under every limit that reaches the number of its tokens, if it is under any. -/
theorem Phrase.build_of_length {next limit₀ : Nat} {p : Phrase} {b : Built}
    (hspells : Spells next ts (.phrase false p)) (hheight : b.expr.height ≤ ts.length)
    (hbuild : p.build limit₀ = .ok b) (hlength : ts.length ≤ limit) : p.build limit = .ok b := by
  have hgraded := Built.graded_phrase p
  have hhonest : b.height = b.expr.height := hgraded.sound _ _ hbuild
  have hrun := spells_run hspells
  rw [hgraded.exact _ _ hbuild limit, hhonest]
  exact ⟨by omega, Nat.le_trans hrun hlength⟩

end Formula
