import Formula.Proofs.FailurePlaces
import Mathlib.Data.List.Pairwise

namespace Formula

namespace Expr

mutual

def postorder : Expr → List Expr
  | constant span v => [constant span v]
  | ident span name => [ident span name]
  | unary span op e => e.postorder ++ [unary span op e]
  | arith span op l r => l.postorder ++ (r.postorder ++ [arith span op l r])
  | compare span op l r => l.postorder ++ (r.postorder ++ [compare span op l r])
  | logic span op l r => l.postorder ++ (r.postorder ++ [logic span op l r])
  | index span base position =>
    base.postorder ++ (position.postorder ++ [index span base position])
  | call span name args => postorderAll args ++ [call span name args]
  | composite span elements => postorderAll elements ++ [composite span elements]
  | group span inner => inner.postorder ++ [group span inner]

def postorderAll : List Expr → List Expr
  | [] => []
  | e :: es => e.postorder ++ postorderAll es

end

theorem postorder_eq (e : Expr) : e.postorder = postorderAll e.children ++ [e] := by
  cases e <;> simp [postorder, postorderAll, children]

theorem nodes_eq (e : Expr) : e.nodes = e :: nodesOfAll e.children := by
  cases e <;> simp [nodes, nodesOfAll, children]

theorem postorderAll_perm {es : List Expr} (h : ∀ e ∈ es, e.postorder.Perm e.nodes) :
    (postorderAll es).Perm (nodesOfAll es) := by
  induction es with
  | nil => exact .nil
  | cons e es ih =>
    obtain ⟨he, hes⟩ := List.forall_mem_cons.mp h
    exact he.append (ih hes)

/-- Both orders run through the same nodes. -/
theorem postorder_perm (e : Expr) : e.postorder.Perm e.nodes := by
  induction e using child_induction with
  | node e ih =>
    rw [postorder_eq, nodes_eq]
    exact (List.perm_append_singleton _ _).trans ((postorderAll_perm ih).cons e)

theorem mem_postorder {n e : Expr} : n ∈ e.postorder ↔ n ∈ e.nodes := (postorder_perm e).mem_iff

/-- What is below a child is below the node. -/
theorem mem_nodes_of_child {n c e : Expr} (hc : c ∈ e.children) (hn : n ∈ c.nodes) : n ∈ e.nodes :=
  mem_nodes_iff.mpr (.inr ⟨c, hc, hn⟩)

/-- What is below a node of a tree is below the tree. -/
theorem mem_nodes_trans {n m e : Expr} (hm : m ∈ e.nodes) (hn : n ∈ m.nodes) : n ∈ e.nodes := by
  induction e using child_induction with
  | node e ih =>
    rcases mem_nodes_iff.mp hm with rfl | ⟨c, hc, hm⟩
    · exact hn
    · exact mem_nodes_of_child hc (ih c hc hm)

section Placed

variable {cs : List Char} {e n c d : Expr}

/-- No node reaches out of the tree. -/
theorem inside_of_placed (h : ∀ n ∈ e.nodes, n.Placed cs) (hn : n ∈ e.nodes) :
    e.span.start ≤ n.span.start ∧ n.span.stop ≤ e.span.stop := by
  induction e using child_induction with
  | node e ih =>
    rcases mem_nodes_iff.mp hn with rfl | ⟨c, hc, hn⟩
    · exact ⟨le_rfl, le_rfl⟩
    · obtain ⟨hstart, hstop, -⟩ := (h e (self_mem_nodes e)).inside c hc
      obtain ⟨hstart', hstop'⟩ :=
        ih c hc (fun m hm => h m (mem_nodes_of_child hc hm)) hn
      exact ⟨hstart.trans hstart', hstop'.trans hstop⟩

/-- A node below another one has a smaller place. -/
theorem span_ne_of_below (h : ∀ n ∈ e.nodes, n.Placed cs) (hc : c ∈ e.children) (hn : n ∈ c.nodes) :
    n.span ≠ e.span := by
  intro heq
  obtain ⟨hstart, hstop, hne⟩ := (h e (self_mem_nodes e)).inside c hc
  obtain ⟨hstart', hstop'⟩ :=
    inside_of_placed (fun m hm => h m (mem_nodes_of_child hc hm)) hn
  rw [heq] at hstart' hstop'
  exact hne (by cases hcs : c.span; cases hes : e.span; simp_all; omega)

/-- Nodes below different children have different places. -/
theorem span_ne_of_apart (h : ∀ n ∈ e.nodes, n.Placed cs) (hc : c ∈ e.children)
    (hd : d ∈ e.children) (hcd : c.span.stop ≤ d.span.start) {m : Expr} (hn : n ∈ c.nodes)
    (hm : m ∈ d.nodes) : n.span ≠ m.span := by
  intro heq
  have hplaced : ∀ c ∈ e.children, ∀ n ∈ c.nodes, n.Placed cs :=
    fun c hc n hn => h n (mem_nodes_of_child hc hn)
  have hne := (hplaced c hc n hn).nonempty
  have hleft := (inside_of_placed (hplaced c hc) hn).2
  have hright := (inside_of_placed (hplaced d hd) hm).1
  rw [← heq] at hright
  omega

/-- Trees one behind the other in a placed tree share no place. -/
theorem nodup_spans_of_all (h : ∀ n ∈ e.nodes, n.Placed cs)
    (ih : ∀ c ∈ e.children, (c.nodes.map span).Nodup) {es : List Expr}
    (hes : ∀ c ∈ es, c ∈ e.children)
    (hordered : es.Pairwise fun c d => c.span.stop ≤ d.span.start) :
    ((nodesOfAll es).map span).Nodup := by
  induction es with
  | nil => exact .nil
  | cons c es ihes =>
    obtain ⟨hc, hes⟩ := List.forall_mem_cons.mp hes
    obtain ⟨hbehind, hordered⟩ := List.pairwise_cons.mp hordered
    rw [nodesOfAll, List.map_append, List.nodup_append]
    refine ⟨ih c hc, ihes hes hordered, ?_⟩
    intro s hs t ht
    obtain ⟨n, hn, rfl⟩ := List.mem_map.mp hs
    obtain ⟨m, hm, rfl⟩ := List.mem_map.mp ht
    obtain ⟨d, hd, hm⟩ := mem_nodesOfAll.mp hm
    exact span_ne_of_apart h hc (hes d hd) (hbehind d hd) hn hm

/-- Every node has a place of its own. -/
theorem nodup_spans (h : ∀ n ∈ e.nodes, n.Placed cs) : (e.nodes.map span).Nodup := by
  induction e using child_induction with
  | node e ih =>
    have hbelow : ∀ c ∈ e.children, (c.nodes.map span).Nodup :=
      fun c hc => ih c hc fun n hn => h n (mem_nodes_of_child hc hn)
    have hordered := (h e (self_mem_nodes e)).ordered
    rw [nodes_eq, List.map_cons, List.nodup_cons]
    refine ⟨fun hmem => ?_, nodup_spans_of_all h hbelow (fun _ hc => hc) hordered⟩
    obtain ⟨n, hn, hspan⟩ := List.mem_map.mp hmem
    obtain ⟨c, hc, hn⟩ := mem_nodesOfAll.mp hn
    exact span_ne_of_below h hc hn hspan

/-- A node is below one child alone. -/
theorem eq_of_below (h : ∀ n ∈ e.nodes, n.Placed cs) (hc : c ∈ e.children) (hd : d ∈ e.children)
    (hnc : n ∈ c.nodes) (hnd : n ∈ d.nodes) : c = d := by
  by_contra hne
  have hsymm : Std.Symm fun c d : Expr =>
      c.span.stop ≤ d.span.start ∨ d.span.stop ≤ c.span.start := ⟨fun _ _ => Or.symm⟩
  have hapart := (h e (self_mem_nodes e)).ordered.imp fun {c d} =>
    Or.inl (b := d.span.stop ≤ c.span.start)
  rcases hapart.forall hc hd hne with hcd | hdc
  · exact span_ne_of_apart h hc hd hcd hnc hnd rfl
  · exact span_ne_of_apart h hd hc hdc hnd hnc rfl

end Placed

end Expr

end Formula
