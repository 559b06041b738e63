import DefiniteAssignment.Proofs.Graph.Acyclic
import DefiniteAssignment.Proofs.Graph.Dominance
/-!
# The laws of reverse post order

What a solver gains by going through a graph in reverse post order (`OrderLaws`). When it comes to a
node it has come to one of its predecessors already, and to all dominators of the node. Of the edges
out of the node, those that do not lead forward are part of a cycle, so that they all lead forward
if the graph has none.

> `orderLaws_reversePostOrder`

The laws about what stands before a node come from the visits that a search begins, the others from
those that go on when one ends (`Adjacency.Advances`).
-/

namespace DefiniteAssignment.Graph

variable {g : Graph} {u v : Nat} {done rest : List Nat}

/-- The laws of an order in which each node that control can get to stands once. -/
structure OrderLaws (g : Graph) (order : List Nat) : Prop where
  nodup : order.Nodup
  mem_iff : ∀ n, n ∈ order ↔ g.Reaches n
  /-- A node comes after one of its predecessors. -/
  pred_before : ∀ n, g.Reaches n → g.entry ≠ some n →
    ∃ u, g.Reaches u ∧ n ∈ g.succ u ∧ order.idxOf u < order.idxOf n
  /-- An edge that does not lead forward is part of a cycle. -/
  walk_back : ∀ u v, g.Reaches u → g.Reaches v → v ∈ g.succ u → ¬order.idxOf u < order.idxOf v →
    ∃ l, g.successors.Walk v l u
  /-- Without cycles all edges lead forward. -/
  forward : g.Acyclic → ∀ u v, g.Reaches u → g.Reaches v → v ∈ g.succ u →
    order.idxOf u < order.idxOf v
  /-- A node comes after what lies on all paths to it. -/
  dominator_before : ∀ m n, g.Reaches n → (∀ l, g.EntryPath l n → m ∈ l ++ [n]) → m ≠ n →
    order.idxOf m < order.idxOf n

/-- Where the order is cut at a node, the nodes of the rest come after it. -/
theorem idxOf_lt_of_mem_rest (horder : g.reversePostOrder = done ++ u :: rest) (hv : v ∈ rest) :
    g.reversePostOrder.idxOf u < g.reversePostOrder.idxOf v := by
  have hnodup := g.nodup_reversePostOrder
  rw [horder] at hnodup ⊢
  -- What stands behind `u` does not stand before it as well, nor is it `u`.
  obtain ⟨-, hbehind, hapart⟩ := List.nodup_append.1 hnodup
  have hne : u ≠ v := fun heq => (List.nodup_cons.1 hbehind).1 (heq ▸ hv)
  have hdone : v ∉ done := fun hmem => hapart v hmem v (List.mem_cons_of_mem _ hv) rfl
  have hu : u ∈ done ++ u :: rest := List.mem_append_right _ (List.mem_cons_self ..)
  have hle : (done ++ u :: rest).idxOf u ≤ (done ++ u :: rest).idxOf v :=
    Nat.le_of_not_lt fun hlt => hdone (Adjacency.mem_of_idxOf_lt hlt)
  exact Nat.lt_of_le_of_ne hle fun heq => hne ((List.idxOf_inj hu).1 heq)

/-- An edge leads forward, unless a walk leads back to its source. -/
theorem idxOf_lt_or_walk (hu : g.Reaches u) (hv : v ∈ g.succ u) :
    g.reversePostOrder.idxOf u < g.reversePostOrder.idxOf v ∨ ∃ l, g.successors.Walk v l u := by
  obtain ⟨done, rest, horder⟩ := List.append_of_mem (mem_reversePostOrder.2 hu)
  have hadvances := g.advances_reversePostOrder
  rw [horder] at hadvances
  exact (hadvances.of_append.1 v hv).imp_left (idxOf_lt_of_mem_rest horder)

/-- An edge leads forward, unless there is a cycle. -/
theorem Acyclic.idxOf_lt (h : g.Acyclic) (hu : g.Reaches u) (hv : v ∈ g.succ u) :
    g.reversePostOrder.idxOf u < g.reversePostOrder.idxOf v := by
  obtain ⟨done, rest, horder⟩ := List.append_of_mem (mem_reversePostOrder.2 hu)
  exact idxOf_lt_of_mem_rest horder (h.succ_subset horder hv)

/-- Reverse post order has these laws in every graph. -/
theorem orderLaws_reversePostOrder (g : Graph) : g.OrderLaws g.reversePostOrder where
  nodup := g.nodup_reversePostOrder
  mem_iff _ := mem_reversePostOrder
  pred_before _ hn hne := exists_pred_before hn hne
  walk_back _ _ hu _ hedge hnot := (idxOf_lt_or_walk hu hedge).resolve_left hnot
  forward hacyclic _ _ hu _ hedge := hacyclic.idxOf_lt hu hedge
  dominator_before _ _ hn hdominates hne := Dominates.idxOf_lt hdominates hn hne

/-- The edge from node 3 to the entry leads back, and so there is a walk from the entry to node 3.
In the diamond, which has no cycle, the edge from node 3 to node 0 leads forward. -/
theorem orderLaws_samples :
    (sample.reversePostOrder = [0, 1, 2, 3] ∧ 0 ∈ sample.succ 3 ∧
      ∃ l, sample.successors.Walk 0 l 3) ∧
    diamond.Acyclic ∧ 0 ∈ diamond.succ 3 ∧
      diamond.reversePostOrder.idxOf 3 < diamond.reversePostOrder.idxOf 0 := by
  have horder : sample.reversePostOrder = [0, 1, 2, 3] := by cbv
  have hback : 0 ∈ sample.succ 3 := by
    rw [show sample.succ 3 = [0] by cbv]
    exact List.mem_singleton_self 0
  have hforward : 0 ∈ diamond.succ 3 := by
    rw [show diamond.succ 3 = [0, 1] by cbv]
    exact List.mem_cons_self ..
  refine ⟨⟨horder, hback, ?_⟩, acyclic_diamond, hforward, ?_⟩
  · have hnot : ¬sample.reversePostOrder.idxOf 3 < sample.reversePostOrder.idxOf 0 := by
      rw [horder]
      decide
    exact (orderLaws_reversePostOrder sample).walk_back 3 0 (isReachable_iff.1 (by cbv))
      (isReachable_iff.1 (by cbv)) hback hnot
  · exact (orderLaws_reversePostOrder diamond).forward acyclic_diamond 3 0
      (isReachable_iff.1 (by cbv)) (isReachable_iff.1 (by cbv)) hforward

end DefiniteAssignment.Graph
