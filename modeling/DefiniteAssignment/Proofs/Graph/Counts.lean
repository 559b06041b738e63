import Mathlib.Algebra.BigOperators.Ring.Finset
import Mathlib.Algebra.Order.BigOperators.Group.Finset
import DefiniteAssignment.Proofs.Graph.ReversePostOrder
/-!
# Reachable nodes and edges, counted

The measures of a graph that bounds on running times are stated in: `reachableNodes` lists the nodes
that control can get to and `liveEdges` the edges out of them, each once, so that their lengths are
the numbers of such nodes and edges.

What is done at most `h` times for each node, once for each edge out of it, is done at most `h`
times the number of these edges:

> `sum_outdegrees_le`
-/

namespace DefiniteAssignment.Graph

variable {g : Graph}

/-- The nodes that control can get to, ascending. -/
def reachableNodes (g : Graph) : List Nat :=
  (List.range g.size).filter g.isReachable

/-- The edges that control can take, each as its source and its target. -/
def liveEdges (g : Graph) : List (Nat × Nat) :=
  g.reachableNodes.flatMap fun u => (g.succ u).map (u, ·)

/-- The nodes that count are those that control can get to. -/
theorem mem_reachableNodes {n : Nat} : n ∈ g.reachableNodes ↔ g.Reaches n := by
  rw [reachableNodes, List.mem_filter, List.mem_range, isReachable_iff]
  exact and_iff_right_of_imp Reaches.lt_size

theorem nodup_reachableNodes (g : Graph) : g.reachableNodes.Nodup :=
  List.nodup_range.filter _

theorem nodup_succ (g : Graph) (u : Nat) : (g.succ u).Nodup :=
  (g.pairwise_successors u).imp Nat.ne_of_lt

/-- The edges that count are those out of nodes that control can get to. -/
theorem mem_liveEdges {u v : Nat} : (u, v) ∈ g.liveEdges ↔ g.Reaches u ∧ v ∈ g.succ u := by
  simp [liveEdges, mem_reachableNodes]

theorem nodup_liveEdges (g : Graph) : g.liveEdges.Nodup := by
  rw [liveEdges, List.nodup_flatMap]
  constructor
  · intro u _
    exact (g.nodup_succ u).map fun v w h => (Prod.mk.inj h).2
  · refine g.nodup_reachableNodes.imp ?_
    intro u w hne edge hu hw
    obtain ⟨v, -, rfl⟩ := List.mem_map.1 hu
    obtain ⟨x, -, hx⟩ := List.mem_map.1 hw
    exact hne (Prod.mk.inj hx).1.symm

/-- The order is the reachable nodes in another order. -/
theorem reversePostOrder_perm (g : Graph) : g.reversePostOrder.Perm g.reachableNodes := by
  rw [List.perm_ext_iff_of_nodup g.nodup_reversePostOrder g.nodup_reachableNodes]
  intro n
  rw [mem_reversePostOrder, mem_reachableNodes]

/-- Reverse post order is as long as there are nodes that control can get to. -/
theorem length_reversePostOrder (g : Graph) :
    g.reversePostOrder.length = g.reachableNodes.length :=
  g.reversePostOrder_perm.length_eq

/-- The edges that count are counted node by node. -/
theorem length_liveEdges (g : Graph) :
    g.liveEdges.length = (g.reachableNodes.map fun u => (g.succ u).length).sum := by
  simp [liveEdges, List.length_flatMap]

/-- A path that passes no node twice is shorter than the number of nodes. -/
theorem EntryPath.length_lt {l : List Nat} {n : Nat} (h : g.EntryPath l n)
    (hnodup : (l ++ [n]).Nodup) : l.length < g.reachableNodes.length := by
  have hsub : l ++ [n] ⊆ g.reachableNodes := by
    intro d hd
    rw [mem_reachableNodes]
    rcases List.mem_append.1 hd with hd | hd
    · obtain ⟨m, hm, -⟩ := h.exists_path_of_mem hd
      exact ⟨m, hm⟩
    · exact ⟨l, List.mem_singleton.1 hd ▸ h⟩
  have hle := hnodup.length_le_of_subset hsub
  rwa [List.length_append, List.length_singleton] at hle

/-- If no node is listed more than `h` times, the edges out of the listed nodes are no more than `h`
times those that there are. -/
theorem sum_outdegrees_le {l : List Nat} {h : Nat} (hreaches : ∀ u ∈ l, g.Reaches u)
    (hcount : ∀ u, l.count u ≤ h) :
    (l.map fun u => (g.succ u).length).sum ≤ h * g.liveEdges.length := by
  have hsub : l.toFinset ⊆ g.reachableNodes.toFinset := by
    intro u hu
    rw [List.mem_toFinset] at hu ⊢
    exact mem_reachableNodes.2 (hreaches u hu)
  calc (l.map fun u => (g.succ u).length).sum
      = ∑ u ∈ l.toFinset, l.count u * (g.succ u).length := Finset.sum_list_map_count l _
    _ ≤ ∑ u ∈ l.toFinset, h * (g.succ u).length :=
        Finset.sum_le_sum fun u _ => Nat.mul_le_mul_right _ (hcount u)
    _ ≤ ∑ u ∈ g.reachableNodes.toFinset, h * (g.succ u).length :=
        Finset.sum_le_sum_of_subset hsub
    _ = h * ∑ u ∈ g.reachableNodes.toFinset, (g.succ u).length := (Finset.mul_sum ..).symm
    _ = h * g.liveEdges.length := by
        rw [List.sum_toFinset _ g.nodup_reachableNodes, length_liveEdges]

end DefiniteAssignment.Graph
