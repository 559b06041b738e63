import Mathlib.Data.List.Sort
import DefiniteAssignment.Proofs.Graph.Counts
/-!
# The recursive depth-first search

`reversePostOrder` keeps the visits that go on in a stack of its own. `visitAll` is the search as it
is usually told: to visit a node is to mark it, to visit those of its targets that are not marked
when their turn comes, and to list it in the end. The stack does nothing but this: taking up the
topmost visit with the targets that it has left comes to the same as visiting these targets and then
going on below (`Adjacency.finishVisits_cons`).

So the order is the search's list from back to front, and with what is known of the order already:

> `Graph.reversePostOrder_eq_reverse_postOrder`
-/

namespace DefiniteAssignment

/-- What comes of some visits if the nodes of `marked` are marked before them. -/
structure Visits (marked : Array Bool) where
  /-- The marks after the visits. -/
  marks : Array Bool
  /-- The nodes that have been visited, in the order in which their visits ended. -/
  ended : List Nat
  count_le : marks.count false ≤ marked.count false

/-- Visits the nodes of a list, each unless it is marked when its turn comes. A visit marks the
node, visits all its targets, and ends. -/
def visitAll (targets : Nat → List Nat) (marked : Array Bool) : List Nat → Visits marked
  | [] => ⟨marked, [], Nat.le_refl _⟩
  | n :: later =>
    if h : marked[n]? = some false then
      match visitAll targets (marked.setIfInBounds n true) (targets n) with
      | ⟨marks, inner, hinner⟩ =>
        have hlt := Nat.lt_of_le_of_lt hinner (Adjacency.count_false_set h)
        match visitAll targets marks later with
        | ⟨marks, outer, houter⟩ =>
          ⟨marks, inner ++ n :: outer, Nat.le_of_lt (Nat.lt_of_le_of_lt houter hlt)⟩
    else visitAll targets marked later
termination_by nodes => (marked.count false, nodes.length)
decreasing_by
  · exact Prod.Lex.left _ _ (Adjacency.count_false_set h)
  -- The visits before these have marked at least `n`.
  · exact Prod.Lex.left _ _ hlt
  · exact Prod.Lex.right _ (Nat.lt_succ_self _)

/-- The topmost visit of a stack goes on by visiting the targets that it has left. -/
theorem Adjacency.finishVisits_cons (a : Adjacency) (marked : Array Bool) (later : List Nat)
    (u : Nat) (below : List (Nat × List Nat)) (finished : List Nat) :
    a.finishVisits marked ((u, later) :: below) finished =
      a.finishVisits (visitAll a.next marked later).marks below
        (u :: ((visitAll a.next marked later).ended.reverse ++ finished)) := by
  fun_induction visitAll a.next marked later generalizing u below finished with
  | case1 marked => rw [finishVisits, List.reverse_nil, List.nil_append]
  | case2 marked n later h marks inner _ hvisits _ marks' outer _ hvisits' ihInner ihOuter =>
    -- The visit of `n` goes on a stack that the visit of `u` waits on below.
    rw [finishVisits, if_pos h, ihInner, hvisits, ihOuter, hvisits']
    simp
  | case3 marked n later h ih => rw [finishVisits, if_neg h, ih]

theorem visitAll_singleton {targets : Nat → List Nat} {marked : Array Bool} {n : Nat}
    (h : marked[n]? = some false) : (visitAll targets marked [n]).ended =
      (visitAll targets (marked.setIfInBounds n true) (targets n)).ended ++ [n] := by
  rw [visitAll, dif_pos h]
  obtain ⟨marks, inner, hinner⟩ := visitAll targets (marked.setIfInBounds n true) (targets n)
  show inner ++ n :: (visitAll targets marks []).ended = inner ++ [n]
  rw [visitAll]

/-- The search with a stack finds what the recursive one does, in reverse. -/
theorem Adjacency.reversePostOrderFrom_eq {a : Adjacency} {entry : Option Nat}
    (h : ∀ e ∈ entry, e < a.size) : a.reversePostOrderFrom entry =
      (visitAll a.next (Array.replicate a.size false) entry.toList).ended.reverse := by
  cases entry with
  | none => rw [reversePostOrderFrom, Option.toList_none, visitAll, List.reverse_nil]
  | some e =>
    have hunmarked : (Array.replicate a.size false)[e]? = some false := by
      rw [Array.getElem?_replicate, if_pos (h e rfl)]
    rw [reversePostOrderFrom, finishVisits_cons, finishVisits, Option.toList_some,
      visitAll_singleton hunmarked, List.reverse_append, List.append_nil]
    rfl

namespace Graph

/-- The nodes to which an edge leads from a node, in ascending order. -/
def targets (g : Graph) (n : Nat) : List Nat :=
  (List.range g.size).filter (· ∈ g.succ n)

/-- The nodes that a depth-first search from the entry visits, in the order in which their visits
end. The search looks at the targets of a node in ascending order. -/
def postOrder (g : Graph) : List Nat :=
  (visitAll g.targets (Array.replicate g.size false) g.entry.toList).ended

theorem targets_eq_succ (g : Graph) (n : Nat) : g.targets n = g.succ n := by
  refine (List.pairwise_lt_range.filter _).eq_of_mem_iff (g.pairwise_successors n) ?_
  intro v
  rw [List.mem_filter, List.mem_range, decide_eq_true_eq]
  exact and_iff_right_of_imp (g.successor_lt n v)

/-- The order is the post order of the recursive search from back to front. It lists the nodes that
are marked as reachable and no others, each once and the entry first, and these are the ends of the
paths from the entry. -/
theorem reversePostOrder_eq_reverse_postOrder (g : Graph) :
    g.reversePostOrder = g.postOrder.reverse ∧
      (∀ n, g.reversePostOrder.count n = if g.isReachable n then 1 else 0) ∧
      (∀ n, g.isReachable n = true ↔ ∃ l, g.EntryPath l n) ∧
      g.reversePostOrder.head? = g.entry := by
  refine ⟨?_, ?_, fun n => isReachable_iff, g.head?_reversePostOrder⟩
  · have hsize : g.size = g.successors.size := g.size_successors.symm
    rw [postOrder, funext g.targets_eq_succ, hsize]
    exact Adjacency.reversePostOrderFrom_eq fun e he => hsize ▸ g.entry_lt e he
  · intro n
    rw [g.nodup_reversePostOrder.count]
    exact if_congr (mem_reversePostOrder.trans isReachable_iff.symm) rfl rfl

end Graph

end DefiniteAssignment
