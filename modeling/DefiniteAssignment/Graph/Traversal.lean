import DefiniteAssignment.Graph.Adjacency
/-!
# Traversals

Two walks through a graph from an entry node. `reachableFrom` marks every node that can be reached;
`reversePostOrderFrom` lists them so that a node stands before all that its own depth-first visit
finishes. Both end because a step either marks one more node or shortens the work that is left.
-/

namespace DefiniteAssignment.Adjacency

theorem count_false_set {visited : Array Bool} {u : Nat} (h : visited[u]? = some false) :
    (visited.setIfInBounds u true).count false < visited.count false := by
  obtain ⟨hu, hval⟩ := Array.getElem?_eq_some_iff.1 h
  have hpos : 0 < visited.count false :=
    Array.count_pos_iff.2 (hval ▸ Array.getElem_mem hu)
  rw [Array.setIfInBounds, dif_pos hu, Array.count_set, hval, if_pos BEq.rfl, if_neg (by decide)]
  omega

/-- Marks the nodes of a work list and all that can be reached from them through unmarked nodes. -/
def markReachable (a : Adjacency) (visited : Array Bool) (work : List Nat) : Array Bool :=
  match work with
  | [] => visited
  | u :: rest =>
    if visited[u]? = some false then
      markReachable a (visited.setIfInBounds u true) (a.next u ++ rest)
    else markReachable a visited rest
termination_by (visited.count false, work.length)
decreasing_by
  -- One more node is marked, or else the work list is shorter.
  · exact Prod.Lex.left _ _ (count_false_set ‹_›)
  · exact Prod.Lex.right _ (by simp)

/-- Which nodes can be reached from an entry node. -/
def reachableFrom (a : Adjacency) (entry : Option Nat) : Array Bool :=
  markReachable a (Array.replicate a.size false) entry.toList

/-- Carries on a depth-first search. The stack holds the nodes whose visit has begun, each with the
targets it has still to look at; `finished` holds those whose visit is over, the latest first. -/
def finishVisits (a : Adjacency) (visited : Array Bool) (stack : List (Nat × List Nat))
    (finished : List Nat) : List Nat :=
  match stack with
  | [] => finished
  -- Nothing is left to look at from `u`: its visit is over.
  | (u, []) :: below => finishVisits a visited below (u :: finished)
  | (u, v :: later) :: below =>
    if visited[v]? = some false then
      finishVisits a (visited.setIfInBounds v true) ((v, a.next v) :: (u, later) :: below) finished
    else finishVisits a visited ((u, later) :: below) finished
termination_by (visited.count false, (stack.flatMap fun visit => visit.2).length + stack.length)
decreasing_by
  · exact Prod.Lex.right _ (by simp)
  · exact Prod.Lex.left _ _ (count_false_set ‹_›)
  · exact Prod.Lex.right _ (by simp)

/-- The nodes that can be reached from an entry node in reverse post order of the depth-first
search that looks at targets in ascending order. -/
def reversePostOrderFrom (a : Adjacency) (entry : Option Nat) : List Nat :=
  match entry with
  | none => []
  | some e =>
    finishVisits a ((Array.replicate a.size false).setIfInBounds e true) [(e, a.next e)] []

end DefiniteAssignment.Adjacency
