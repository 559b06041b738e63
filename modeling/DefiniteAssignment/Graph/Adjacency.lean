import DefiniteAssignment.Ascending
/-!
# Adjacency lists

The edges of a graph on the nodes `0`, …, `n - 1`, kept as one strictly ascending list of targets
for each node, and a second time as one strictly ascending list of sources for each node.

`EdgeTables` holds both. An edge is entered at both of its ends by one operation, and that the
tables mirror each other is part of their type, so that either can be used to say which edges there
are.
-/

namespace DefiniteAssignment

/-- For each node, the nodes at the other ends of its edges. -/
abbrev Adjacency := Array (List Nat)

namespace Adjacency

/-- The targets of the edges out of a node; none for a number that is no node. -/
def next (a : Adjacency) (u : Nat) : List Nat :=
  a[u]?.getD []

/-- Adds an edge. -/
def insertEdge (a : Adjacency) (edge : Nat × Nat) : Adjacency :=
  a.modify edge.1 (Ascending.insert edge.2)

/-- There are as many nodes as before. -/
@[simp]
theorem size_insertEdge (a : Adjacency) (edge : Nat × Nat) :
    (a.insertEdge edge).size = a.size := by
  simp [insertEdge]

/-- Only the list of the node that an edge leaves changes. -/
theorem next_insertEdge (a : Adjacency) (edge : Nat × Nat) (u : Nat) :
    (a.insertEdge edge).next u =
      if edge.1 = u ∧ u < a.size then Ascending.insert edge.2 (a.next u) else a.next u := by
  simp only [next, insertEdge, Array.getElem?_modify]
  by_cases h : edge.1 = u
  · by_cases hu : u < a.size
    · simp [h, hu]
    · simp [h, hu]
  · simp [h]

/-- An edge that leaves a node is added to the edges that are there. -/
theorem mem_next_insertEdge {a : Adjacency} {source target u v : Nat} (hsource : source < a.size) :
    v ∈ (a.insertEdge (source, target)).next u ↔ v ∈ a.next u ∨ source = u ∧ target = v := by
  rw [next_insertEdge]
  by_cases h : source = u
  · subst h
    simp only [hsource, and_self, if_true, Ascending.mem_insert, true_and]
    rw [or_comm, eq_comm]
  · simp [h]

/-- Lists stay strictly ascending when an edge is added. -/
theorem pairwise_next_insertEdge {a : Adjacency} (h : ∀ u, (a.next u).Pairwise (· < ·))
    (edge : Nat × Nat) (u : Nat) : ((a.insertEdge edge).next u).Pairwise (· < ·) := by
  rw [next_insertEdge]
  split
  · exact Ascending.pairwise_insert (h u)
  · exact h u

/-- There is no edge before one is added. -/
@[simp]
theorem next_replicate_nil (n u : Nat) : Adjacency.next (Array.replicate n []) u = [] := by
  by_cases h : u < n <;> simp [next, h]

end Adjacency

/-- The edges of a graph on `n` nodes, kept at both ends: for each node the targets of the edges out
of it and the sources of the edges into it. -/
structure EdgeTables (n : Nat) where
  successors : Adjacency
  predecessors : Adjacency
  size_successors : successors.size = n
  size_predecessors : predecessors.size = n
  pairwise_successors : ∀ u, (successors.next u).Pairwise (· < ·)
  pairwise_predecessors : ∀ v, (predecessors.next v).Pairwise (· < ·)
  successor_lt : ∀ u, ∀ v ∈ successors.next u, v < n
  /-- The tables mirror each other. -/
  mem_predecessors : ∀ u v, u ∈ predecessors.next v ↔ v ∈ successors.next u

namespace EdgeTables

variable {n : Nat}

/-- The tables of a graph without edges. -/
def empty (n : Nat) : EdgeTables n where
  successors := Array.replicate n []
  predecessors := Array.replicate n []
  size_successors := Array.size_replicate
  size_predecessors := Array.size_replicate
  pairwise_successors := by simp
  pairwise_predecessors := by simp
  successor_lt := by simp
  mem_predecessors := by simp

/-- Adds an edge between two nodes, in one table at its source and in the other at its target. -/
def insert (t : EdgeTables n) {source target : Nat} (hsource : source < n) (htarget : target < n) :
    EdgeTables n where
  successors := t.successors.insertEdge (source, target)
  predecessors := t.predecessors.insertEdge (target, source)
  size_successors := by rw [Adjacency.size_insertEdge, t.size_successors]
  size_predecessors := by rw [Adjacency.size_insertEdge, t.size_predecessors]
  pairwise_successors := Adjacency.pairwise_next_insertEdge t.pairwise_successors _
  pairwise_predecessors := Adjacency.pairwise_next_insertEdge t.pairwise_predecessors _
  successor_lt := by
    intro u v hv
    rcases (Adjacency.mem_next_insertEdge (t.size_successors.symm ▸ hsource)).1 hv with
      hv | ⟨-, rfl⟩
    · exact t.successor_lt u v hv
    · exact htarget
  mem_predecessors := by
    intro u v
    rw [Adjacency.mem_next_insertEdge (t.size_predecessors.symm ▸ htarget),
      Adjacency.mem_next_insertEdge (t.size_successors.symm ▸ hsource), t.mem_predecessors,
      and_comm]

/-- An edge that is added joins those that are there. -/
theorem mem_successors_insert {t : EdgeTables n} {source target : Nat} (hsource : source < n)
    (htarget : target < n) (u v : Nat) :
    v ∈ (t.insert hsource htarget).successors.next u ↔
      v ∈ t.successors.next u ∨ source = u ∧ target = v :=
  Adjacency.mem_next_insertEdge (t.size_successors.symm ▸ hsource)

/-- Without edges no node has a target. -/
@[simp]
theorem next_successors_empty (n u : Nat) : (empty n).successors.next u = [] :=
  Adjacency.next_replicate_nil n u

end EdgeTables

end DefiniteAssignment
