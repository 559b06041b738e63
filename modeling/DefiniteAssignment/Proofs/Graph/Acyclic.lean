import Mathlib.Data.List.Permutation
import DefiniteAssignment.Proofs.Graph.ReversePostOrder
/-!
# Graphs without cycles

A graph is acyclic if no walk leads from a node back to the node, but the one without an edge. Only
nodes count that control can get to; what the rest of the graph looks like does not matter.

When the visit of a node ends, its targets are marked. A target whose visit still goes on lies below
on the stack, or is the node itself, so that control can get from it to the node and over the edge
back again. The visits of all other targets have ended before. So in reverse post order an edge
leads forward, unless it is part of a cycle (`advances_reversePostOrder`).

A list of nodes is topological if all targets of each of its nodes stand behind the node. Hence
reverse post order is such a list exactly if the graph is acyclic:

> `acyclic_iff_topological`
-/

namespace DefiniteAssignment

namespace Adjacency

variable {a : Adjacency} {e u v n : Nat} {l rest : List Nat}

/-- All targets of each node of a list stand behind it. -/
def Topological (a : Adjacency) : List Nat → Prop
  | [] => True
  | n :: rest => a.next n ⊆ rest ∧ a.Topological rest

namespace Topological

theorem of_append {done : List Nat} (h : a.Topological (done ++ rest)) : a.Topological rest := by
  induction done with
  | nil => exact h
  | cons n done ih => exact ih h.2

/-- No edge leads out of the list. -/
theorem next_subset (h : a.Topological l) (hn : n ∈ l) : a.next n ⊆ l := by
  induction l with
  | nil => cases hn
  | cons m l ih =>
    rcases List.mem_cons.1 hn with rfl | hn
    · exact List.subset_cons_of_subset _ h.1
    · exact List.subset_cons_of_subset _ (ih h.2 hn)

/-- A walk from a node that follows an edge ends behind the node. -/
theorem eq_nil_or_mem_of_walk (h : a.Topological (n :: rest)) (hw : a.Walk n l v) :
    l = [] ∧ v = n ∨ v ∈ rest := by
  induction hw with
  | nil => exact .inl ⟨rfl, rfl⟩
  | snoc _ hedge ih =>
    rcases ih with ⟨-, rfl⟩ | hmem
    · exact .inr (h.1 hedge)
    · exact .inr (h.2.next_subset hmem hedge)

end Topological

/-! ## Edges that lead back -/

/-- Each edge out of a node of a list leads behind the node, or to where a walk leads back from. -/
def Advances (a : Adjacency) : List Nat → Prop
  | [] => True
  | n :: rest => (∀ v ∈ a.next n, v ∈ rest ∨ ∃ l, a.Walk v l n) ∧ a.Advances rest

theorem Advances.of_append {done : List Nat} (h : a.Advances (done ++ rest)) : a.Advances rest := by
  induction done with
  | nil => exact h
  | cons n done ih => exact ih h.2

/-- Each visit of a stack has led to the topmost one. -/
theorem BegunFrom.exists_walk {later : List Nat} {below : List (Nat × List Nat)}
    (h : BegunFrom a e ((u, later) :: below)) (hv : v ∈ ((u, later) :: below).map Prod.fst) :
    ∃ l, a.Walk v l u := by
  induction below generalizing u later with
  | nil =>
    rw [List.map_singleton, List.mem_singleton] at hv
    exact ⟨[], hv ▸ .nil⟩
  | cons visit below ih =>
    rcases List.mem_cons.1 hv with rfl | hv
    · exact ⟨[], .nil⟩
    · obtain ⟨l, hl⟩ := ih h.2 hv
      exact ⟨_, hl.snoc h.1⟩

variable {visited : Array Bool} {stack below : List (Nat × List Nat)} {finished : List Nat}

/-- When a visit ends, the visit of each target has ended, or goes on and has led to this one. -/
theorem Searching.mem_finished_or_walk (h : Searching a e visited ((u, []) :: below) finished)
    (hv : v ∈ a.next u) : v ∈ finished ∨ ∃ l, a.Walk v l u := by
  have hmarked : Marked visited v :=
    (h.seen _ (List.mem_cons_self ..) v hv).resolve_left List.not_mem_nil
  rcases List.mem_append.1 ((h.marked_iff v).1 hmarked) with hstack | hfinished
  · exact .inr (h.begun.exists_walk hstack)
  · exact .inl hfinished

/-- A search adds nodes in front of the list whose targets stand in it, or lead back. -/
theorem Searching.advances_finishVisits (ha : ∀ u, ∀ v ∈ a.next u, v < a.size)
    (h : Searching a e visited stack finished) (hfinished : a.Advances finished) :
    a.Advances (a.finishVisits visited stack finished) := by
  fun_induction Adjacency.finishVisits a visited stack finished with
  | case1 visited finished => exact hfinished
  | case2 visited finished u below ih =>
    exact ih h.finish ⟨fun v hv => h.mem_finished_or_walk hv, hfinished⟩
  | case3 visited finished u v later below hv ih => exact ih (h.enter hv) hfinished
  | case4 visited finished u v later below hv ih => exact ih (h.pass ha hv) hfinished

/-- No walk from a node that can be reached from `e` comes back to it over an edge. -/
def AcyclicFrom (a : Adjacency) (e : Nat) : Prop :=
  ∀ l n, a.Walk e l n → ∀ m, a.Walk n m n → m = []

/-- Where there is no cycle, no edge leads to where a walk leads back from. -/
theorem Advances.topological (h : a.Advances l) (hacyclic : a.AcyclicFrom e)
    (hreached : ∀ n ∈ l, ∃ m, a.Walk e m n) : a.Topological l := by
  induction l with
  | nil => trivial
  | cons n rest ih =>
    refine ⟨?_, ih h.2 fun m hm => hreached m (List.mem_cons_of_mem _ hm)⟩
    intro v hv
    refine (h.1 v hv).resolve_right ?_
    rintro ⟨m, hm⟩
    obtain ⟨k, hk⟩ := hreached n (List.mem_cons_self ..)
    have hcycle : a.Walk n ([n] ++ m) n := (Walk.nil.snoc hv).append hm
    exact absurd (hacyclic k n hk _ hcycle) (by simp)

end Adjacency

namespace Graph

variable {g : Graph} {n : Nat} {done rest : List Nat}

/-- No walk from a node that control can get to comes back to it over an edge. -/
def Acyclic (g : Graph) : Prop :=
  ∀ n, g.Reaches n → ∀ l, g.successors.Walk n l n → l = []

/-- In reverse post order every edge leads forward, or to where a walk leads back from. -/
theorem advances_reversePostOrder (g : Graph) : g.successors.Advances g.reversePostOrder := by
  cases he : g.entry with
  | none =>
    rw [reversePostOrder, he]
    trivial
  | some e =>
    have hlt : e < g.successors.size := g.size_successors.symm ▸ g.entry_lt e he
    rw [reversePostOrder, he]
    exact (Adjacency.Searching.start hlt).advances_finishVisits (fun u v hv => g.succ_lt hv) trivial

/-- Reverse post order lets every edge lead forward, unless there is a cycle. -/
theorem Acyclic.topological (h : g.Acyclic) : g.successors.Topological g.reversePostOrder := by
  cases he : g.entry with
  | none =>
    rw [reversePostOrder, he]
    trivial
  | some e =>
    refine g.advances_reversePostOrder.topological (e := e) (fun l n hl => h n ⟨l, e, he, hl⟩) ?_
    intro n hn
    obtain ⟨l, e', he', hl⟩ := mem_reversePostOrder.1 hn
    obtain rfl : e = e' := Option.some.inj (he.symm.trans he')
    exact ⟨l, hl⟩

/-- A graph is acyclic exactly if its reverse post order is topological. -/
theorem acyclic_iff_topological :
    g.Acyclic ↔ g.successors.Topological g.reversePostOrder := by
  refine ⟨Acyclic.topological, ?_⟩
  intro h n hn l hl
  obtain ⟨done, rest, horder⟩ := List.append_of_mem (mem_reversePostOrder.2 hn)
  have hnodup := g.nodup_reversePostOrder
  rw [horder] at h hnodup
  -- The node does not stand behind itself.
  have hnot : n ∉ rest := (List.nodup_cons.1 (List.nodup_append.1 hnodup).2.1).1
  exact ((h.of_append.eq_nil_or_mem_of_walk hl).resolve_right hnot).1

/-- Where the order is cut, all targets of a node come after the cut. -/
theorem Acyclic.succ_subset (h : g.Acyclic) (horder : g.reversePostOrder = done ++ n :: rest) :
    g.succ n ⊆ rest :=
  (horder ▸ h.topological).of_append.1

/-- Two branches that meet again, and a loop that control cannot get to with an edge into one of
them. -/
def diamond : Graph :=
  let builder : Builder :=
    { nodes := Array.replicate 5 ⟨"", none, [], []⟩
      edges := #[(3, 0), (3, 1), (0, 2), (1, 2), (4, 4), (4, 1)]
      entry := some 3 }
  match builder.build with
  | .ok g => g
  | .error _ => .empty

/-- The loop does not count, since control cannot get to it. -/
theorem acyclic_diamond : diamond.Acyclic := by
  have horder : diamond.reversePostOrder = [3, 1, 0, 2] := by cbv
  have hnext : diamond.successors = #[[2], [2], [], [0, 1], [1, 4]] := by cbv
  rw [acyclic_iff_topological, horder, hnext]
  simp [Adjacency.Topological, Adjacency.next]

end Graph

end DefiniteAssignment
