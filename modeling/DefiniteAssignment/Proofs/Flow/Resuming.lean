import DefiniteAssignment.Proofs.Flow.Steps
/-!
# Starting from a solution

A run may start from the facts of an earlier solution. If that is a solution of the same problem,
the run looks at every node once, in the order in which they wait from the start, finds each of them
as it left it and stops:

> `solveFrom_of_isRun`

The two functions of the problem need not have any property for this. What is used of the earlier
run is that it left no node behind whose facts are not those that the outputs call for: at every
node that control can get to, both the input and the output that the solver works out are the ones
that are there already (`Problem.Stands`). The facts of the other nodes are never looked at.
-/

namespace DefiniteAssignment.Flow

variable {F : Type} {g : Graph} {p : Problem F} {s : State F} {solution : Solution F} {n : Nat}
  {rest : List Nat}

theorem setIfInBounds_eq_self {α : Type} {facts : Array α} {fact : α}
    (h : facts[n]? = some fact) : facts.setIfInBounds n fact = facts := by
  refine Array.ext_getElem? ?_
  intro m
  rw [Array.getElem?_setIfInBounds]
  split
  next hnm =>
    obtain ⟨hlt, -⟩ := Array.getElem?_eq_some_iff.1 h
    rw [← hnm, if_pos hlt, h]
  next => rfl

/-- An evaluation of any node that control can get to finds the facts that stand there. -/
structure Problem.Stands (p : Problem F) (g : Graph) (solution : Solution F) : Prop where
  input_eq : ∀ n, g.Reaches n → solution.before[n]? = some (p.inputAt g solution.after n)
  output_eq : ∀ n, g.Reaches n →
    solution.after[n]? = some (p.transfer n (p.inputAt g solution.after n))

namespace State

/-- The facts are those of a solution, and every node that control can get to has been evaluated or
waits. -/
structure Rechecks (g : Graph) (solution : Solution F) (s : State F) : Prop where
  before_eq : s.before = solution.before
  after_eq : s.after = solution.after
  waits : Waits g s
  steps_add : s.steps + s.queue.length = g.reachableNodes.length

theorem rechecks_start (g : Graph) (solution : Solution F) :
    Rechecks g solution (.start g solution.before solution.after) where
  before_eq := rfl
  after_eq := rfl
  waits := waits_start g _ _
  steps_add := by
    show 0 + g.reversePostOrder.length = g.reachableNodes.length
    rw [Nat.zero_add, g.length_reversePostOrder]

variable [DecidableEq F]

/-- An evaluation changes neither of the facts of its node, so that it lets no node wait. -/
theorem Rechecks.step (hp : p.Stands g solution) (h : Rechecks g solution s)
    (hq : s.queue = n :: rest) : Rechecks g solution (s.step g p) := by
  have hn : g.Reaches n := h.waits.reaches n (hq ▸ List.mem_cons_self ..)
  have he := h.waits.step hq p
  obtain ⟨added, -, hqueue, hnone⟩ := queue_step hq g p
  have hinput := hp.input_eq n hn
  have houtput := hp.output_eq n hn
  have hsteps := h.steps_add
  rw [← h.after_eq] at hinput houtput
  refine ⟨?_, ?_, he.waits, ?_⟩
  · rw [he.before_eq, h.before_eq, setIfInBounds_eq_self hinput]
  · rw [he.after_eq, setIfInBounds_eq_self houtput, h.after_eq]
  · rw [hq, List.length_cons] at hsteps
    rw [he.steps_eq, hqueue, hnone houtput, List.append_nil]
    omega

end State

variable [DecidableEq F]

/-- Facts that stand are found again in one evaluation of each node that control can get to. -/
theorem solveFrom_of_stands (hp : p.Stands g solution) (hsize : solution.before.size = g.size)
    {limit : Nat} (hlimit : g.reachableNodes.length ≤ limit) :
    (solveFrom g p limit solution).outcome =
      .ok ⟨solution.before, solution.after, g.reachableNodes.length⟩ := by
  have hstart := State.rechecks_start g solution
  rw [solveFrom, if_pos hsize]
  obtain ⟨s, -, hok⟩ : ∃ s, State.Rechecks g solution s ∧
      (run g p limit limit (.start g solution.before solution.after)).outcome =
        .ok ⟨s.before, s.after, s.steps⟩ :=
    exists_last_state_of_bound
      (fun s n rest hs hq => ⟨hs.step hp hq, (hs.waits.step hq p).steps_eq⟩)
      (fun s hs => Nat.le_of_eq hs.steps_add) hstart (Nat.le_trans hlimit (Nat.le_add_left ..))
  obtain ⟨s', hs', hempty, heq⟩ :=
    exists_last_state (fun s n rest hs hq => hs.step hp hq) hstart hok
  have hsteps := hs'.steps_add
  rw [hempty, List.length_nil, Nat.add_zero] at hsteps
  rw [hok, heq, hs'.before_eq, hs'.after_eq, hsteps]

/-- A run from the solution of any run of the same problem comes to that solution again, at all
nodes, and evaluates every node that control can get to once. -/
theorem solveFrom_of_isRun {limit limit' : Nat} {r : Run F} (h : IsRun g p limit r)
    (hok : r.outcome = .ok solution) (hlimit : g.reachableNodes.length ≤ limit') :
    (solveFrom g p limit' solution).outcome =
      .ok ⟨solution.before, solution.after, g.reachableNodes.length⟩ := by
  have hstands : p.Stands g solution :=
    ⟨fun n hn => (h.facts_eq hok hn).1, fun n hn => (h.facts_eq hok hn).2⟩
  obtain ⟨s, hs, -, rfl⟩ := h.exists_last_state hok
  exact solveFrom_of_stands hstands hs.size_before hlimit

/-- The words of this problem depend on the order of merging. From the words of the seed it takes
eight evaluations to settle, and four from where that led to. -/
theorem solveFrom_sample :
    let p : Problem (List Nat) := ⟨[], [], fun a b => a ++ b.take 1, fun n l => (n :: l).take 2⟩
    let seed : Solution (List Nat) :=
      ⟨#[[1], [2], [3], [4], [5]], #[[1], [2], [3], [4], [5]], 0⟩
    let solution : Solution (List Nat) :=
      ⟨#[[3], [0, 3, 2], [0, 3, 1], [1, 0, 2], [5]], #[[0, 3], [1, 0], [2, 0], [3, 1], [5]], 8⟩
    (solveFrom .sample p 8 seed).outcome = .ok solution ∧ Graph.sample.reachableNodes.length = 4 ∧
      (solveFrom .sample p 4 solution).outcome = .ok { solution with steps := 4 } := by
  intro p seed solution
  have hok : (solveFrom .sample p 8 seed).outcome = .ok solution := by cbv
  have hlength : Graph.sample.reachableNodes.length = 4 := by cbv
  have hagain := solveFrom_of_isRun (.seeded seed (by cbv) (by cbv)) hok (Nat.le_of_eq hlength)
  rw [hlength] at hagain
  exact ⟨hok, hlength, hagain⟩

end DefiniteAssignment.Flow
