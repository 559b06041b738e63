import DefiniteAssignment.Proofs.Flow.Steps
import DefiniteAssignment.Proofs.Graph.Acyclic
/-!
# Runs on graphs without cycles

On a graph without cycles a run takes one evaluation for each node that control can get to, in
reverse post order, whatever the problem is and wherever the run starts:

> `events_of_isRun_of_acyclic`

Nothing is asked of merge and transfer, so that the output of any node may change when it is
evaluated. But the successors of a node come after it in the order, and until they are evaluated
they wait anyway. So no evaluation lets a node wait, and what has been evaluated is at any time what
the queue has lost at its front (`State.Sweeps`).
-/

namespace DefiniteAssignment.Flow

variable {F : Type} {g : Graph} {p : Problem F} {s : State F} {n : Nat} {rest : List Nat}

namespace State

/-- The nodes that have been evaluated, and behind them the nodes that wait, are the reverse post
order. -/
structure Sweeps (g : Graph) (s : State F) : Prop where
  waits : Waits g s
  order_eq : g.reversePostOrder = s.trail.reverse.map (·.node) ++ s.queue

theorem sweeps_start (g : Graph) (before after : Array F) : Sweeps g (.start g before after) where
  waits := waits_start g before after
  order_eq := rfl

theorem Sweeps.steps_add (h : Sweeps g s) :
    s.steps + s.queue.length = g.reachableNodes.length := by
  rw [← g.length_reversePostOrder, h.order_eq, List.length_append, List.length_map,
    List.length_reverse, steps]

variable [DecidableEq F]

/-- If all successors of the evaluated node wait, no node is added to the queue. -/
theorem Waits.queue_step_of_subset (h : Waits g s) (hq : s.queue = n :: rest)
    (hsucc : g.succ n ⊆ rest) (p : Problem F) : (s.step g p).queue = rest := by
  obtain ⟨added, hsub, hqueue, -⟩ := queue_step hq g p
  have hnodup := (h.step hq p).waits.nodup
  rw [hqueue, List.nodup_append] at hnodup
  have hnone : added = [] := by
    refine List.eq_nil_iff_forall_not_mem.2 fun m hm => ?_
    exact hnodup.2.2 m (hsucc (hsub.subset hm)) m hm rfl
  rw [hqueue, hnone, List.append_nil]

/-- A step takes the next node of the order from the queue. -/
theorem Sweeps.step (hacyclic : g.Acyclic) (h : Sweeps g s) (hq : s.queue = n :: rest)
    (p : Problem F) : Sweeps g (s.step g p) := by
  have he := h.waits.step hq p
  have horder := h.order_eq
  rw [hq] at horder
  refine ⟨he.waits, ?_⟩
  rw [h.waits.queue_step_of_subset hq (hacyclic.succ_subset horder), he.trail_eq, horder,
    List.reverse_cons, List.map_append, List.append_assoc]
  rfl

end State

variable [DecidableEq F]

/-- From any facts, a run that may take as many steps as there are nodes to evaluate comes to a
solution, and its events are those of the order. -/
theorem exists_solution_of_acyclic (hacyclic : g.Acyclic) {limit : Nat}
    (hlimit : g.reachableNodes.length ≤ limit) (p : Problem F) (before after : Array F) :
    ∃ solution, (run g p limit limit (.start g before after)).outcome = .ok solution ∧
      solution.steps = g.reachableNodes.length ∧
      (run g p limit limit (.start g before after)).events.map (·.node) = g.reversePostOrder := by
  have hstart := State.sweeps_start g before after
  have hstep : ∀ (s : State F) n rest, State.Sweeps g s → s.queue = n :: rest →
      State.Sweeps g (s.step g p) := fun s n rest hs hq => hs.step hacyclic hq p
  obtain ⟨s, -, hok⟩ : ∃ s, State.Sweeps g s ∧
      (run g p limit limit (.start g before after)).outcome = .ok ⟨s.before, s.after, s.steps⟩ :=
    exists_last_state_of_bound
      (fun s n rest hs hq => ⟨hstep s n rest hs hq, (hs.waits.step hq p).steps_eq⟩)
      (fun s hs => Nat.le_of_eq hs.steps_add) hstart (Nat.le_trans hlimit (Nat.le_add_left ..))
  obtain ⟨s', hs', hevents, hlast⟩ := exists_stop hstep limit hstart
  obtain ⟨hempty, hsolution⟩ := hlast _ hok
  have hsteps := hs'.steps_add
  have horder := hs'.order_eq
  rw [hempty, List.length_nil, Nat.add_zero] at hsteps
  rw [hempty, List.append_nil] at horder
  exact ⟨_, hok, (congrArg Solution.steps hsolution).trans hsteps, hevents ▸ horder.symm⟩

/-- On a graph without cycles, every run that may take as many steps as there are nodes that control
can get to comes to a solution. It evaluates each of these nodes once, in reverse post order, and
this is all that it does. -/
theorem events_of_isRun_of_acyclic (hacyclic : g.Acyclic) {limit : Nat}
    (hlimit : g.reachableNodes.length ≤ limit) {r : Run F} (h : IsRun g p limit r) :
    ∃ solution, r.outcome = .ok solution ∧ solution.steps = g.reachableNodes.length ∧
      r.events.map (·.node) = g.reversePostOrder ∧
      (r.events.map (·.node)).Perm g.reachableNodes := by
  obtain ⟨solution, hok, hsteps, hevents⟩ : ∃ solution, r.outcome = .ok solution ∧
      solution.steps = g.reachableNodes.length ∧ r.events.map (·.node) = g.reversePostOrder := by
    cases h with
    | initial => exact exists_solution_of_acyclic hacyclic hlimit p _ _
    | seeded seed hbefore _ =>
      rw [solveFrom, if_pos hbefore]
      exact exists_solution_of_acyclic hacyclic hlimit p _ _
  exact ⟨solution, hok, hsteps, hevents, hevents ▸ g.reversePostOrder_perm⟩

/-- Every evaluation changes the output of its node, since all of them find the words of the nodes
before; still no node is evaluated twice. -/
theorem events_of_isRun_diamond :
    let p : Problem (List Nat) := ⟨[], [], fun a b => b ++ a, fun n l => n :: l⟩
    let seed : Solution (List Nat) := ⟨#[[], [], [], [], []], #[[7], [7], [7], [7], [7]], 0⟩
    Graph.diamond.Acyclic ∧ Graph.diamond.reachableNodes.length = 4 ∧
      IsRun .diamond p 4 (solveFrom .diamond p 4 seed) ∧
      (solveFrom .diamond p 4 seed).events.map (·.changed) = [true, true, true, true] ∧
      ∃ solution, (solveFrom .diamond p 4 seed).outcome = .ok solution ∧ solution.steps = 4 ∧
        (solveFrom .diamond p 4 seed).events.map (·.node) = [3, 1, 0, 2] := by
  intro p seed
  have hlength : Graph.diamond.reachableNodes.length = 4 := by cbv
  have horder : Graph.diamond.reversePostOrder = [3, 1, 0, 2] := by cbv
  have hrun : IsRun .diamond p 4 (solveFrom .diamond p 4 seed) := .seeded seed (by cbv) (by cbv)
  obtain ⟨solution, hok, hsteps, hevents, -⟩ :=
    events_of_isRun_of_acyclic Graph.acyclic_diamond (Nat.le_of_eq hlength) hrun
  exact ⟨Graph.acyclic_diamond, hlength, hrun, by cbv, solution, hok, hsteps.trans hlength,
    hevents.trans horder⟩

end DefiniteAssignment.Flow
