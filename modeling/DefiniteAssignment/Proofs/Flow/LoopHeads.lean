import DefiniteAssignment.Proofs.Flow.Limits
/-!
# Between two evaluations

What holds of a run each time it looks for a node to evaluate, and not only when it has come to a
solution. A head is a state in which a run does that (`IsHead`): the one it starts in, from the
initial facts or from those of a solution with as many nodes, and the one after each evaluation that
it may make. What a run comes to is read off a head, the one in which it stops.

Whatever the merge and the transfer are, at every head the queue and its marks agree, what waits can
be reached and can be evaluated without a look beyond the end of an array, and every node that does
not wait solves its two equations with the outputs as they stand (`State.Consistent`):

> `consistent_of_isHead`

The facts of a node that waits may be any. A node that is evaluated solves its equations. If that
changes its output, the nodes that read it wait afterwards, whether they did before or are put at
the end of the queue, and the node itself is among them if it has an edge to itself. This is what
one step does to a run (`State.Valid.step`), and the heads are reached by steps.
-/

namespace DefiniteAssignment.Flow

variable {F : Type} {g : Graph} {p : Problem F} {s : State F} {limit k n : Nat}

/-- `input` and `output` solve the two flow equations of a node. -/
structure Problem.SolvesAt (p : Problem F) (g : Graph) (input output : Nat → F) (n : Nat) :
    Prop where
  /-- At the entry, the outputs of the predecessors are merged into the entry fact. -/
  input_entry : g.entry = some n → ∃ preds, g.ReachablePreds n preds ∧
    input n = preds.foldl (fun fact q => p.merge fact (output q)) p.entryFact
  /-- Elsewhere, they are merged into the output of the least predecessor. -/
  input_inner : g.entry ≠ some n → ∃ q preds, g.ReachablePreds n (q :: preds) ∧
    input n = preds.foldl (fun fact r => p.merge fact (output r)) (output q)
  output_eq : output n = p.transfer n (input n)

/-- A node that has the facts that its equations call for solves them. -/
theorem Problem.solvesAt_of_eq_inputAt {input : Nat → F} {after : Array F} (hn : g.Reaches n)
    (hinput : input n = p.inputAt g after n)
    (houtput : p.outputAt after n = p.transfer n (p.inputAt g after n)) :
    p.SolvesAt g input (p.outputAt after) n where
  input_entry he :=
    ⟨g.reachablePred n, g.reachablePreds_reachablePred n, hinput.trans (inputAt_entry he p after)⟩
  input_inner hne := by
    obtain ⟨q, preds, hpreds⟩ := List.exists_cons_of_ne_nil (hn.reachablePred_ne_nil hne)
    exact ⟨q, preds, hpreds ▸ g.reachablePreds_reachablePred n,
      hinput.trans (inputAt_inner hne hpreds p after)⟩
  output_eq := by rw [houtput, hinput]

namespace State

/-- What a run can rely on when it looks for a node to evaluate. -/
structure Consistent (g : Graph) (p : Problem F) (s : State F) : Prop extends Waits g s where
  length_queue_le : s.queue.length ≤ g.reachableNodes.length
  size_before : s.before.size = g.size
  size_after : s.after.size = g.size
  inRange : ∀ n ∈ s.queue, s.InRange g n
  /-- Of the nodes that control can get to, those that do not wait solve their equations. -/
  settled : ∃ input output,
    (∀ n < g.size, s.before[n]? = some (input n) ∧ s.after[n]? = some (output n)) ∧
    ∀ n, g.Reaches n → n ∉ s.queue → p.SolvesAt g input output n

/-- No more nodes can wait than control can get to. -/
theorem Waits.length_queue_le (h : Waits g s) : s.queue.length ≤ g.reachableNodes.length :=
  h.nodup.length_le_of_subset fun n hn => Graph.mem_reachableNodes.2 (h.reaches n hn)

theorem Valid.consistent (h : Valid g p s) : Consistent g p s := by
  refine ⟨h.waits, h.waits.length_queue_le, h.size_before, h.size_after, fun n => h.inRange, ?_⟩
  refine ⟨p.outputAt s.before, p.outputAt s.after, ?_, ?_⟩
  · intro n hn
    exact ⟨Problem.getElem?_eq_outputAt (h.size_before.symm ▸ hn) p,
      Problem.getElem?_eq_outputAt (h.size_after.symm ▸ hn) p⟩
  · intro n hn hnot
    obtain ⟨hbefore, hafter⟩ := h.settled n hn hnot
    exact Problem.solvesAt_of_eq_inputAt hn (Problem.outputAt_of_eq_some hbefore p)
      (Problem.outputAt_of_eq_some hafter p)

end State

variable [DecidableEq F]

/-- The states in which the runs of a problem within a limit look for a node to evaluate. -/
inductive IsHead (g : Graph) (p : Problem F) (limit : Nat) : State F → Prop
  | initial : IsHead g p limit (initialState g p)
  | seeded (seed : Solution F) (hbefore : seed.before.size = g.size)
      (hafter : seed.after.size = g.size) : IsHead g p limit (.start g seed.before seed.after)
  | step {s : State F} (h : IsHead g p limit s) (hwaiting : s.queue ≠ [])
      (hlimit : s.steps < limit) : IsHead g p limit (s.step g p)

theorem IsHead.valid (h : IsHead g p limit s) : State.Valid g p s := by
  induction h with
  | initial => exact State.valid_start Array.size_replicate Array.size_replicate p
  | seeded seed hbefore hafter => exact State.valid_start hbefore hafter p
  | step _ hwaiting _ ih =>
    obtain ⟨n, rest, hq⟩ := List.exists_cons_of_ne_nil hwaiting
    exact ih.step hq

/-- As long as the limit allows for it, a run goes on from head to head. -/
theorem IsHead.afterSteps (h : IsHead g p limit s) (hk : s.steps + k ≤ limit) :
    IsHead g p limit (s.afterSteps g p k) ∧ (s.afterSteps g p k).steps ≤ s.steps + k := by
  induction k with
  | zero => exact ⟨h, Nat.le_refl _⟩
  | succ k ih =>
    obtain ⟨hhead, hsteps⟩ := ih (by omega)
    rw [State.afterSteps_succ_last]
    by_cases hempty : (s.afterSteps g p k).queue = []
    · rw [State.step_of_empty hempty]
      exact ⟨hhead, by omega⟩
    · have hone := State.steps_step hempty g p
      exact ⟨hhead.step hempty (by omega), by omega⟩

/-- A run is read off the head in which it stops. -/
theorem IsRun.exists_isHead {r : Run F} (h : IsRun g p limit r) :
    ∃ s, IsHead g p limit s ∧ r = s.result limit := by
  have hlast : ∀ s, IsHead g p limit s → s.steps = 0 →
      ∃ s', IsHead g p limit s' ∧ run g p limit limit s = s'.result limit := by
    intro s hs hzero
    exact ⟨_, (hs.afterSteps (by omega)).1, run_eq_result g p limit limit s⟩
  cases h with
  | initial => exact hlast _ .initial rfl
  | seeded seed hbefore hafter =>
    rw [solveFrom, if_pos hbefore]
    exact hlast _ (.seeded seed hbefore hafter) rfl

/-- However a run starts and whatever its problem is, it is consistent at every head; and it comes
to what is read off one of them. -/
theorem consistent_of_isHead (g : Graph) (p : Problem F) (limit : Nat) :
    (∀ s, IsHead g p limit s → s.Consistent g p) ∧
      ∀ r, IsRun g p limit r → ∃ s, IsHead g p limit s ∧ r = s.result limit :=
  ⟨fun _ h => h.valid.consistent, fun _ h => h.exists_isHead⟩

/-- Three evaluations are allowed. After them node 1 waits again, because the output of node 2 has
changed, and node 3 still waits, although it has not seen the outputs of its predecessors. Node 2 is
settled: its words are those that the new outputs of nodes 0 and 1 call for. -/
theorem consistent_of_isHead_sample :
    let p : Problem (List Nat) := ⟨[], [], fun a b => a ++ b.take 1, fun n l => (n :: l).take 2⟩
    let seed : Solution (List Nat) :=
      ⟨#[[1], [2], [3], [4], [5]], #[[1], [2], [3], [4], [5]], 0⟩
    let s := (State.start .sample seed.before seed.after).afterSteps .sample p 3
    IsHead .sample p 3 s ∧ s.Consistent .sample p ∧ s.queue = [3, 1] ∧ Graph.sample.Reaches 2 ∧
      (∃ input output, p.SolvesAt .sample input output 2 ∧ input 2 = [0, 4, 1] ∧
        output 1 = [1, 0]) ∧
      IsRun .sample p 3 (solveFrom .sample p 3 seed) ∧
      ∃ s', IsHead .sample p 3 s' ∧ solveFrom .sample p 3 seed = s'.result 3 := by
  intro p seed s
  have hstart : IsHead .sample p 3 (.start .sample seed.before seed.after) :=
    .seeded seed (by cbv) (by cbv)
  have hhead : IsHead .sample p 3 s := (hstart.afterSteps (k := 3) (Nat.le_refl 3)).1
  have hrun : IsRun .sample p 3 (solveFrom .sample p 3 seed) := .seeded seed (by cbv) (by cbv)
  have hs : s = (((State.start .sample seed.before seed.after).step .sample p).step .sample p).step
      .sample p := rfl
  have hqueue : s.queue = [3, 1] := by rw [hs]; cbv
  have hbefore : s.before[2]? = some [0, 4, 1] := by rw [hs]; cbv
  have hafter : s.after[1]? = some [1, 0] := by rw [hs]; cbv
  have hreaches : Graph.sample.Reaches 2 := Graph.isReachable_iff.1 (by cbv)
  have hsize : Graph.sample.size = 5 := by cbv
  obtain ⟨hconsistent, hstops⟩ := consistent_of_isHead .sample p 3
  obtain ⟨input, output, hfacts, hsolves⟩ := (hconsistent s hhead).settled
  have hinput := (hfacts 2 (by omega)).1
  have houtput := (hfacts 1 (by omega)).2
  rw [hbefore] at hinput
  rw [hafter] at houtput
  exact ⟨hhead, hconsistent s hhead, hqueue, hreaches,
    ⟨input, output, hsolves 2 hreaches (by rw [hqueue]; decide), (Option.some.inj hinput).symm,
      (Option.some.inj houtput).symm⟩, hrun, hstops _ hrun⟩

end DefiniteAssignment.Flow
