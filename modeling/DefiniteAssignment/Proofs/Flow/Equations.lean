import Mathlib.Data.List.Permutation
import DefiniteAssignment.Proofs.Flow.Worklist
/-!
# Flow equations

`Problem.Solves` states the equations of a forward problem on two functions from nodes to facts,
one for each side: what flows out of a node is its transfer of what flows in, and what flows in is
what flows out of the predecessors, merged from the least to the greatest, after the entry fact if
the node is the entry. Only predecessors that control can get to count.

However a run starts, and whatever its merge and its transfer are, what it comes to solves them:

> `solves_of_isRun`

Nothing is asked of the two functions, so that nothing can be said of which solution it is. For that
there is `output_of_solve`: what every evaluation hands on from the outputs that it reads holds of
all outputs of the solution.
-/

namespace DefiniteAssignment

/-- `l` holds, in ascending order, the predecessors of `n` that control can get to. -/
structure Graph.ReachablePreds (g : Graph) (n : Nat) (l : List Nat) : Prop where
  ascending : l.Pairwise (· < ·)
  mem_iff : ∀ q, q ∈ l ↔ g.Reaches q ∧ n ∈ g.succ q

theorem Graph.reachablePreds_reachablePred (g : Graph) (n : Nat) :
    g.ReachablePreds n (g.reachablePred n) :=
  ⟨pairwise_reachablePred n, fun _ => mem_reachablePred.trans And.comm⟩

namespace Flow

variable {F : Type} {g : Graph} {p : Problem F}

/-- `input` and `output` solve the flow equations at all nodes that control can get to. -/
structure Problem.Solves (p : Problem F) (g : Graph) (input output : Nat → F) : Prop where
  /-- The entry fact comes first at the entry. -/
  input_entry : ∀ n, g.entry = some n → ∃ preds, g.ReachablePreds n preds ∧
    input n = preds.foldl (fun fact q => p.merge fact (output q)) p.entryFact
  /-- Every other node has a predecessor, and the least one comes first. -/
  input_inner : ∀ n, g.Reaches n → g.entry ≠ some n → ∃ q preds, g.ReachablePreds n (q :: preds) ∧
    input n = preds.foldl (fun fact r => p.merge fact (output r)) (output q)
  output_eq : ∀ n, g.Reaches n → output n = p.transfer n (input n)

/-- The runs of a problem within a limit: from its initial facts, and from those of a solution that
has as many nodes as the graph. -/
inductive IsRun [DecidableEq F] (g : Graph) (p : Problem F) (limit : Nat) : Run F → Prop
  | initial : IsRun g p limit (solve g p limit)
  | seeded (seed : Solution F) (hbefore : seed.before.size = g.size)
      (hafter : seed.after.size = g.size) : IsRun g p limit (solveFrom g p limit seed)

/-- The output of a node as it stands in an array. -/
def Problem.outputAt (p : Problem F) (after : Array F) (n : Nat) : F :=
  after[n]?.getD p.initialFact

theorem Problem.outputAt_of_eq_some {after : Array F} {n : Nat} {fact : F}
    (h : after[n]? = some fact) (p : Problem F) : p.outputAt after n = fact := by
  rw [outputAt, h, Option.getD_some]

theorem Problem.getElem?_eq_outputAt {after : Array F} {n : Nat} (h : n < after.size)
    (p : Problem F) : after[n]? = some (p.outputAt after n) := by
  rw [outputAt, Array.getElem?_eq_getElem h, Option.getD_some]

/-- A run starts from the initial fact everywhere. -/
theorem Problem.outputAt_replicate (p : Problem F) (size n : Nat) :
    p.outputAt (Array.replicate size p.initialFact) n = p.initialFact := by
  unfold outputAt
  rw [Array.getElem?_replicate]
  split <;> rfl

theorem Problem.inputAt_entry {n : Nat} (h : g.entry = some n) (p : Problem F) (after : Array F) :
    p.inputAt g after n =
      (g.reachablePred n).foldl (fun fact q => p.merge fact (p.outputAt after q)) p.entryFact := by
  rw [inputAt, if_pos h, List.singleton_append, mergeAll, List.foldl_map]
  rfl

theorem Problem.inputAt_inner {n q : Nat} {preds : List Nat} (h : g.entry ≠ some n)
    (hpreds : g.reachablePred n = q :: preds) (p : Problem F) (after : Array F) :
    p.inputAt g after n =
      preds.foldl (fun fact r => p.merge fact (p.outputAt after r)) (p.outputAt after q) := by
  rw [inputAt, if_neg h, List.nil_append, hpreds, List.map_cons, mergeAll, List.foldl_map]
  rfl

/-- Inputs and outputs as a solver works them out solve the equations. -/
theorem Problem.solves_inputAt {after : Array F}
    (h : ∀ n, g.Reaches n → after[n]? = some (p.transfer n (p.inputAt g after n))) :
    p.Solves g (p.inputAt g after) (p.outputAt after) where
  input_entry n he :=
    ⟨g.reachablePred n, g.reachablePreds_reachablePred n, inputAt_entry he p after⟩
  input_inner n hn hne := by
    obtain ⟨q, preds, hpreds⟩ := List.exists_cons_of_ne_nil (hn.reachablePred_ne_nil hne)
    exact ⟨q, preds, hpreds ▸ g.reachablePreds_reachablePred n, inputAt_inner hne hpreds p after⟩
  output_eq n hn := by
    rw [outputAt, h n hn]
    rfl

section Runs

variable [DecidableEq F] {limit : Nat} {r : Run F} {solution : Solution F}

/-- What holds when a run starts and is kept by every step holds when it comes to a solution; and
then no node waits. -/
theorem IsRun.exists_last_state (h : IsRun g p limit r) (hok : r.outcome = .ok solution) :
    ∃ s, State.Valid g p s ∧ s.queue = [] ∧ solution = ⟨s.before, s.after, s.steps⟩ := by
  have hstep : ∀ s n rest, State.Valid g p s → s.queue = n :: rest → State.Valid g p (s.step g p) :=
    fun s n rest hs hq => hs.step hq
  cases h with
  | initial =>
    exact Flow.exists_last_state hstep
      (State.valid_start Array.size_replicate Array.size_replicate p) hok
  | seeded seed hbefore hafter =>
    rw [solveFrom, if_pos hbefore] at hok
    exact Flow.exists_last_state hstep (State.valid_start hbefore hafter p) hok

/-- When no node waits, all nodes that control can get to have the facts that are called for. -/
theorem IsRun.facts_eq (h : IsRun g p limit r) (hok : r.outcome = .ok solution) {n : Nat}
    (hn : g.Reaches n) : solution.before[n]? = some (p.inputAt g solution.after n) ∧
      solution.after[n]? = some (p.transfer n (p.inputAt g solution.after n)) := by
  obtain ⟨s, hs, hempty, rfl⟩ := h.exists_last_state hok
  exact hs.settled n hn (by rw [hempty]; simp)

theorem IsRun.outputAt_eq (h : IsRun g p limit r) (hok : r.outcome = .ok solution) {n : Nat}
    (hn : g.Reaches n) :
    p.outputAt solution.after n = p.transfer n (p.inputAt g solution.after n) :=
  Problem.outputAt_of_eq_some (h.facts_eq hok hn).2 p

/-- Whatever the problem is and wherever a run starts, what it comes to solves the equations. -/
theorem solves_of_isRun (h : IsRun g p limit r) (hok : r.outcome = .ok solution) :
    ∃ input output, p.Solves g input output ∧ ∀ n, g.Reaches n →
      solution.before[n]? = some (input n) ∧ solution.after[n]? = some (output n) := by
  have hfacts := fun n hn => h.facts_eq hok (n := n) hn
  refine ⟨_, _, Problem.solves_inputAt fun n hn => (hfacts n hn).2, ?_⟩
  intro n hn
  refine ⟨(hfacts n hn).1, ?_⟩
  rw [Problem.outputAt, (hfacts n hn).2]
  rfl

/-- The words of a merge stand in the order of the predecessors. -/
theorem solves_sample :
    let p : Problem (List Nat) := ⟨[], [], fun a b => a ++ b.take 1, fun n l => (n :: l).take 2⟩
    ∃ input output, p.Solves .sample input output ∧ input 3 = [1, 0, 2] ∧ output 3 = [3, 1] := by
  intro p
  let seed : Solution (List Nat) := ⟨#[[1], [2], [3], [4], [5]], #[[1], [2], [3], [4], [5]], 0⟩
  have hok : (solveFrom .sample p 100 seed).outcome =
      .ok ⟨#[[3], [0, 3, 2], [0, 3, 1], [1, 0, 2], [5]],
        #[[0, 3], [1, 0], [2, 0], [3, 1], [5]], 8⟩ := by cbv
  have hreaches : Graph.sample.Reaches 3 := Graph.isReachable_iff.1 (by cbv)
  obtain ⟨input, output, hsolves, hfacts⟩ :=
    solves_of_isRun (.seeded seed (by cbv) (by cbv)) hok
  obtain ⟨hin, hout⟩ := hfacts 3 hreaches
  exact ⟨input, output, hsolves, (Option.some.inj hin).symm, (Option.some.inj hout).symm⟩

/-- What holds of all outputs that a run starts with, and is handed on by every evaluation, holds of
all outputs of the solution. -/
theorem output_of_start {R : Nat → F → Prop} {before after : Array F}
    (hstart : ∀ n, R n (p.outputAt after n))
    (hstep : ∀ after n, g.Reaches n → (∀ q, R q (p.outputAt after q)) →
      R n (p.transfer n (p.inputAt g after n)))
    (hok : (run g p limit limit (.start g before after)).outcome = .ok solution) (n : Nat) :
    R n (p.outputAt solution.after n) := by
  have hkept : ∀ s n rest, (State.Waits g s ∧ ∀ q, R q (p.outputAt s.after q)) →
      s.queue = n :: rest →
      State.Waits g (s.step g p) ∧ ∀ q, R q (p.outputAt (s.step g p).after q) := by
    intro s n rest hinv hq
    obtain ⟨hw, hs⟩ := hinv
    have he := hw.step hq p
    refine ⟨he.waits, ?_⟩
    intro q
    rw [he.after_eq, Problem.outputAt, Array.getElem?_setIfInBounds]
    split
    next hqn =>
      subst hqn
      split
      next => exact hstep s.after n (hw.reaches n (hq ▸ List.mem_cons_self ..)) hs
      next hout =>
        rw [← Array.getElem?_eq_none (Nat.le_of_not_lt hout)]
        exact hs n
    next => exact hs q
  obtain ⟨s, ⟨-, hs⟩, -, rfl⟩ :=
    Flow.exists_last_state hkept ⟨State.waits_start .., hstart⟩ hok
  exact hs n

/-- What every evaluation hands on holds of all outputs of a solution that is found from the initial
facts. -/
theorem output_of_solve {R : Nat → F → Prop} (hinitial : ∀ n, R n p.initialFact)
    (hstep : ∀ after n, g.Reaches n → (∀ q, R q (p.outputAt after q)) →
      R n (p.transfer n (p.inputAt g after n)))
    (hok : (solve g p limit).outcome = .ok solution) (n : Nat) :
    R n (p.outputAt solution.after n) := by
  refine output_of_start (fun q => ?_) hstep hok n
  rw [p.outputAt_replicate]
  exact hinitial q

end Runs

end Flow

end DefiniteAssignment
