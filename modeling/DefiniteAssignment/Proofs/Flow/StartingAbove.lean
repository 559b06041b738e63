import DefiniteAssignment.Proofs.Flow.Monotone
/-!
# Starting above the solution

A run that starts from other facts than the initial ones evaluates other nodes in another order, and
where it ends depends on where it starts: facts that stand are never left, whichever solution they
are. If the problem is monotone, it is enough that no output is less at the start than in the
solution that is found from the initial facts (`Solution.SeedsAbove`). The run then ends there:

> `solveFrom_eq_of_seedsAbove`

Evaluations keep outputs above those of the solution (`above_of_start`), so that the run ends no
lower; and what it comes to solves the flow equations, of which there is no greater solution.

Nothing is asked of what the evaluations that led to the seed have transferred, as long as it was no
less. A problem that has been solved with transfers that give too much thus leaves a seed, although
what it came to need not solve any equations of the problem at hand.
-/

namespace DefiniteAssignment.Flow

variable {F : Type} [PartialOrder F] {g : Graph} {p : Problem F} {solution seed : Solution F}

/-- Facts for all nodes, with no output below the one of a solution as far as control can get. -/
structure Solution.SeedsAbove (g : Graph) (solution seed : Solution F) : Prop where
  size_before : seed.before.size = g.size
  size_after : seed.after.size = g.size
  le_after : ∀ n, g.Reaches n → ∀ fact fact', solution.after[n]? = some fact →
    seed.after[n]? = some fact' → fact ≤ fact'

/-- Outputs that are above those of a solution as far as control can get. -/
def Problem.Above (p : Problem F) (g : Graph) (solution : Solution F) (after : Array F) : Prop :=
  ∀ n, g.Reaches n → p.outputAt solution.after n ≤ p.outputAt after n

variable [DecidableEq F] {limit limit' : Nat}

theorem Solution.SeedsAbove.above (h : solution.SeedsAbove g seed)
    (hok : (solve g p limit).outcome = .ok solution) : p.Above g solution seed.after := by
  intro n hn
  have hafter := (IsRun.initial.facts_eq hok hn).2
  have hseed : n < seed.after.size := h.size_after.symm ▸ hn.lt_size
  rw [Problem.outputAt, Problem.outputAt, hafter, Array.getElem?_eq_getElem hseed]
  exact h.le_after n hn _ _ hafter (Array.getElem?_eq_getElem hseed)

/-- A run ends above a solution if it starts above it and its transfers give no less. -/
theorem above_of_start (hp : p.IsMonotone) (hok : (solve g p limit).outcome = .ok solution)
    {transfer : Nat → F → F} (htransfer : ∀ n fact, p.transfer n fact ≤ transfer n fact)
    {before after : Array F} (hstart : p.Above g solution after) {last : Solution F}
    (hlast : (run g { p with transfer } limit' limit' (.start g before after)).outcome = .ok last) :
    p.Above g solution last.after := by
  refine output_of_start (p := { p with transfer })
    (R := fun n fact => g.Reaches n → p.outputAt solution.after n ≤ fact) hstart ?_ hlast
  intro after n _ habove hn
  calc p.outputAt solution.after n
      = p.transfer n (p.inputAt g solution.after n) := IsRun.initial.outputAt_eq hok hn
    _ ≤ p.transfer n (p.inputAt g after n) := hp.transfer_mono n (hp.inputFrom_mono habove n)
    _ ≤ transfer n (p.inputAt g after n) := htransfer n _

/-- A run from above a solution comes to it: to nothing less, since it stays above it, and to
nothing greater, since what it comes to solves the equations too. -/
theorem facts_eq_of_seedsAbove (hp : p.IsMonotone) (hok : (solve g p limit).outcome = .ok solution)
    (hseed : solution.SeedsAbove g seed) {warm : Solution F}
    (hwarm : (solveFrom g p limit' seed).outcome = .ok warm) {n : Nat} (hn : g.Reaches n) :
    warm.before[n]? = solution.before[n]? ∧ warm.after[n]? = solution.after[n]? := by
  have hrun : IsRun g p limit' (solveFrom g p limit' seed) :=
    .seeded seed hseed.size_before hseed.size_after
  have hsolves := Problem.solves_inputAt fun n hn => (hrun.facts_eq hwarm (n := n) hn).2
  have hbelow := hp.output_le hsolves hok
  have habove : p.Above g solution warm.after := by
    rw [solveFrom, if_pos hseed.size_before] at hwarm
    exact above_of_start hp hok (fun n fact => le_refl _) (hseed.above hok) hwarm
  have hinput : p.inputAt g warm.after n = p.inputAt g solution.after n :=
    le_antisymm (hp.inputFrom_mono hbelow n) (hp.inputFrom_mono habove n)
  obtain ⟨hbefore, hafter⟩ := hrun.facts_eq hwarm hn
  obtain ⟨hbefore', hafter'⟩ := IsRun.initial.facts_eq hok hn
  rw [hbefore, hbefore', hafter, hafter', hinput]
  exact ⟨rfl, rfl⟩

/-- With transfers that give no less a problem comes to facts above its solution. -/
theorem seedsAbove_of_transfer_le (hp : p.IsMonotone)
    (hok : (solve g p limit).outcome = .ok solution) {transfer : Nat → F → F}
    (htransfer : ∀ n fact, p.transfer n fact ≤ transfer n fact)
    (hseed : (solve g { p with transfer } limit').outcome = .ok seed) :
    solution.SeedsAbove g seed := by
  have hinitial : p.Above g solution (Array.replicate g.size p.initialFact) := by
    intro n _
    rw [p.outputAt_replicate]
    exact hp.le_initialFact _
  have habove := above_of_start hp hok htransfer hinitial hseed
  obtain ⟨s, hs, -, rfl⟩ := IsRun.initial.exists_last_state hseed
  refine ⟨hs.size_before, hs.size_after, ?_⟩
  intro n hn fact fact' hfact hfact'
  have hle := habove n hn
  rwa [Problem.outputAt, Problem.outputAt, hfact, hfact'] at hle

/-- A run from above a solution comes to it, and the same problem with transfers that give no less
comes to such a start. -/
theorem solveFrom_eq_of_seedsAbove (hp : p.IsMonotone)
    (hok : (solve g p limit).outcome = .ok solution) :
    (∀ seed, solution.SeedsAbove g seed → ∀ limit' warm,
      (solveFrom g p limit' seed).outcome = .ok warm → ∀ n, g.Reaches n →
        warm.before[n]? = solution.before[n]? ∧ warm.after[n]? = solution.after[n]?) ∧
    ∀ transfer, (∀ n fact, p.transfer n fact ≤ transfer n fact) → ∀ limit' seed,
      (solve g { p with transfer } limit').outcome = .ok seed → solution.SeedsAbove g seed := by
  constructor
  · intro seed hseed limit' warm hwarm n hn
    exact facts_eq_of_seedsAbove hp hok hseed hwarm hn
  · intro transfer htransfer limit' seed hseed
    exact seedsAbove_of_transfer_le hp hok htransfer hseed

/-- On every path to node 3 control passes node 1 or node 2. A run that starts from this finds that
it need not pass node 1. -/
theorem solveFrom_above_sample :
    let solution : Solution Bool :=
      ⟨#[false, false, false, false, true], #[false, true, false, false, true], 6⟩
    let transfer : Nat → Bool → Bool := fun n fact => fact || n == 1 || n == 2
    let seed : Solution Bool :=
      ⟨#[false, false, false, true, true], #[false, true, true, true, true], 4⟩
    let warm : Solution Bool := ⟨solution.before, solution.after, 6⟩
    (solve .sample (Problem.passed 1) 100).outcome = .ok solution ∧
      (∀ n fact, (Problem.passed 1).transfer n fact ≤ transfer n fact) ∧
      (solve .sample { Problem.passed 1 with transfer } 100).outcome = .ok seed ∧
      solution.SeedsAbove .sample seed ∧
      (solveFrom .sample (Problem.passed 1) 100 seed).outcome = .ok warm ∧
      Graph.sample.Reaches 3 ∧
      warm.before[3]? = solution.before[3]? ∧ warm.after[3]? = solution.after[3]? := by
  intro solution transfer seed warm
  have hok : (solve .sample (Problem.passed 1) 100).outcome = .ok solution := by cbv
  have htransfer : ∀ n fact, (Problem.passed 1).transfer n fact ≤ transfer n fact := by
    intro n fact htrue
    exact Bool.or_eq_true_iff.2 (.inl htrue)
  have hseed : (solve .sample { Problem.passed 1 with transfer } 100).outcome = .ok seed := by cbv
  have hwarm : (solveFrom .sample (Problem.passed 1) 100 seed).outcome = .ok warm := by cbv
  have hreaches : Graph.sample.Reaches 3 := Graph.isReachable_iff.1 (by cbv)
  obtain ⟨heq, hweaker⟩ := solveFrom_eq_of_seedsAbove (Problem.isMonotone_passed 1) hok
  have habove := hweaker transfer htransfer 100 seed hseed
  exact ⟨hok, htransfer, hseed, habove, hwarm, hreaches, heq seed habove 100 warm hwarm 3 hreaches⟩

end DefiniteAssignment.Flow
