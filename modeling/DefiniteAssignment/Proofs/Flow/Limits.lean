import DefiniteAssignment.Proofs.Flow.Steps
/-!
# Limits of runs

A run without a limit is the sequence of states that steps lead through (`State.afterSteps`); when
no node waits any more it stays where it is. A limit says how far to go along that sequence and
nothing else: `run_eq_result` reads a run off the state after as many steps as it may take, whether
or not it came to its end before.

So a run that comes to a solution comes to the same one, by the same events, with any greater limit
(`solve_eq_of_le`). A run that does not has used up its limit, and its events are the first of those
of any longer run (`exceeds_of_solve`). It comes to a solution exactly if the limit is no less than
the number of evaluations that it takes without one (`exists_solution_iff_takes`).
-/

namespace DefiniteAssignment.Flow

variable {F : Type} {g : Graph} {p : Problem F} {s : State F} {j k limit : Nat}

namespace State

/-- Making nodes wait is no event. -/
theorem trail_enqueue (s : State F) (nodes : List Nat) : (s.enqueue nodes).trail = s.trail := by
  induction nodes generalizing s with
  | nil => rfl
  | cons n nodes ih =>
    unfold enqueue at ih ⊢
    rw [List.foldl_cons, ih]
    split <;> rfl

/-- What a run comes to if it has to stop in a state. -/
def result (s : State F) (limit : Nat) : Run F :=
  if s.queue.isEmpty then ⟨.ok ⟨s.before, s.after, s.steps⟩, s.trail.reverse⟩
  else ⟨.error (.divergence s.steps limit), s.trail.reverse⟩

/-- Once no node waits, the result is a solution, whatever the limit. -/
theorem result_of_empty (h : s.queue = []) (limit : Nat) :
    s.result limit = ⟨.ok ⟨s.before, s.after, s.steps⟩, s.trail.reverse⟩ := by
  rw [result, h]
  rfl

/-- While a node waits, the result is a failure that names the limit. -/
theorem result_of_waiting (h : s.queue ≠ []) (limit : Nat) :
    s.result limit = ⟨.error (.divergence s.steps limit), s.trail.reverse⟩ := by
  rw [result, if_neg (mt List.isEmpty_iff.1 h)]

/-- The events of a result are those so far, from the first to the last. -/
theorem events_result (s : State F) (limit : Nat) : (s.result limit).events = s.trail.reverse := by
  unfold result
  split <;> rfl

/-- There is a solution only if no node waits. -/
theorem queue_eq_nil_of_result {solution : Solution F}
    (hok : (s.result limit).outcome = .ok solution) : s.queue = [] := by
  by_contra hne
  rw [result_of_waiting hne] at hok
  cases hok

variable [DecidableEq F]

/-- A step records the evaluation of the node that has waited longest. -/
theorem trail_step_eq {n : Nat} {rest : List Nat} (hq : s.queue = n :: rest) (g : Graph)
    (p : Problem F) : (s.step g p).trail =
      ⟨n, p.inputAt g s.after n, p.transfer n (p.inputAt g s.after n),
        s.after[n]? != some (p.transfer n (p.inputAt g s.after n))⟩ :: s.trail := by
  unfold step
  rw [hq]
  unfold evaluate
  dsimp only
  split
  · exact trail_enqueue _ _
  · rfl

/-- A step from a state in which a node waits makes one event. -/
theorem trail_step (h : s.queue ≠ []) (g : Graph) (p : Problem F) :
    ∃ event, (s.step g p).trail = event :: s.trail := by
  obtain ⟨n, rest, hq⟩ := List.exists_cons_of_ne_nil h
  exact ⟨_, trail_step_eq hq g p⟩

/-- Evaluating a node counts as one step. -/
theorem steps_step (h : s.queue ≠ []) (g : Graph) (p : Problem F) :
    (s.step g p).steps = s.steps + 1 := by
  obtain ⟨event, htrail⟩ := trail_step h g p
  rw [steps, htrail, List.length_cons, steps]

/-- When no node waits, a state stays as it is. -/
theorem step_of_empty (h : s.queue = []) (g : Graph) (p : Problem F) : s.step g p = s := by
  rw [step, h]

/-- The state that a run without a limit is in after `k` steps. -/
def afterSteps (s : State F) (g : Graph) (p : Problem F) (k : Nat) : State F :=
  (fun s => step s g p)^[k] s

theorem afterSteps_succ (s : State F) (g : Graph) (p : Problem F) (k : Nat) :
    s.afterSteps g p (k + 1) = (s.step g p).afterSteps g p k :=
  Function.iterate_succ_apply ..

theorem afterSteps_succ_last (s : State F) (g : Graph) (p : Problem F) (k : Nat) :
    s.afterSteps g p (k + 1) = (s.afterSteps g p k).step g p :=
  Function.iterate_succ_apply' ..

/-- What a step keeps holds after any number of steps. -/
theorem afterSteps_of_step {inv : State F → Prop}
    (hstep : ∀ s n rest, inv s → s.queue = n :: rest → inv (s.step g p)) (h : inv s) (k : Nat) :
    inv (s.afterSteps g p k) := by
  induction k with
  | zero => exact h
  | succ k ih =>
    rw [afterSteps_succ_last]
    cases hq : (s.afterSteps g p k).queue with
    | nil => rwa [step_of_empty hq]
    | cons n rest => exact hstep _ n rest ih hq

/-- Where no node waits a run stays. -/
theorem afterSteps_of_empty (h : (s.afterSteps g p j).queue = []) (hjk : j ≤ k) :
    s.afterSteps g p k = s.afterSteps g p j := by
  induction k, hjk using Nat.le_induction with
  | base => rfl
  | succ k _ ih => rw [afterSteps_succ_last, ih, step_of_empty h]

/-- A node that waits after `k` steps waited after fewer of them, if not the same one. -/
theorem waiting_of_le (h : (s.afterSteps g p k).queue ≠ []) (hjk : j ≤ k) :
    (s.afterSteps g p j).queue ≠ [] := by
  intro hempty
  rw [afterSteps_of_empty hempty hjk] at h
  exact h hempty

/-- Events are never taken back. -/
theorem trail_afterSteps (s : State F) (g : Graph) (p : Problem F) (hjk : j ≤ k) :
    (s.afterSteps g p j).trail <:+ (s.afterSteps g p k).trail := by
  induction k, hjk using Nat.le_induction with
  | base => exact List.suffix_refl _
  | succ k _ ih =>
    rw [afterSteps_succ_last]
    by_cases hempty : (s.afterSteps g p k).queue = []
    · rwa [step_of_empty hempty]
    · obtain ⟨event, htrail⟩ := trail_step hempty g p
      rw [htrail]
      exact ih.trans (List.suffix_cons event _)

/-- As long as a node waits, every step is an evaluation. -/
theorem steps_afterSteps (h : ∀ j < k, (s.afterSteps g p j).queue ≠ []) :
    (s.afterSteps g p k).steps = s.steps + k := by
  induction k with
  | zero => rfl
  | succ k ih =>
    rw [afterSteps_succ_last, steps_step (h k (Nat.lt_succ_self k)),
      ih fun j hj => h j (Nat.lt_succ_of_lt hj), Nat.add_assoc]

/-- Without a limit, a run takes `k` evaluations: after them no node waits, and before each of them
one did. -/
structure Takes (s : State F) (g : Graph) (p : Problem F) (k : Nat) : Prop where
  queue_eq : (s.afterSteps g p k).queue = []
  queue_ne : ∀ j < k, (s.afterSteps g p j).queue ≠ []

/-- If no node waits after some number of steps, the run takes no more evaluations than that. -/
theorem exists_takes_iff :
    (∃ k ≤ limit, s.Takes g p k) ↔ (s.afterSteps g p limit).queue = [] := by
  constructor
  · intro h
    obtain ⟨k, hk, htakes⟩ := h
    rw [afterSteps_of_empty htakes.queue_eq hk]
    exact htakes.queue_eq
  · intro h
    induction limit with
    | zero => exact ⟨0, Nat.le_refl 0, h, fun j hj => absurd hj (Nat.not_lt_zero j)⟩
    | succ limit ih =>
      by_cases hempty : (s.afterSteps g p limit).queue = []
      · obtain ⟨k, hk, htakes⟩ := ih hempty
        exact ⟨k, Nat.le_succ_of_le hk, htakes⟩
      · refine ⟨limit + 1, Nat.le_refl _, h, ?_⟩
        intro j hj
        exact waiting_of_le hempty (Nat.le_of_lt_succ hj)

end State

variable [DecidableEq F]

/-- A run is read off the state after as many steps as it may take. -/
theorem run_eq_result (g : Graph) (p : Problem F) (limit fuel : Nat) (s : State F) :
    run g p limit fuel s = (s.afterSteps g p fuel).result limit := by
  induction fuel generalizing s with
  | zero => rfl
  | succ fuel ih =>
    unfold run
    split
    next hempty =>
      have hq : s.queue = [] := List.isEmpty_iff.1 hempty
      have hstay : s.afterSteps g p (fuel + 1) = s :=
        State.afterSteps_of_empty (j := 0) hq (Nat.zero_le _)
      rw [hstay, State.result_of_empty hq]
    next => rw [ih, State.afterSteps_succ]

/-- The state in which `solve` starts. -/
def initialState (g : Graph) (p : Problem F) : State F :=
  .start g (Array.replicate g.size p.initialFact) (Array.replicate g.size p.initialFact)

/-- The solver takes as many steps as its limit allows and looks at what it has. -/
theorem solve_eq_result (g : Graph) (p : Problem F) (limit : Nat) :
    solve g p limit = ((initialState g p).afterSteps g p limit).result limit :=
  run_eq_result g p limit limit _

/-- With a greater limit a run that comes to a solution is the same. -/
theorem solve_eq_of_le {limit limit' : Nat} {solution : Solution F}
    (hok : (solve g p limit).outcome = .ok solution) (hle : limit ≤ limit') :
    solve g p limit' = solve g p limit := by
  rw [solve_eq_result] at hok
  have hempty := State.queue_eq_nil_of_result hok
  rw [solve_eq_result, solve_eq_result, State.afterSteps_of_empty hempty hle,
    State.result_of_empty hempty, State.result_of_empty hempty]

/-- The first events of a longer run are those of a shorter one. -/
theorem events_prefix_of_le {limit limit' : Nat} (g : Graph) (p : Problem F)
    (hle : limit ≤ limit') : (solve g p limit).events <+: (solve g p limit').events := by
  rw [solve_eq_result, solve_eq_result, State.events_result, State.events_result,
    List.reverse_prefix]
  exact State.trail_afterSteps _ g p hle

/-- A run that comes to no solution has made as many events as it may take steps. -/
theorem exceeds_of_solve {e : AnalysisError} (herror : (solve g p limit).outcome = .error e) :
    e = .divergence limit limit ∧ (solve g p limit).events.length = limit := by
  refine ⟨eq_divergence_of_solve herror, ?_⟩
  have hwaiting : ((initialState g p).afterSteps g p limit).queue ≠ [] := by
    intro hempty
    rw [solve_eq_result, State.result_of_empty hempty] at herror
    cases herror
  have hsteps := State.steps_afterSteps fun j (hj : j < limit) =>
    State.waiting_of_le hwaiting (Nat.le_of_lt hj)
  rw [solve_eq_result, State.events_result, List.length_reverse]
  exact hsteps.trans (Nat.zero_add limit)

/-- A run comes to a solution exactly if its limit is no less than what it takes without one. -/
theorem exists_solution_iff_takes :
    (∃ solution, (solve g p limit).outcome = .ok solution) ↔
      ∃ k ≤ limit, (initialState g p).Takes g p k := by
  rw [State.exists_takes_iff, solve_eq_result]
  constructor
  · intro h
    obtain ⟨solution, hok⟩ := h
    exact State.queue_eq_nil_of_result hok
  · intro hempty
    rw [State.result_of_empty hempty]
    exact ⟨_, rfl⟩

end DefiniteAssignment.Flow
