import DefiniteAssignment.Proofs.Flow.Equations
import DefiniteAssignment.Proofs.Graph.Counts
/-!
# The number of steps

A node is evaluated once because it waits from the start, and once more for each time that it is put
at the end of the queue. It is put there at most once for each change of the output of one of its
predecessors; so the evaluations and the nodes that wait are no more than the reachable nodes and,
for each change of an output, the edges out of the node (`State.Charged`).

Whether a run ends is then a question of how often an output can change. If every change leads from
a fact to one that is allowed after it, and no chain of facts that are allowed after each other goes
on from the initial fact for more than `h` facts, then no output changes more than `h` times, and
the run ends within as many steps as there are reachable nodes and `h` times the edges out of them:

> `exists_solution_of_chains`

A run that does not end so has no other error than that (`eq_divergence_of_solve`).
-/

namespace DefiniteAssignment.Flow

variable {F : Type} {g : Graph} {p : Problem F} {s s' : State F} {n : Nat} {rest : List Nat}

/-! ## Chains of facts -/

/-- Going on from `a` by facts that are each allowed after the one before, the last of `k` is
`b`. -/
def Descends (allowed : F → F → Prop) (a : F) (k : Nat) (b : F) : Prop :=
  ∃ l : List F, l.length = k ∧ (a :: l).IsChain allowed ∧ (a :: l).getLast? = some b

theorem Descends.zero (allowed : F → F → Prop) (a : F) : Descends allowed a 0 a :=
  ⟨[], rfl, .singleton a, rfl⟩

/-- A chain of facts goes on with any fact that is allowed next. -/
theorem Descends.succ {allowed : F → F → Prop} {a b c : F} {k : Nat} (h : Descends allowed a k b)
    (hc : allowed b c) : Descends allowed a (k + 1) c := by
  obtain ⟨l, hlength, hchain, hlast⟩ := h
  refine ⟨l ++ [c], by rw [List.length_append, hlength, List.length_singleton], ?_, ?_⟩
  · rw [← List.cons_append]
    refine hchain.append (.singleton c) ?_
    intro x hx y hy
    rw [hlast, Option.mem_some_iff] at hx
    rw [List.head?_singleton, Option.mem_some_iff] at hy
    exact hx ▸ hy ▸ hc
  · rw [← List.cons_append, List.getLast?_concat]

/-- A chain of facts of ever smaller measure is no longer than the first measure. -/
theorem length_le_of_isChain {f : F → Nat} {a : F} {l : List F}
    (h : (a :: l).IsChain fun a b => f b < f a) : l.length ≤ f a := by
  induction l generalizing a with
  | nil => exact Nat.zero_le _
  | cons b l ih =>
    obtain ⟨hlt, hchain⟩ := List.isChain_cons_cons.1 h
    exact Nat.lt_of_le_of_lt (ih hchain) hlt

namespace State

/-! ## What steps are paid from -/

/-- The nodes whose output has changed, once for each change. -/
def changedNodes (s : State F) : List Nat :=
  (s.trail.filter (·.changed)).map (·.node)

/-- The steps taken and the nodes that wait are paid for: by the nodes that waited from the start,
and for each change of an output by the edges out of the node. -/
structure Charged (g : Graph) (s : State F) : Prop where
  size_after : s.after.size = g.size
  waits : Waits g s
  reaches : ∀ u ∈ s.changedNodes, g.Reaches u
  steps_le : s.steps + s.queue.length ≤
    g.reachableNodes.length + (s.changedNodes.map fun u => (g.succ u).length).sum

/-- At the start, every node that waits is paid for by itself. -/
theorem charged_start {before after : Array F} (hafter : after.size = g.size) :
    Charged g (.start g before after) where
  size_after := hafter
  waits := waits_start g before after
  reaches u hu := by cases hu
  steps_le := by
    show 0 + g.reversePostOrder.length ≤ _
    rw [Nat.zero_add, g.length_reversePostOrder]
    exact Nat.le_add_right _ _

/-- Making nodes wait adds some of them at the end of the queue. -/
theorem queue_enqueue (s : State F) (nodes : List Nat) :
    ∃ added, added.Sublist nodes ∧ (s.enqueue nodes).queue = s.queue ++ added := by
  induction nodes generalizing s with
  | nil => exact ⟨[], .slnil, (List.append_nil _).symm⟩
  | cons n nodes ih =>
    unfold State.enqueue at ih ⊢
    rw [List.foldl_cons]
    split
    next =>
      obtain ⟨added, hsub, hqueue⟩ :=
        ih { s with queue := s.queue ++ [n], queued := s.queued.setIfInBounds n true }
      refine ⟨n :: added, hsub.cons_cons n, ?_⟩
      rw [hqueue, List.append_assoc, List.singleton_append]
    next =>
      obtain ⟨added, hsub, hqueue⟩ := ih s
      exact ⟨added, hsub.cons n, hqueue⟩

variable [DecidableEq F]

/-- A step takes a node from the front of the queue and puts successors of it at the end, if its
output changes. -/
theorem queue_step (hq : s.queue = n :: rest) (g : Graph) (p : Problem F) :
    ∃ added, added.Sublist (g.succ n) ∧ (s.step g p).queue = rest ++ added ∧
      (s.after[n]? = some (p.transfer n (p.inputAt g s.after n)) → added = []) := by
  unfold State.step
  rw [hq]
  unfold State.evaluate
  dsimp only
  split
  next hchanged =>
    obtain ⟨added, hsub, hqueue⟩ := queue_enqueue _ (g.succ n)
    exact ⟨added, hsub, hqueue, fun hsame => absurd hsame (bne_iff_ne.1 hchanged)⟩
  next => exact ⟨[], List.nil_sublist _, (List.append_nil _).symm, fun _ => rfl⟩

theorem Evaluates.steps_eq (he : Evaluates g p s n rest s') : s'.steps = s.steps + 1 := by
  rw [State.steps, he.trail_eq, List.length_cons, State.steps]

/-- A step notes its node exactly if the output of the node changes. -/
theorem Evaluates.changedNodes_eq (he : Evaluates g p s n rest s') : s'.changedNodes =
    if s.after[n]? = some (p.transfer n (p.inputAt g s.after n)) then s.changedNodes
    else n :: s.changedNodes := by
  unfold changedNodes
  rw [he.trail_eq, List.filter_cons]
  by_cases hsame : s.after[n]? = some (p.transfer n (p.inputAt g s.after n))
  · simp [hsame]
  · simp [hsame]

/-- An evaluation replaces the output of its node. -/
theorem Evaluates.outputAt_eq (he : Evaluates g p s n rest s') (hn : n < s.after.size) (m : Nat) :
    p.outputAt s'.after m =
      if m = n then p.transfer n (p.inputAt g s.after n) else p.outputAt s.after m := by
  unfold Problem.outputAt
  rw [he.after_eq, Array.getElem?_setIfInBounds]
  by_cases hmn : n = m
  · rw [if_pos hmn, if_pos hn, if_pos hmn.symm, Option.getD_some]
  · rw [if_neg hmn, if_neg (Ne.symm hmn)]

/-- A step is paid for by the node that stops waiting, and the nodes that it lets wait by the edges
out of that node. -/
theorem Charged.step (h : Charged g s) (hq : s.queue = n :: rest) (p : Problem F) :
    Charged g (s.step g p) := by
  have he := h.waits.step hq p
  obtain ⟨added, hsub, hqueue, hnone⟩ := queue_step hq g p
  have hn : g.Reaches n := h.waits.reaches n (hq ▸ List.mem_cons_self ..)
  have hpaid := h.steps_le
  rw [hq, List.length_cons] at hpaid
  refine ⟨by rw [he.after_eq, Array.size_setIfInBounds, h.size_after], he.waits, ?_, ?_⟩
  · -- reaches
    intro u hu
    rw [he.changedNodes_eq] at hu
    split at hu
    · exact h.reaches u hu
    · rcases List.mem_cons.1 hu with rfl | hu
      · exact hn
      · exact h.reaches u hu
  · -- steps_le
    rw [he.steps_eq, he.changedNodes_eq, hqueue, List.length_append]
    by_cases hsame : s.after[n]? = some (p.transfer n (p.inputAt g s.after n))
    · rw [if_pos hsame, hnone hsame, List.length_nil]
      omega
    · have hadded := hsub.length_le
      rw [if_neg hsame, List.map_cons, List.sum_cons]
      omega

end State

/-! ## Runs that end -/

variable [DecidableEq F]

/-- A run comes to a solution if the steps that it has taken and the nodes that wait are never more
than the steps that it may take. -/
theorem exists_last_state_of_bound {inv : State F → Prop} {limit fuel bound : Nat}
    (hstep : ∀ s n rest, inv s → s.queue = n :: rest →
      inv (s.step g p) ∧ (s.step g p).steps = s.steps + 1)
    (hbound : ∀ s, inv s → s.steps + s.queue.length ≤ bound) (h : inv s)
    (hfuel : bound ≤ s.steps + fuel) :
    ∃ s', inv s' ∧ (run g p limit fuel s).outcome = .ok ⟨s'.before, s'.after, s'.steps⟩ := by
  induction fuel generalizing s with
  | zero =>
    have hle := hbound s h
    have hempty : s.queue = [] := List.eq_nil_of_length_eq_zero (by omega)
    refine ⟨s, h, ?_⟩
    unfold run
    rw [hempty]
    rfl
  | succ fuel ih =>
    unfold run
    cases hq : s.queue with
    | nil => exact ⟨s, h, rfl⟩
    | cons n rest =>
      obtain ⟨hinv, hsteps⟩ := hstep s n rest h hq
      exact ih hinv (by omega)

/-- A run that comes to no solution has taken all the steps that it may take. -/
theorem eq_divergence_of_run {limit fuel : Nat} {e : AnalysisError} (h : s.Waits g)
    (hfuel : s.steps + fuel = limit) (herror : (run g p limit fuel s).outcome = .error e) :
    e = .divergence limit limit := by
  induction fuel generalizing s with
  | zero =>
    unfold run at herror
    split at herror
    next => cases herror
    next =>
      obtain rfl : s.steps = limit := hfuel
      exact (Except.error.inj herror).symm
  | succ fuel ih =>
    unfold run at herror
    cases hq : s.queue with
    | nil =>
      rw [hq] at herror
      cases herror
    | cons n rest =>
      rw [hq] at herror
      have he := h.step hq p
      have hsteps := he.steps_eq
      exact ih he.waits (by omega) herror

/-- A solver fails in one way only, when its limit is reached. -/
theorem eq_divergence_of_solve {limit : Nat} {e : AnalysisError}
    (herror : (solve g p limit).outcome = .error e) : e = .divergence limit limit :=
  eq_divergence_of_run (State.waits_start g _ _) (Nat.zero_add limit) herror

/-- What is made of a result adds no error. -/
theorem eq_error_of_map {α β : Type} {f : α → β} {outcome : Except AnalysisError α}
    {e : AnalysisError} (h : outcome.map f = .error e) : outcome = .error e := by
  cases outcome with
  | error cause => exact congrArg Except.error (Except.error.inj h)
  | ok result => cases h

theorem map_eq_ok_iff {α β : Type} {f : α → β} {outcome : Except AnalysisError α} {b : β} :
    outcome.map f = .ok b ↔ ∃ a, outcome = .ok a ∧ f a = b := by
  cases outcome with
  | error e => simp [Except.map]
  | ok a => simp [Except.map]

section Chains

variable {inv : Array F → Prop} {allowed : F → F → Prop}

/-- The outputs satisfy `inv`, and each has gone down one fact for each change of it. -/
structure State.DescendsBy (g : Graph) (p : Problem F) (inv : Array F → Prop)
    (allowed : F → F → Prop) (s : State F) : Prop extends State.Charged g s where
  outputs : inv s.after
  descends : ∀ u, Descends allowed p.initialFact (s.changedNodes.count u) (p.outputAt s.after u)

variable
  (hstep : ∀ after after' n, g.Reaches n → inv after →
    (∀ m, p.outputAt after' m =
      if m = n then p.transfer n (p.inputAt g after n) else p.outputAt after m) → inv after')
  (hallowed : ∀ after n, g.Reaches n → inv after →
    p.transfer n (p.inputAt g after n) ≠ p.outputAt after n →
    allowed (p.outputAt after n) (p.transfer n (p.inputAt g after n)))
include hstep hallowed

/-- A step keeps the chains: an output that changes goes down by one fact. -/
theorem State.DescendsBy.step (h : DescendsBy g p inv allowed s) (hq : s.queue = n :: rest) :
    DescendsBy g p inv allowed (s.step g p) := by
  have he := h.waits.step hq p
  have hn : g.Reaches n := h.waits.reaches n (hq ▸ List.mem_cons_self ..)
  have hlt : n < s.after.size := h.size_after.symm ▸ hn.lt_size
  have hout := he.outputAt_eq hlt
  refine ⟨h.toCharged.step hq p, hstep _ _ n hn h.outputs hout, ?_⟩
  intro u
  have hu := h.descends u
  rw [hout, he.changedNodes_eq]
  by_cases hun : u = n
  · subst hun
    rw [if_pos rfl]
    by_cases hsame : s.after[u]? = some (p.transfer u (p.inputAt g s.after u))
    · rw [if_pos hsame]
      rwa [Problem.outputAt_of_eq_some hsame] at hu
    · rw [if_neg hsame, List.count_cons_self]
      refine hu.succ (hallowed s.after u hn h.outputs ?_)
      intro heq
      apply hsame
      rw [heq]
      exact Problem.getElem?_eq_outputAt hlt p
  · rw [if_neg hun]
    split
    · exact hu
    · rwa [List.count_cons_of_ne (Ne.symm hun)]

variable (inv allowed) in
/-- If facts cannot go down for long, a run that may take enough steps comes to a solution. -/
theorem exists_solution_of_chains {h limit : Nat}
    (hinv : ∀ after, (∀ n, p.outputAt after n = p.initialFact) → inv after)
    (hchains : ∀ l : List F, (p.initialFact :: l).IsChain allowed → l.length ≤ h)
    (hlimit : g.reachableNodes.length + h * g.liveEdges.length ≤ limit) :
    ∃ solution, (solve g p limit).outcome = .ok solution ∧
      solution.steps ≤ g.reachableNodes.length + h * g.liveEdges.length := by
  have hbound : ∀ s, State.DescendsBy g p inv allowed s →
      s.steps + s.queue.length ≤ g.reachableNodes.length + h * g.liveEdges.length := by
    intro s hs
    have hcount : ∀ u, s.changedNodes.count u ≤ h := by
      intro u
      obtain ⟨l, hlength, hchain, -⟩ := hs.descends u
      exact hlength ▸ hchains l hchain
    have hsum := Graph.sum_outdegrees_le hs.reaches hcount
    have hpaid := hs.steps_le
    omega
  have hinitial := p.outputAt_replicate g.size
  have hstart : State.DescendsBy g p inv allowed (.start g (Array.replicate g.size p.initialFact)
      (Array.replicate g.size p.initialFact)) := by
    refine ⟨State.charged_start Array.size_replicate, hinv _ hinitial, ?_⟩
    intro u
    show Descends allowed p.initialFact 0 (p.outputAt (Array.replicate g.size p.initialFact) u)
    rw [hinitial]
    exact .zero allowed p.initialFact
  obtain ⟨s, hs, hok⟩ : ∃ s, State.DescendsBy g p inv allowed s ∧
      (solve g p limit).outcome = .ok ⟨s.before, s.after, s.steps⟩ :=
    exists_last_state_of_bound
      (fun s n rest hs hq => ⟨hs.step hstep hallowed hq, (hs.waits.step hq p).steps_eq⟩)
      hbound hstart (Nat.le_trans hlimit (Nat.le_add_left _ _))
  exact ⟨_, hok, Nat.le_of_add_right_le (hbound s hs)⟩

end Chains

end DefiniteAssignment.Flow
