import DefiniteAssignment.Flow.Solver
import DefiniteAssignment.Proofs.Graph.ReversePostOrder
/-!
# The worklist

What one evaluation does to a run, and what every state of a run has in common.

`Waits` ties the queue to its marks: a node is marked exactly if it waits, no node waits twice, and
only nodes wait that control can get to. `Evaluates` says everything that a step does: it replaces
the two facts of the node that has waited longest and, if that changes its output, lets its
successors wait.

`State.Valid` is the invariant of a run: a node that does not wait has the facts that the outputs of
its predecessors call for. A run starts with all nodes waiting, so that there is nothing to show
(`valid_start`). A step keeps it (`Valid.step`): if the output of a node changes, whoever reads it
waits afterwards, and this may be the node itself.
-/

namespace DefiniteAssignment.Flow

variable {F : Type} {g : Graph} {p : Problem F} {s : State F}

/-- What flows into a node depends on the outputs of its reachable predecessors only. -/
theorem Problem.inputAt_congr {after after' : Array F} {n : Nat}
    (h : ∀ q ∈ g.reachablePred n, after[q]? = after'[q]?) :
    p.inputAt g after n = p.inputAt g after' n := by
  unfold Problem.inputAt
  rw [List.map_congr_left fun q hq => congrArg (Option.getD · p.initialFact) (h q hq)]

namespace State

/-- The queue of a state and its marks agree, and what waits can be reached. -/
structure Waits (g : Graph) (s : State F) : Prop where
  size_queued : s.queued.size = g.size
  queued_iff : ∀ n, s.queued[n]? = some true ↔ n ∈ s.queue
  nodup : s.queue.Nodup
  reaches : ∀ n ∈ s.queue, g.Reaches n

/-- A node that is in range and does not wait is marked as such. -/
theorem Waits.queued_eq_false (h : Waits g s) {n : Nat} (hn : n < g.size) (hnot : n ∉ s.queue) :
    s.queued[n]? = some false := by
  have hlt : n < s.queued.size := h.size_queued.symm ▸ hn
  have htrue := mt (h.queued_iff n).1 hnot
  rw [Array.getElem?_eq_getElem hlt] at htrue ⊢
  simpa using htrue

/-- A node that does not wait can be put at the end of the queue. -/
theorem Waits.push (h : Waits g s) {n : Nat} (hn : g.Reaches n)
    (hfalse : s.queued[n]? = some false) :
    Waits g { s with queue := s.queue ++ [n], queued := s.queued.setIfInBounds n true } := by
  have hlt : n < s.queued.size := h.size_queued.symm ▸ hn.lt_size
  have hnot : n ∉ s.queue := by
    rw [← h.queued_iff, hfalse]
    simp
  refine ⟨?_, ?_, ?_, ?_⟩
  · rw [Array.size_setIfInBounds, h.size_queued]
  · -- queued_iff
    intro m
    have hset := Adjacency.marked_set hlt m
    unfold Adjacency.Marked at hset
    rw [hset, h.queued_iff, List.mem_append, List.mem_singleton]
    exact Or.comm
  · -- nodup
    rw [List.nodup_append]
    refine ⟨h.nodup, List.pairwise_singleton .., ?_⟩
    intro x hx y hy
    rw [List.mem_singleton.1 hy]
    intro hxy
    exact hnot (hxy ▸ hx)
  · -- reaches
    intro m hm
    rcases List.mem_append.1 hm with hm | hm
    · exact h.reaches m hm
    · exact List.mem_singleton.1 hm ▸ hn

/-- What letting nodes wait does to a state: the facts and the trail stay, and afterwards the nodes
wait as well as those that waited before. -/
theorem Waits.enqueue (h : Waits g s) {nodes : List Nat} (hnodes : ∀ n ∈ nodes, g.Reaches n) :
    Waits g (s.enqueue nodes) ∧ (∀ m, m ∈ (s.enqueue nodes).queue ↔ m ∈ s.queue ∨ m ∈ nodes) ∧
      (s.enqueue nodes).before = s.before ∧ (s.enqueue nodes).after = s.after ∧
      (s.enqueue nodes).trail = s.trail := by
  induction nodes generalizing s with
  | nil => exact ⟨h, fun m => by simp [State.enqueue], rfl, rfl, rfl⟩
  | cons n nodes ih =>
    have hn := hnodes n (List.mem_cons_self ..)
    have hrest : ∀ m ∈ nodes, g.Reaches m := fun m hm => hnodes m (List.mem_cons_of_mem _ hm)
    unfold State.enqueue at ih ⊢
    rw [List.foldl_cons]
    split
    next hfalse =>
      obtain ⟨hwaits, hmem, hsame⟩ := ih (h.push hn hfalse) hrest
      refine ⟨hwaits, ?_, hsame⟩
      intro m
      rw [hmem, List.mem_append, List.mem_singleton, List.mem_cons, or_assoc]
    next htrue =>
      have hmemn : n ∈ s.queue :=
        Decidable.byContradiction fun hnot => htrue (h.queued_eq_false hn.lt_size hnot)
      obtain ⟨hwaits, hmem, hsame⟩ := ih h hrest
      refine ⟨hwaits, ?_, hsame⟩
      intro m
      rw [hmem, List.mem_cons]
      constructor
      · intro h
        rcases h with hm | hm
        · exact .inl hm
        · exact .inr (.inr hm)
      · intro h
        rcases h with hm | rfl | hm
        · exact .inl hm
        · exact .inl hmemn
        · exact .inr hm

theorem size_foldl_mark (nodes : List Nat) (queued : Array Bool) :
    (nodes.foldl (fun queued n => queued.setIfInBounds n true) queued).size = queued.size := by
  induction nodes generalizing queued with
  | nil => rfl
  | cons n nodes ih => rw [List.foldl_cons, ih, Array.size_setIfInBounds]

theorem foldl_mark_iff {nodes : List Nat} {queued : Array Bool} (h : ∀ n ∈ nodes, n < queued.size)
    (m : Nat) : (nodes.foldl (fun queued n => queued.setIfInBounds n true) queued)[m]? = some true ↔
      queued[m]? = some true ∨ m ∈ nodes := by
  induction nodes generalizing queued with
  | nil => simp
  | cons n nodes ih =>
    have hset := Adjacency.marked_set (h n (List.mem_cons_self ..)) m
    unfold Adjacency.Marked at hset
    rw [List.foldl_cons, ih (fun k hk => by simpa using h k (List.mem_cons_of_mem _ hk)), hset,
      List.mem_cons, or_comm (a := m = n), or_assoc]

/-- A run starts with all nodes waiting that control can get to. -/
theorem waits_start (g : Graph) (before after : Array F) : Waits g (.start g before after) := by
  have hlt : ∀ n ∈ g.reversePostOrder, n < (Array.replicate g.size false).size := by
    intro n hn
    rw [Array.size_replicate]
    exact (Graph.mem_reversePostOrder.1 hn).lt_size
  refine ⟨?_, ?_, g.nodup_reversePostOrder, fun n hn => Graph.mem_reversePostOrder.1 hn⟩
  · rw [State.start, size_foldl_mark, Array.size_replicate]
  · intro n
    rw [State.start, foldl_mark_iff hlt]
    exact or_iff_right (Adjacency.not_marked_replicate _ n)

/-- What every state of a run has in common: nodes that do not wait have the facts that the outputs
of their predecessors call for. -/
structure Valid (g : Graph) (p : Problem F) (s : State F) : Prop where
  size_before : s.before.size = g.size
  size_after : s.after.size = g.size
  waits : Waits g s
  settled : ∀ n, g.Reaches n → n ∉ s.queue → s.before[n]? = some (p.inputAt g s.after n) ∧
    s.after[n]? = some (p.transfer n (p.inputAt g s.after n))

theorem valid_start {before after : Array F} (hbefore : before.size = g.size)
    (hafter : after.size = g.size) (p : Problem F) : Valid g p (.start g before after) where
  size_before := hbefore
  size_after := hafter
  waits := waits_start g before after
  settled _ hn hnot := absurd (Graph.mem_reversePostOrder.2 hn) hnot

/-- To evaluate a node takes its two facts, the facts of its predecessors, its mark and those of its
successors, all of which are there. -/
structure InRange (g : Graph) (s : State F) (n : Nat) : Prop where
  lt_before : n < s.before.size
  lt_after : n < s.after.size
  lt_queued : n < s.queued.size
  pred_lt : ∀ q ∈ g.pred n, q < s.after.size
  succ_lt : ∀ m ∈ g.succ n, m < s.queued.size

theorem Valid.inRange (h : Valid g p s) {n : Nat} (hn : n ∈ s.queue) : s.InRange g n := by
  have hlt : n < g.size := (h.waits.reaches n hn).lt_size
  refine ⟨h.size_before.symm ▸ hlt, h.size_after.symm ▸ hlt, h.waits.size_queued.symm ▸ hlt, ?_, ?_⟩
  · intro q hq
    rw [h.size_after, Graph.size, ← g.size_successors]
    exact Adjacency.lt_size_of_mem_next (Graph.mem_pred.1 hq)
  · intro m hm
    rw [h.waits.size_queued]
    exact g.successor_lt n m hm

variable [DecidableEq F]

/-- All that happens when a node is evaluated and the nodes of `rest` go on waiting. -/
structure Evaluates (g : Graph) (p : Problem F) (s : State F) (n : Nat) (rest : List Nat)
    (s' : State F) : Prop where
  before_eq : s'.before = s.before.setIfInBounds n (p.inputAt g s.after n)
  after_eq : s'.after = s.after.setIfInBounds n (p.transfer n (p.inputAt g s.after n))
  trail_eq : s'.trail = ⟨n, p.inputAt g s.after n, p.transfer n (p.inputAt g s.after n),
    s.after[n]? != some (p.transfer n (p.inputAt g s.after n))⟩ :: s.trail
  waits : Waits g s'
  mem_queue : ∀ m, m ∈ s'.queue ↔ m ∈ rest ∨
    s.after[n]? ≠ some (p.transfer n (p.inputAt g s.after n)) ∧ m ∈ g.succ n

/-- A step evaluates the node that has waited longest. -/
theorem Waits.step (h : Waits g s) {n : Nat} {rest : List Nat} (hq : s.queue = n :: rest)
    (p : Problem F) : Evaluates g p s n rest (s.step g p) := by
  have hn : g.Reaches n := h.reaches n (hq ▸ List.mem_cons_self ..)
  have hlt : n < s.queued.size := h.size_queued.symm ▸ hn.lt_size
  obtain ⟨hnrest, hnodup⟩ := List.nodup_cons.1 (hq ▸ h.nodup)
  have hwaits : ∀ (before after : Array F) (trail : List (Event F)),
      Waits g ⟨before, after, rest, s.queued.setIfInBounds n false, trail⟩ := by
    intro before after trail
    refine ⟨by rw [Array.size_setIfInBounds, h.size_queued], ?_, hnodup,
      fun m hm => h.reaches m (hq ▸ List.mem_cons_of_mem _ hm)⟩
    intro m
    rw [Array.getElem?_setIfInBounds]
    split
    next hm =>
      subst hm
      simp [hnrest]
    next hm =>
      rw [h.queued_iff, hq, List.mem_cons]
      exact ⟨fun hmem => hmem.resolve_left (Ne.symm hm), .inr⟩
  unfold State.step
  rw [hq]
  unfold State.evaluate
  dsimp only
  split
  next hchanged =>
    obtain ⟨hw, hmem, hbefore, hafter, htrail⟩ := (hwaits _ _ _).enqueue
      fun m (hm : m ∈ g.succ n) => hn.succ hm
    exact ⟨hbefore, hafter, htrail, hw, fun m => by
      rw [hmem, and_iff_right (bne_iff_ne.1 hchanged)]⟩
  next hsame =>
    exact ⟨rfl, rfl, rfl, hwaits _ _ _, fun m => by
      have heq := mt bne_iff_ne.2 hsame
      simp [heq]⟩

/-- A step keeps what the states of a run have in common. -/
theorem Valid.step (h : Valid g p s) {n : Nat} {rest : List Nat} (hq : s.queue = n :: rest) :
    Valid g p (s.step g p) := by
  have he := h.waits.step hq p
  have hreaches : g.Reaches n := h.waits.reaches n (hq ▸ List.mem_cons_self ..)
  have hn : n < s.after.size := h.size_after.symm ▸ hreaches.lt_size
  refine ⟨by rw [he.before_eq, Array.size_setIfInBounds, h.size_before],
    by rw [he.after_eq, Array.size_setIfInBounds, h.size_after], he.waits, ?_⟩
  intro m hm hnot
  rw [he.mem_queue, not_or, not_and] at hnot
  obtain ⟨hmrest, hsucc⟩ := hnot
  -- Whoever does not wait afterwards reads no output that has changed.
  have hread : ∀ q ∈ g.reachablePred m, (s.step g p).after[q]? = s.after[q]? := by
    intro q hq'
    rw [he.after_eq, Array.getElem?_setIfInBounds]
    split
    next hqn =>
      subst hqn
      exact (Decidable.not_not.1 fun hne => hsucc hne (Graph.mem_reachablePred.1 hq').1).symm
    next => rfl
  rw [Problem.inputAt_congr hread, he.before_eq, he.after_eq, Array.getElem?_setIfInBounds,
    Array.getElem?_setIfInBounds]
  by_cases hmn : n = m
  · subst hmn
    rw [if_pos rfl, if_pos rfl, if_pos (h.size_before.trans h.size_after.symm ▸ hn), if_pos hn]
    exact ⟨rfl, rfl⟩
  · rw [if_neg hmn, if_neg hmn]
    refine h.settled m hm ?_
    intro hmem
    rcases List.mem_cons.1 (hq ▸ hmem) with heq | hmem
    · exact hmn heq.symm
    · exact hmrest hmem

end State

variable [DecidableEq F]

/-- What a step keeps holds of the state in which a run stops, whether no node waits there or the
steps are used up. The events are the trail of that state, from its end. -/
theorem exists_stop {inv : State F → Prop}
    (hstep : ∀ s n rest, inv s → s.queue = n :: rest → inv (s.step g p)) {limit : Nat} (fuel : Nat)
    (h : inv s) : ∃ s', inv s' ∧ (run g p limit fuel s).events = s'.trail.reverse ∧
      ∀ solution, (run g p limit fuel s).outcome = .ok solution →
        s'.queue = [] ∧ solution = ⟨s'.before, s'.after, s'.steps⟩ := by
  induction fuel generalizing s with
  | zero =>
    refine ⟨s, h, ?_⟩
    unfold run
    split
    next hempty =>
      exact ⟨rfl, fun solution hok => ⟨List.isEmpty_iff.1 hempty, (Except.ok.inj hok).symm⟩⟩
    next => exact ⟨rfl, fun solution hok => by cases hok⟩
  | succ fuel ih =>
    unfold run
    split
    next hempty =>
      exact ⟨s, h, rfl, fun solution hok => ⟨List.isEmpty_iff.1 hempty, (Except.ok.inj hok).symm⟩⟩
    next hne =>
      cases hq : s.queue with
      | nil => exact absurd (List.isEmpty_iff.2 hq) hne
      | cons n rest => exact ih (hstep s n rest h hq)

/-- What a step keeps holds at the end of a run that comes to a solution, and the solution is read
off a state in which no node waits. -/
theorem exists_last_state {inv : State F → Prop}
    (hstep : ∀ s n rest, inv s → s.queue = n :: rest → inv (s.step g p)) {limit fuel : Nat}
    {solution : Solution F} (h : inv s) (hok : (run g p limit fuel s).outcome = .ok solution) :
    ∃ s', inv s' ∧ s'.queue = [] ∧ solution = ⟨s'.before, s'.after, s'.steps⟩ := by
  obtain ⟨s', hinv, -, hlast⟩ := exists_stop hstep fuel h
  exact ⟨s', hinv, hlast solution hok⟩

end DefiniteAssignment.Flow
