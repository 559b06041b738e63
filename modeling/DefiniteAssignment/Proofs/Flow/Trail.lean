import DefiniteAssignment.Proofs.Flow.Limits
/-!
# What events tell

The events of a run are a faithful record of it, whatever the problem is (`Run.Tells`). They begin
with one round in reverse post order; an event says of its output whether the one before it of the
same node was another; and when the run comes to a solution, the facts of a node are those of its
last event, or the initial ones if control cannot get to it. A run from the facts of a solution
leaves those of such nodes as they are.

> `tells_solve`

Everything is read off one account of a state (`State.Recounts`). The nodes that have been evaluated
and behind them those that wait begin with the reverse post order, since nodes are put at the end of
the queue and taken from its front. The facts are those at the start with what the events put in
their place (`written`), so that the last event of a node says what stands there.
-/

namespace DefiniteAssignment.Flow

variable {F : Type} {g : Graph} {p : Problem F} {s : State F} {n : Nat} {rest : List Nat}
  {before after : Array F}

/-- The last event of a node. -/
def lastEvent? (events : List (Event F)) (n : Nat) : Option (Event F) :=
  events.reverse.find? (·.node == n)

/-- What a node has given out last: the output of its last event, and before there is one what is
assumed of all nodes. -/
def Problem.lastOutput (p : Problem F) (events : List (Event F)) (n : Nat) : F :=
  ((lastEvent? events n).map (·.output)).getD p.initialFact

/-- The events of a run tell what becomes of the initial facts. -/
structure Run.Tells (g : Graph) (p : Problem F) (limit : Nat) (r : Run F) : Prop where
  /-- Every node that control can get to is evaluated once before any is for the second time. -/
  firstRound : (r.events.take (min g.reachableNodes.length limit)).map (·.node) =
    g.reversePostOrder.take (min g.reachableNodes.length limit)
  reaches : ∀ event ∈ r.events, g.Reaches event.node
  /-- An event is marked if its node gives out something else than before. -/
  changed_iff : ∀ earlier event later, r.events = earlier ++ event :: later →
    (event.changed = true ↔ event.output ≠ p.lastOutput earlier event.node)
  length_eq : ∀ solution, r.outcome = .ok solution → r.events.length = solution.steps
  /-- What stands at a node in the end is what its last event put there. -/
  last : ∀ solution, r.outcome = .ok solution → ∀ n, g.Reaches n →
    ∃ event, lastEvent? r.events n = some event ∧
      solution.before[n]? = some event.input ∧ solution.after[n]? = some event.output
  untouched : ∀ solution, r.outcome = .ok solution → ∀ n < g.size, ¬g.Reaches n →
    solution.before[n]? = some p.initialFact ∧ solution.after[n]? = some p.initialFact

/-! ## Facts that events put in place -/

/-- Facts in which events, the latest first, have put those on one side of their nodes in place. -/
def written (side : Event F → F) (facts : Array F) (trail : List (Event F)) : Array F :=
  trail.foldr (fun event facts => facts.setIfInBounds event.node (side event)) facts

theorem size_written (side : Event F → F) (facts : Array F) (trail : List (Event F)) :
    (written side facts trail).size = facts.size := by
  induction trail with
  | nil => rfl
  | cons event trail ih =>
    rw [written, List.foldr_cons, Array.size_setIfInBounds]
    exact ih

/-- The fact of a node is the one that its last event has put there. -/
theorem getElem?_written (side : Event F → F) (facts : Array F) (trail : List (Event F)) (n : Nat) :
    (written side facts trail)[n]? =
      facts[n]?.map fun fact => ((trail.find? (·.node == n)).map side).getD fact := by
  induction trail with
  | nil => simp [written]
  | cons event trail ih =>
    have hsize := size_written side facts trail
    unfold written at ih hsize ⊢
    rw [List.foldr_cons, Array.getElem?_setIfInBounds, hsize, List.find?_cons]
    by_cases hn : event.node = n
    · rw [if_pos hn, beq_iff_eq.2 hn]
      by_cases hlt : event.node < facts.size
      · simp [hlt, hn ▸ hlt]
      · simp [hlt, hn ▸ hlt]
    · rw [if_neg hn, beq_false_of_ne hn, ih]

theorem getElem?_written_of_last {side : Event F → F} {facts : Array F} {trail : List (Event F)}
    {event : Event F} (h : lastEvent? trail.reverse n = some event) (hn : n < facts.size) :
    (written side facts trail)[n]? = some (side event) := by
  rw [lastEvent?, List.reverse_reverse] at h
  rw [getElem?_written, h, Array.getElem?_eq_getElem hn]
  rfl

/-- Without an event of a node its fact stays. -/
theorem getElem?_written_of_forall_ne {side : Event F → F} {facts : Array F}
    {trail : List (Event F)} (h : ∀ event ∈ trail, event.node ≠ n) :
    (written side facts trail)[n]? = facts[n]? := by
  have hnone : trail.find? (·.node == n) = none :=
    List.find?_eq_none.2 fun event hevent => by simpa using h event hevent
  rw [getElem?_written, hnone]
  exact congrFun Option.map_id facts[n]?

/-- What stands after a run from the initial facts is what the node has given out last. -/
theorem getElem?_written_replicate {size : Nat} (hn : n < size) (p : Problem F)
    (events : List (Event F)) :
    (written (·.output) (Array.replicate size p.initialFact) events.reverse)[n]? =
      some (p.lastOutput events n) := by
  rw [getElem?_written, Array.getElem?_replicate, if_pos hn]
  rfl

namespace State

/-- How the state of a run that started from some facts is the outcome of its events. -/
structure Recounts (g : Graph) (before after : Array F) (s : State F) : Prop where
  waits : Waits g s
  /-- No node is evaluated again, or waits to be, in front of one that has waited from the start. -/
  firstRound : g.reversePostOrder <+: s.trail.reverse.map (·.node) ++ s.queue
  reaches : ∀ event ∈ s.trail, g.Reaches event.node
  before_eq : s.before = written (·.input) before s.trail
  after_eq : s.after = written (·.output) after s.trail
  /-- An event is marked if its output is not what stood at its node until then. -/
  changed_iff : ∀ later event earlier, s.trail = later ++ event :: earlier →
    (event.changed = true ↔
      (written (·.output) after earlier)[event.node]? ≠ some event.output)

theorem recounts_start (g : Graph) (before after : Array F) :
    Recounts g before after (.start g before after) where
  waits := waits_start g before after
  firstRound := List.prefix_refl _
  reaches event hevent := by cases hevent
  before_eq := rfl
  after_eq := rfl
  changed_iff later event earlier h := by
    cases (List.append_eq_nil_iff.1 h.symm).2

/-- The first evaluations are those of the nodes that waited from the start. -/
theorem Recounts.take_trail (h : Recounts g before after s) {k : Nat}
    (hk : k ≤ g.reachableNodes.length) (hle : k ≤ s.trail.reverse.length) :
    (s.trail.reverse.take k).map (·.node) = g.reversePostOrder.take k := by
  obtain ⟨again, hagain⟩ := h.firstRound
  have hk' : k ≤ g.reversePostOrder.length := g.length_reversePostOrder.symm ▸ hk
  have hle' : k ≤ (s.trail.reverse.map (·.node)).length := by rwa [List.length_map]
  rw [List.map_take, ← List.take_append_of_le_length hle', ← hagain,
    List.take_append_of_le_length hk']

/-- When no node waits, each that control can get to has been evaluated, and has the facts of its
last evaluation. -/
theorem Recounts.exists_last (h : Recounts g before after s) (hempty : s.queue = [])
    (hn : g.Reaches n) (hbefore : n < before.size) (hafter : n < after.size) :
    ∃ event, lastEvent? s.trail.reverse n = some event ∧
      s.before[n]? = some event.input ∧ s.after[n]? = some event.output := by
  have hmem := h.firstRound.subset (Graph.mem_reversePostOrder.2 hn)
  rw [hempty, List.append_nil] at hmem
  obtain ⟨event, hevent, hnode⟩ := List.mem_map.1 hmem
  obtain ⟨last, hlast⟩ : ∃ last, lastEvent? s.trail.reverse n = some last :=
    Option.isSome_iff_exists.1
      (List.find?_isSome.2 ⟨event, List.mem_reverse.2 hevent, beq_iff_eq.2 hnode⟩)
  rw [h.before_eq, h.after_eq]
  exact ⟨last, hlast, getElem?_written_of_last hlast hbefore,
    getElem?_written_of_last hlast hafter⟩

/-- If all nodes have the initial fact at first, an event is marked exactly if its node has given
out something else before. -/
theorem Recounts.changed_iff_lastOutput
    (h : Recounts g before (Array.replicate g.size p.initialFact) s)
    {earlier later : List (Event F)} {event : Event F}
    (heq : s.trail.reverse = earlier ++ event :: later) :
    event.changed = true ↔ event.output ≠ p.lastOutput earlier event.node := by
  have htrail : s.trail = later.reverse ++ event :: earlier.reverse := by
    rw [← List.reverse_reverse s.trail, heq]
    simp
  have hmem : event ∈ s.trail := by
    rw [htrail]
    exact List.mem_append_right _ (List.mem_cons_self ..)
  rw [h.changed_iff _ _ _ htrail, getElem?_written_replicate (h.reaches event hmem).lt_size, Ne,
    Option.some_inj]
  exact ne_comm

/-- No evaluation touches a node that control cannot get to. -/
theorem Recounts.untouched (h : Recounts g before after s) (hn : ¬g.Reaches n) :
    s.before[n]? = before[n]? ∧ s.after[n]? = after[n]? := by
  have hne : ∀ event ∈ s.trail, event.node ≠ n := by
    intro event hevent heq
    exact hn (heq ▸ h.reaches event hevent)
  rw [h.before_eq, h.after_eq]
  exact ⟨getElem?_written_of_forall_ne hne, getElem?_written_of_forall_ne hne⟩

variable [DecidableEq F]

theorem Recounts.step (h : Recounts g before after s) (hq : s.queue = n :: rest) (p : Problem F) :
    Recounts g before after (s.step g p) := by
  have he := h.waits.step hq p
  obtain ⟨added, -, hqueue, -⟩ := queue_step hq g p
  have hn : g.Reaches n := h.waits.reaches n (hq ▸ List.mem_cons_self ..)
  refine ⟨he.waits, ?_, ?_, ?_, ?_, ?_⟩
  · -- firstRound
    have hadded := h.firstRound.trans (List.prefix_append _ added)
    rw [hq] at hadded
    rw [he.trail_eq, hqueue]
    simpa using hadded
  · -- reaches
    rw [he.trail_eq]
    exact List.forall_mem_cons.2 ⟨hn, h.reaches⟩
  · rw [he.before_eq, he.trail_eq, h.before_eq]
    rfl
  · rw [he.after_eq, he.trail_eq, h.after_eq]
    rfl
  · -- changed_iff
    intro later event earlier heq
    rw [he.trail_eq] at heq
    cases later with
    | nil =>
      obtain ⟨rfl, rfl⟩ := List.cons.inj heq
      rw [← h.after_eq]
      exact bne_iff_ne
    | cons latest later => exact h.changed_iff later event earlier (List.cons.inj heq).2

end State

variable [DecidableEq F] {limit : Nat} {r : Run F} {solution : Solution F}

/-- A run that started from some facts stopped in a state that its events account for. -/
theorem exists_recounts (g : Graph) (p : Problem F) (limit : Nat) (before after : Array F) :
    ∃ s, State.Recounts g before after s ∧
      (run g p limit limit (.start g before after)).events = s.trail.reverse ∧
      ∀ solution, (run g p limit limit (.start g before after)).outcome = .ok solution →
        s.queue = [] ∧ solution = ⟨s.before, s.after, s.steps⟩ :=
  exists_stop (fun _ _ _ hs hq => hs.step hq p) limit (State.recounts_start g before after)

/-- As many events as there are nodes to evaluate, if the steps suffice for them. -/
theorem le_length_events (g : Graph) (p : Problem F) (limit : Nat) :
    min g.reachableNodes.length limit ≤ (solve g p limit).events.length := by
  cases hr : (solve g p limit).outcome with
  | error e =>
    rw [(exceeds_of_solve hr).2]
    exact Nat.min_le_right ..
  | ok solution =>
    obtain ⟨s, hs, hevents, hlast⟩ := exists_recounts g p limit
      (Array.replicate g.size p.initialFact) (Array.replicate g.size p.initialFact)
    obtain ⟨hempty, -⟩ := hlast solution hr
    have hle := hs.firstRound.length_le
    rw [hempty, List.append_nil, List.length_map, g.length_reversePostOrder] at hle
    exact (Nat.min_le_left ..).trans (hevents ▸ hle)

/-- A run from the facts of a seed leaves those of the nodes that control cannot get to. -/
theorem untouched_solveFrom {seed : Solution F}
    (hok : (solveFrom g p limit seed).outcome = .ok solution) (hn : ¬g.Reaches n) :
    solution.before[n]? = seed.before[n]? ∧ solution.after[n]? = seed.after[n]? := by
  rw [solveFrom] at hok
  split at hok
  next =>
    obtain ⟨s, hs, -, hlast⟩ := exists_recounts g p limit seed.before seed.after
    obtain ⟨-, rfl⟩ := hlast solution hok
    exact hs.untouched hn
  next => cases hok

/-- The events of every run from the initial facts tell what becomes of them, and a run from the
facts of a seed leaves those of the nodes that control cannot get to. -/
theorem tells_solve (g : Graph) (p : Problem F) (limit : Nat) :
    (solve g p limit).Tells g p limit ∧
      ∀ limit' seed solution, (solveFrom g p limit' seed).outcome = .ok solution →
        ∀ n, ¬g.Reaches n →
          solution.before[n]? = seed.before[n]? ∧ solution.after[n]? = seed.after[n]? := by
  refine ⟨?_, fun _ _ _ hok _ hn => untouched_solveFrom hok hn⟩
  let initial := Array.replicate g.size p.initialFact
  have hsize : ∀ n, g.Reaches n → n < initial.size := by
    intro n hn
    rw [Array.size_replicate]
    exact hn.lt_size
  have hlength := le_length_events g p limit
  obtain ⟨s, hs, hevents, hlast⟩ := exists_recounts g p limit initial initial
  change (solve g p limit).events = s.trail.reverse at hevents
  constructor
  case firstRound =>
    rw [hevents] at hlength ⊢
    exact hs.take_trail (Nat.min_le_left ..) hlength
  case reaches =>
    intro event hevent
    rw [hevents, List.mem_reverse] at hevent
    exact hs.reaches event hevent
  case changed_iff =>
    intro earlier event later heq
    exact hs.changed_iff_lastOutput (hevents ▸ heq)
  case length_eq =>
    intro solution hok
    obtain ⟨-, rfl⟩ := hlast solution hok
    rw [hevents, List.length_reverse]
    rfl
  case last =>
    intro solution hok n hn
    obtain ⟨hempty, rfl⟩ := hlast solution hok
    rw [hevents]
    exact hs.exists_last hempty hn (hsize n hn) (hsize n hn)
  case untouched =>
    intro solution hok n hlt hn
    obtain ⟨-, rfl⟩ := hlast solution hok
    have hinitial : initial[n]? = some p.initialFact := by
      rw [Array.getElem?_replicate, if_pos hlt]
    rw [← hinitial]
    exact hs.untouched hn

/-- The seventh event is the third of node 1, which has new words to read and hands on the same two
as before; it is also the last of node 1. Node 4, with its edge to node 1, keeps what it has at the
start, be it the initial word or that of a seed. -/
theorem tells_solve_sample :
    let p : Problem (List Nat) := ⟨[], [7], fun a b => a ++ b.take 1, fun n l => (n :: l).take 2⟩
    let seed : Solution (List Nat) :=
      ⟨#[[1], [2], [3], [4], [5]], #[[1], [2], [3], [4], [6]], 0⟩
    let solution : Solution (List Nat) :=
      ⟨#[[3], [0, 3, 2], [0, 3, 1], [1, 0, 2], [7]], #[[0, 3], [1, 0], [2, 0], [3, 1], [7]], 8⟩
    let warm : Solution (List Nat) :=
      ⟨#[[3], [0, 3, 2], [0, 3, 1], [1, 0, 2], [5]], #[[0, 3], [1, 0], [2, 0], [3, 1], [6]], 8⟩
    let earlier : List (Event (List Nat)) :=
      [⟨0, [7], [0, 7], true⟩, ⟨1, [0, 7, 7], [1, 0], true⟩, ⟨2, [0, 7, 1], [2, 0], true⟩,
        ⟨3, [1, 0, 2], [3, 1], true⟩, ⟨1, [0, 7, 2], [1, 0], false⟩, ⟨0, [3], [0, 3], true⟩]
    let event : Event (List Nat) := ⟨1, [0, 3, 2], [1, 0], false⟩
    let later : List (Event (List Nat)) := [⟨2, [0, 3, 1], [2, 0], false⟩]
    Graph.sample.Reaches 1 ∧ ¬Graph.sample.Reaches 4 ∧ 4 < Graph.sample.size ∧
      (solve .sample p 100).events = earlier ++ event :: later ∧
      (solve .sample p 100).outcome = .ok solution ∧
      (solveFrom .sample p 100 seed).outcome = .ok warm ∧
      Graph.sample.Reaches event.node ∧
      (event.changed = true ↔ event.output ≠ p.lastOutput earlier event.node) ∧
      (earlier ++ event :: later).length = solution.steps ∧
      (∃ last, lastEvent? (earlier ++ event :: later) 1 = some last ∧
        solution.before[1]? = some last.input ∧ solution.after[1]? = some last.output) ∧
      (solution.before[4]? = some [7] ∧ solution.after[4]? = some [7]) ∧
      warm.before[4]? = seed.before[4]? ∧ warm.after[4]? = seed.after[4]? := by
  intro p seed solution warm earlier event later
  have hreaches : Graph.sample.Reaches 1 := Graph.isReachable_iff.1 (by cbv)
  have hfalse : Graph.sample.isReachable 4 = false := by cbv
  have hnot : ¬Graph.sample.Reaches 4 := by
    rw [← Graph.isReachable_iff, hfalse]
    exact Bool.false_ne_true
  have hlt : 4 < Graph.sample.size := by cbv
  have hevents : (solve .sample p 100).events = earlier ++ event :: later := by cbv
  have hok : (solve .sample p 100).outcome = .ok solution := by cbv
  have hwarm : (solveFrom .sample p 100 seed).outcome = .ok warm := by cbv
  obtain ⟨htells, hseed⟩ := tells_solve .sample p 100
  have hmem : event ∈ (solve .sample p 100).events := by simp [hevents]
  exact ⟨hreaches, hnot, hlt, hevents, hok, hwarm, htells.reaches event hmem,
    htells.changed_iff earlier event later hevents, hevents ▸ htells.length_eq solution hok,
    hevents ▸ htells.last solution hok 1 hreaches, htells.untouched solution hok 4 hlt hnot,
    hseed 100 seed warm hwarm 4 hnot⟩

end DefiniteAssignment.Flow
