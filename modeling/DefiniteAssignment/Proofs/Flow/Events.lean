import DefiniteAssignment.Proofs.Flow.Monotone
/-!
# Events of monotone runs

The events of a run are its evaluations in order. If the problem is monotone, no evaluation of a
node finds more flowing in or gives more out than an earlier one of the same node did, however often
the node is evaluated and whatever is evaluated in between:

> `pairwise_events_of_solve`

An event is compared with what has not happened yet: what flowed in at the event is above what would
flow in now (`State.Shrinking`). Outputs only fall, so that this stays true, and the next event of
the node is what flows in now.
-/

namespace DefiniteAssignment.Flow

variable {F : Type} [PartialOrder F] {g : Graph} {p : Problem F} {s : State F} {n : Nat}
  {rest : List Nat}

/-- An event of a node has no more on either side than an earlier event of the node. -/
def Event.Follows (later earlier : Event F) : Prop :=
  later.node = earlier.node → later.input ≤ earlier.input ∧ later.output ≤ earlier.output

/-- All that has been given to a node so far is above what it would be given now. -/
structure State.Shrinking (g : Graph) (p : Problem F) (s : State F) : Prop where
  size_after : s.after.size = g.size
  waits : Waits g s
  falling : p.Falling g s.after
  input_le : ∀ event ∈ s.trail, p.inputAt g s.after event.node ≤ event.input
  output_eq : ∀ event ∈ s.trail, event.output = p.transfer event.node event.input
  follows : s.trail.Pairwise Event.Follows

/-- Whether no path to here passes a node. -/
def Problem.avoided (m : Nat) : Problem Bool where
  entryFact := true
  initialFact := true
  merge := and
  transfer n fact := fact && n != m

theorem Problem.isMonotone_avoided (m : Nat) : (avoided m).IsMonotone where
  merge_mono := (isMonotone_passed m).merge_mono
  transfer_mono n a b := by
    show a ≤ b → (a && n != m) ≤ (b && n != m)
    generalize (n != m) = here
    revert a b here
    decide
  le_initialFact := (isMonotone_passed m).le_initialFact

theorem State.shrinking_start (hp : p.IsMonotone) : Shrinking g p
    (.start g (Array.replicate g.size p.initialFact) (Array.replicate g.size p.initialFact)) where
  size_after := Array.size_replicate
  waits := waits_start g _ _
  falling n := by
    show _ ≤ p.outputAt (Array.replicate g.size p.initialFact) n
    rw [p.outputAt_replicate]
    exact hp.le_initialFact _
  input_le event hevent := by cases hevent
  output_eq event hevent := by cases hevent
  follows := .nil

variable [DecidableEq F]

/-- An evaluation takes what would flow into each node down, and adds an event with what flowed in
until then. -/
theorem State.Shrinking.step (hp : p.IsMonotone) (h : Shrinking g p s) (hq : s.queue = n :: rest) :
    Shrinking g p (s.step g p) := by
  have he := h.waits.step hq p
  have hreaches : g.Reaches n := h.waits.reaches n (hq ▸ List.mem_cons_self ..)
  have hn : n < s.after.size := h.size_after.symm ▸ hreaches.lt_size
  have hout := he.outputAt_eq hn
  have hle := h.falling.input_le hp hout
  refine ⟨by rw [he.after_eq, Array.size_setIfInBounds, h.size_after], he.waits,
    h.falling.evaluate hp hout, ?_, ?_, ?_⟩
  · -- input_le
    rw [he.trail_eq]
    intro event hevent
    rcases List.mem_cons.1 hevent with rfl | hevent
    · exact hle n
    · exact (hle event.node).trans (h.input_le event hevent)
  · -- output_eq
    rw [he.trail_eq]
    intro event hevent
    rcases List.mem_cons.1 hevent with rfl | hevent
    · rfl
    · exact h.output_eq event hevent
  · -- follows
    rw [he.trail_eq]
    refine List.pairwise_cons.2 ⟨?_, h.follows⟩
    intro event hevent hnode
    obtain rfl : n = event.node := hnode
    have hinput := h.input_le event hevent
    refine ⟨hinput, ?_⟩
    rw [h.output_eq event hevent]
    exact hp.transfer_mono _ hinput

/-- Of any two events of a node in a run, the later one has no more on either side, whether the run
comes to a solution or not. -/
theorem pairwise_events_of_solve (hp : p.IsMonotone) (limit : Nat) :
    (solve g p limit).events.Pairwise fun earlier later => earlier.node = later.node →
      later.input ≤ earlier.input ∧ later.output ≤ earlier.output := by
  obtain ⟨s, hs, hevents, -⟩ :
      ∃ s, State.Shrinking g p s ∧ (solve g p limit).events = s.trail.reverse ∧ _ :=
    exists_stop (fun _ _ _ hs hq => hs.step hp hq) limit (State.shrinking_start hp)
  rw [hevents, List.pairwise_reverse]
  exact hs.follows.imp fun h hnode => h hnode.symm

/-- Node 1 of the loop is evaluated twice before the steps are used up, and control may have passed
node 2 when it is for the second time. -/
theorem pairwise_events_sample :
    (solve .sample (Problem.avoided 2) 5).outcome = .error (.divergence 5 5) ∧
      ∃ earlier later, (solve .sample (Problem.avoided 2) 5).events[1]? = some earlier ∧
        (solve .sample (Problem.avoided 2) 5).events[4]? = some later ∧
        earlier.node = later.node ∧ earlier.input = true ∧ later.input ≤ earlier.input ∧
        later.output ≤ earlier.output := by
  have hevents : (solve .sample (Problem.avoided 2) 5).events =
      [⟨0, true, true, false⟩, ⟨1, true, true, false⟩, ⟨2, true, false, true⟩,
        ⟨3, false, false, true⟩, ⟨1, false, false, true⟩] := by cbv
  have hpairs : (solve .sample (Problem.avoided 2) 5).events.Pairwise _ :=
    pairwise_events_of_solve (Problem.isMonotone_avoided 2) 5
  refine ⟨by cbv, ?_⟩
  rw [hevents] at hpairs ⊢
  exact ⟨_, _, rfl, rfl, rfl, rfl,
    List.pairwise_iff_getElem.1 hpairs 1 4 (by decide) (by decide) (by decide) rfl⟩

end DefiniteAssignment.Flow
