import DefiniteAssignment.Proofs.Flow.Steps
/-!
# Monotone problems

A problem is monotone if its facts are ordered, merging and transferring keep the order, and the
initial fact is the greatest. What is assumed of the nodes at first is then too much, if anything,
and an evaluation only takes back what is too much. Two things follow.

No evaluation takes back more than it must: each keeps the outputs above those of any solution of
the flow equations. Since what a run comes to is a solution, it is the greatest one:

> `greatest_of_solve`

And no evaluation gives back what another has taken: an output is always above what its node would
be given next (`Falling`), so that outputs fall with each change. If facts cannot fall for long, all
runs end, and there is a bound on their steps:

> `exists_solution_of_height`
-/

namespace DefiniteAssignment

variable {F : Type} {g : Graph} {p : Flow.Problem F} {n : Nat}

/-- There is only one way to list the predecessors that control can get to. -/
theorem Graph.ReachablePreds.eq {l : List Nat} (h : g.ReachablePreds n l) :
    l = g.reachablePred n := by
  have h' := g.reachablePreds_reachablePred n
  refine h.ascending.eq_of_mem_iff h'.ascending ?_
  intro q
  rw [h.mem_iff, h'.mem_iff]

namespace Flow

/-! ## What flows in, from what flows out -/

/-- What flows into a node when `output` is what flows out of all nodes. -/
def Problem.inputFrom (p : Problem F) (g : Graph) (output : Nat → F) (n : Nat) : F :=
  p.mergeAll <|
    (if g.entry = some n then [p.entryFact] else []) ++ (g.reachablePred n).map output

theorem Problem.inputAt_eq_inputFrom (p : Problem F) (g : Graph) (after : Array F) (n : Nat) :
    p.inputAt g after n = p.inputFrom g (p.outputAt after) n := rfl

theorem Problem.Solves.input_eq {input output : Nat → F} (h : p.Solves g input output)
    (hn : g.Reaches n) : input n = p.inputFrom g output n := by
  unfold Problem.inputFrom
  by_cases he : g.entry = some n
  · obtain ⟨preds, hpreds, hinput⟩ := h.input_entry n he
    rw [hinput, hpreds.eq, if_pos he, List.singleton_append, Problem.mergeAll, List.foldl_map]
  · obtain ⟨q, preds, hpreds, hinput⟩ := h.input_inner n hn he
    rw [hinput, ← hpreds.eq, if_neg he, List.nil_append, List.map_cons, Problem.mergeAll,
      List.foldl_map]

variable [PartialOrder F]

/-- Merging and transferring keep the order of facts, and no fact is above the initial one. -/
structure Problem.IsMonotone (p : Problem F) : Prop where
  merge_mono : ∀ a a' b b', a ≤ a' → b ≤ b' → p.merge a b ≤ p.merge a' b'
  transfer_mono : ∀ n, Monotone (p.transfer n)
  le_initialFact : ∀ a, a ≤ p.initialFact

/-- Whether control has passed a node on every path. -/
def Problem.passed (m : Nat) : Problem Bool where
  entryFact := false
  initialFact := true
  merge := and
  transfer n fact := fact || n == m

theorem Problem.isMonotone_passed (m : Nat) : (passed m).IsMonotone where
  merge_mono a a' b b' := by
    show a ≤ a' → b ≤ b' → (a && b) ≤ (a' && b')
    revert a a' b b'
    decide
  transfer_mono n a b := by
    show a ≤ b → (a || n == m) ≤ (b || n == m)
    generalize (n == m) = here
    revert a b here
    decide
  le_initialFact := by
    show ∀ a : Bool, a ≤ true
    decide

namespace Problem.IsMonotone

variable (hp : p.IsMonotone)
include hp

theorem foldl_mono {l l' : List F} (h : List.Forall₂ (· ≤ ·) l l') {a a' : F} (ha : a ≤ a') :
    l.foldl p.merge a ≤ l'.foldl p.merge a' := by
  induction h generalizing a a' with
  | nil => exact ha
  | cons hb _ ih => exact ih (hp.merge_mono _ _ _ _ ha hb)

theorem mergeAll_mono {l l' : List F} (h : List.Forall₂ (· ≤ ·) l l') :
    p.mergeAll l ≤ p.mergeAll l' := by
  cases h with
  | nil => exact le_refl _
  | cons ha hl => exact hp.foldl_mono hl ha

/-- Less flows into a node if less flows out of the nodes that control can get to. -/
theorem inputFrom_mono {output output' : Nat → F} (h : ∀ q, g.Reaches q → output q ≤ output' q)
    (n : Nat) : p.inputFrom g output n ≤ p.inputFrom g output' n := by
  apply hp.mergeAll_mono
  apply List.rel_append
  · exact List.forall₂_same.2 fun a _ => le_refl a
  · rw [List.forall₂_map_left_iff, List.forall₂_map_right_iff, List.forall₂_same]
    intro q hq
    exact h q (Graph.mem_reachablePred.1 hq).2

end Problem.IsMonotone

/-! ## The greatest solution -/

section Solutions

variable [DecidableEq F] {limit : Nat} {solution : Solution F}

/-- No evaluation makes an output less than it is in a solution. -/
theorem Problem.IsMonotone.output_le (hp : p.IsMonotone) {input output : Nat → F}
    (h : p.Solves g input output) (hok : (solve g p limit).outcome = .ok solution) (n : Nat)
    (hn : g.Reaches n) : output n ≤ p.outputAt solution.after n := by
  refine output_of_solve (R := fun n x => g.Reaches n → output n ≤ x) ?_ ?_ hok n hn
  · intro n _
    exact hp.le_initialFact (output n)
  · intro after n hn hle _
    rw [h.output_eq n hn, h.input_eq hn, p.inputAt_eq_inputFrom]
    exact hp.transfer_mono n (hp.inputFrom_mono hle n)

/-- What a run comes to is the greatest solution of the flow equations. -/
theorem greatest_of_solve (hp : p.IsMonotone) (hok : (solve g p limit).outcome = .ok solution) :
    ∃ input output, p.Solves g input output ∧
      (∀ n, g.Reaches n →
        solution.before[n]? = some (input n) ∧ solution.after[n]? = some (output n)) ∧
      ∀ input' output', p.Solves g input' output' →
        ∀ n, g.Reaches n → input' n ≤ input n ∧ output' n ≤ output n := by
  have hfacts := fun n hn => IsRun.initial.facts_eq hok (n := n) hn
  refine ⟨p.inputAt g solution.after, p.outputAt solution.after,
    Problem.solves_inputAt fun n hn => (hfacts n hn).2, ?_, ?_⟩
  · intro n hn
    refine ⟨(hfacts n hn).1, ?_⟩
    rw [Problem.outputAt, (hfacts n hn).2, Option.getD_some]
  · intro input' output' h n hn
    have hle := hp.output_le h hok
    refine ⟨?_, hle n hn⟩
    rw [h.input_eq hn, p.inputAt_eq_inputFrom]
    exact hp.inputFrom_mono hle n

/-- Control can get to node 3 without passing node 1, and there is no solution that says
otherwise. -/
theorem greatest_sample : ¬∃ input output,
    (Problem.passed 1).Solves .sample input output ∧ input 3 = true := by
  have hok : (solve .sample (Problem.passed 1) 100).outcome =
      .ok ⟨#[false, false, false, false, true], #[false, true, false, false, true], 6⟩ := by cbv
  have hreaches : Graph.sample.Reaches 3 := Graph.isReachable_iff.1 (by cbv)
  obtain ⟨input, output, -, hfacts, hgreatest⟩ :=
    greatest_of_solve (Problem.isMonotone_passed 1) hok
  have hinput : false = input 3 := Option.some.inj (hfacts 3 hreaches).1
  rintro ⟨input', output', h, htrue⟩
  have hle := (hgreatest input' output' h 3 hreaches).1
  rw [← hinput, htrue] at hle
  cases hle rfl

end Solutions

/-! ## Falling outputs -/

/-- Each output is above what its node would be given next. -/
def Problem.Falling (p : Problem F) (g : Graph) (after : Array F) : Prop :=
  ∀ n, p.transfer n (p.inputAt g after n) ≤ p.outputAt after n

/-- An evaluation takes outputs down. -/
theorem Problem.Falling.output_le {after after' : Array F} (h : p.Falling g after)
    (hout : ∀ m, p.outputAt after' m =
      if m = n then p.transfer n (p.inputAt g after n) else p.outputAt after m) (m : Nat) :
    p.outputAt after' m ≤ p.outputAt after m := by
  rw [hout]
  split
  next hmn => exact hmn ▸ h m
  next => exact le_refl _

/-- An evaluation takes inputs down. -/
theorem Problem.Falling.input_le {after after' : Array F} (hp : p.IsMonotone)
    (h : p.Falling g after)
    (hout : ∀ m, p.outputAt after' m =
      if m = n then p.transfer n (p.inputAt g after n) else p.outputAt after m) (m : Nat) :
    p.inputAt g after' m ≤ p.inputAt g after m :=
  hp.inputFrom_mono (fun q _ => h.output_le hout q) m

/-- An evaluation leaves outputs that go on falling. -/
theorem Problem.Falling.evaluate {after after' : Array F} (hp : p.IsMonotone)
    (h : p.Falling g after)
    (hout : ∀ m, p.outputAt after' m =
      if m = n then p.transfer n (p.inputAt g after n) else p.outputAt after m) :
    p.Falling g after' := by
  intro m
  have hnext : p.transfer m (p.inputAt g after' m) ≤ p.transfer m (p.inputAt g after m) :=
    hp.transfer_mono m (h.input_le hp hout m)
  rw [hout m]
  split
  next hmn => exact hmn ▸ hnext
  next => exact hnext.trans (h m)

/-- If no fact can fall more than `h` times, a run that may take enough steps comes to a
solution. -/
theorem exists_solution_of_height [DecidableEq F] (hp : p.IsMonotone) {h limit : Nat}
    (hheight : ∀ l : List F, (p.initialFact :: l).IsChain (· > ·) → l.length ≤ h)
    (hlimit : g.reachableNodes.length + h * g.liveEdges.length ≤ limit) :
    ∃ solution, (solve g p limit).outcome = .ok solution ∧
      solution.steps ≤ g.reachableNodes.length + h * g.liveEdges.length := by
  refine exists_solution_of_chains (p.Falling g) (· > ·) ?_ ?_ ?_ hheight hlimit
  · intro after after' n _ hfalling hout
    exact hfalling.evaluate hp hout
  · intro after n _ hfalling hne
    exact lt_of_le_of_ne (hfalling n) hne
  · intro after hinitial n
    rw [hinitial]
    exact hp.le_initialFact _

/-- A truth value can fall once, so that eleven steps are enough for four nodes and seven edges. -/
theorem exists_solution_sample :
    ∃ solution, (solve .sample (Problem.passed 1) 11).outcome = .ok solution ∧
      solution.steps ≤ 11 := by
  have hheight : ∀ l : List Bool, (true :: l).IsChain (· > ·) → l.length ≤ 1 := by
    intro l hl
    match l, hl with
    | [], _ => exact Nat.zero_le 1
    | [_], _ => exact Nat.le_refl 1
    | a :: b :: l, hl =>
      obtain ⟨ha, hl⟩ := List.isChain_cons_cons.1 hl
      have hfalse := (Bool.lt_iff.1 ha).1
      have htrue := (Bool.lt_iff.1 (List.isChain_cons_cons.1 hl).1).2
      exact absurd (hfalse.symm.trans htrue) Bool.false_ne_true
  have hnodes : Graph.sample.reachableNodes.length = 4 := by cbv
  have hedges : Graph.sample.liveEdges.length = 7 := by cbv
  have hlimit : Graph.sample.reachableNodes.length + 1 * Graph.sample.liveEdges.length ≤ 11 := by
    rw [hnodes, hedges]
  have hsolution := exists_solution_of_height (Problem.isMonotone_passed 1) hheight hlimit
  rwa [hnodes, hedges] at hsolution

end Flow

end DefiniteAssignment
