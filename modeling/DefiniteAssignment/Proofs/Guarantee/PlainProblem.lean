import DefiniteAssignment.Proofs.Guarantee.AllPaths
/-!
# The plain problem

In the flow problem of guaranteed definitions a node adds what its dominators write. In the plain
problem it adds what it writes itself and nothing else. The two differ in the transfer of every
node, and so in what flows on the way to a solution; but in the end the same set flows into each
node, since a path adds the same locals in both. So what is reported can be read off a solution of
the plain problem:

> `definedAt?_eq_plain`

This is a fact about paths and not about runs, so that it does not matter how many evaluations
either solution took, nor how the dominators were found.
-/

namespace DefiniteAssignment.Guarantees

variable {g : Graph} {d : Dominators} {config : Config} {n : Nat}

/-- The flow problem of locals in which a node adds those that it writes. -/
def plainProblem (g : Graph) : Flow.Problem BitSet :=
  problem g.locals.length (definedSets g)

theorem isMust_plainProblem (g : Graph) : Flow.IsMust (plainProblem g) g.locals.length
    fun n i => (definedSet g n).contains i = true :=
  isMust_of_over (over_definedSet g)

/-- In the plain problem a path adds the locals that its nodes write. -/
theorem addedBefore_plain_iff {i : Nat} {v : String} (hi : g.locals[i]? = some v) :
    Flow.AddedBefore g (fun n i => (definedSet g n).contains i = true) n i ↔
      ∀ l, g.EntryPath l n → ∃ m ∈ l, g.Defines m v := by
  simp only [Flow.AddedBefore, contains_definedSet hi]

section Solutions

variable {limit limit' : Nat} {solution plain : Flow.Solution BitSet}
  (hd : d.Describes g)
  (hok : (Flow.solve g (problem g.locals.length (generateSets g d)) limit).outcome = .ok solution)
  (hplain : (Flow.solve g (plainProblem g) limit').outcome = .ok plain)
include hd hok hplain

/-- The same set flows into a node in both solutions. -/
theorem exists_before_plain (hn : g.Reaches n) : ∃ set, solution.before[n]? = some set ∧
    plain.before[n]? = some set ∧ BitSet.Over g.locals.length set := by
  obtain ⟨set, hset, hover, hmem⟩ := (isMust_problem g d).mem_before_iff hok hn
  obtain ⟨set', hset', hover', hmem'⟩ := (isMust_plainProblem g).mem_before_iff hplain hn
  have heq : set = set' := by
    refine BitSet.ext hover hover' fun i => ?_
    rw [Bool.eq_iff_iff]
    -- Only the places of locals can be members.
    have hplaces : i < g.locals.length →
        (set.contains i = true ↔ set'.contains i = true) := by
      intro hi
      have hv := List.getElem?_eq_getElem hi
      rw [hmem i hi, hmem' i hi, addedBefore_iff hd hv, addedBefore_plain_iff hv]
    exact ⟨fun h => (hplaces (hover.lt_of_contains h)).1 h,
      fun h => (hplaces (hover'.lt_of_contains h)).2 h⟩
  exact ⟨set, hset, heq ▸ hset', hover⟩

end Solutions

/-- What is reported for a node that control can get to are, in ascending order, the locals whose
places flow into the node in a solution of the plain problem, whatever the limits are. -/
theorem definedAt?_eq_plain {r : Guarantees} (h : (compute g config).value = .ok r) {limit : Nat}
    {plain : Flow.Solution BitSet}
    (hplain : (Flow.solve g (plainProblem g) limit).outcome = .ok plain) (hn : g.Reaches n) :
    ∃ set names, plain.before[n]? = some set ∧ r.definedAt? n = some names ∧
      names.Pairwise (· < ·) ∧
      ∀ v, v ∈ names ↔ ∃ i, g.locals[i]? = some v ∧ set.contains i = true := by
  obtain ⟨d, solution, hd, hok, rfl⟩ := exists_solution h
  obtain ⟨set, hset, hset', hover⟩ := exists_before_plain hd hok hplain hn
  refine ⟨set, namesOf g.locals.toArray set, hset', ?_, pairwise_namesOf g.pairwise_locals set,
    fun v => mem_namesOf hover⟩
  rw [definedAt?_ofSolution hn.lt_size, resultAt_of_reaches hn, hset, Option.map_some]

/-- Behind the loop the generate set has `a` in it, which only the entry writes; in the plain
problem `a` flows through the loop. -/
theorem definedAt?_plain_sample :
    let r : Guarantees :=
      ⟨["a", "b", "c", "d"], #[["a"], ["a", "b"], ["a", "b"], ["a", "c"], ["d"]],
        #[some [], some ["a"], some ["a"], some ["a", "b"], some ["a", "b", "c", "d"]], 6⟩
    (compute .sample ⟨100, .top, .cooper⟩).value = .ok r ∧
      ∃ plain, (Flow.solve .sample (plainProblem .sample) 6).outcome = .ok plain ∧
        ∃ set names, plain.before[3]? = some set ∧ r.definedAt? 3 = some names ∧
          names.Pairwise (· < ·) ∧
          ∀ v, v ∈ names ↔ ∃ i, Graph.sample.locals[i]? = some v ∧ set.contains i = true := by
  intro r
  have hfound : (compute .sample ⟨100, .top, .cooper⟩).value = .ok r := by cbv
  obtain ⟨plain, hplain⟩ :
      ∃ plain, (Flow.solve .sample (plainProblem .sample) 6).outcome = .ok plain := by
    exact ⟨_, by cbv⟩
  have hreaches : Graph.sample.Reaches 3 := Graph.isReachable_iff.1 (by cbv)
  exact ⟨hfound, plain, hplain, definedAt?_eq_plain hfound hplain hreaches⟩

end DefiniteAssignment.Guarantees
