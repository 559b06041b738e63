import DefiniteAssignment.Proofs.Dominance.Limits
import DefiniteAssignment.Proofs.Flow.Events
import DefiniteAssignment.Proofs.Flow.Limits
import DefiniteAssignment.Proofs.Guarantee.AllPaths
/-!
# Limits of analyses

A limit decides whether there is an answer and never which. A run of the flow solver counts its
evaluations and a dominator tree its passes, the last of which changes nothing; both are found as
soon as the limit allows what is needed without one, and they are the same from there on. The
guaranteed definitions take a run over sets of locals, and before it either a run over sets of nodes
or a tree, all within the same limit, so that they do not change either:

> `answers_of_limit_le`
-/

namespace DefiniteAssignment

variable {g : Graph} {config config' : Config}

theorem Dominators.iterative_of_le {limit limit' : Nat} {d : Dominators}
    (hok : iterative g limit = .ok d) (hle : limit ≤ limit') : iterative g limit' = .ok d := by
  obtain ⟨solution, hsolve, -⟩ := Flow.map_eq_ok_iff.1 hok
  rwa [iterative, Flow.solve_eq_of_le hsolve hle]

/-- A greater limit gives the same dominators. -/
theorem Dominators.compute_of_le {d : Dominators} (hok : (compute g config).value = .ok d)
    (halg : config'.dominators = config.dominators)
    (hle : config.maxIterations ≤ config'.maxIterations) : (compute g config').value = .ok d := by
  cases hcase : config.dominators with
  | iterative =>
    rw [value_compute_iterative hcase] at hok
    rw [value_compute_iterative (halg.trans hcase)]
    exact iterative_of_le hok hle
  | cooper =>
    rw [value_compute_cooper hcase] at hok
    rw [value_compute_cooper (halg.trans hcase)]
    obtain ⟨t, htree, hd⟩ := Flow.map_eq_ok_iff.1 hok
    exact Flow.map_eq_ok_iff.2 ⟨t, DominatorTree.ofGraph_of_le htree hle, hd⟩

/-- A greater limit gives the same guaranteed definitions. -/
theorem Guarantees.compute_of_le {r : Guarantees} (hok : (compute g config).value = .ok r)
    (halg : config'.dominators = config.dominators)
    (hpolicy : config'.unreachable = config.unreachable)
    (hle : config.maxIterations ≤ config'.maxIterations) : (compute g config').value = .ok r := by
  unfold compute at hok ⊢
  rw [Logged.value_bind] at hok ⊢
  cases hdom : (Dominators.compute g config).value with
  | error e =>
    rw [hdom] at hok
    cases hok
  | ok d =>
    have hsize := (Dominators.describes_of_compute hdom).size_sets
    rw [hdom] at hok
    rw [Dominators.compute_of_le hdom halg hle]
    dsimp only at hok ⊢
    rw [value_withDominators hsize, Flow.map_eq_ok_iff] at hok ⊢
    obtain ⟨solution, hsolve, hr⟩ := hok
    refine ⟨solution, ?_, hpolicy ▸ hr⟩
    rw [Flow.solve_eq_of_le hsolve hle]
    exact hsolve

/-- With a greater limit, runs, trees and guaranteed definitions that are found are found again.
What is not found has used up its limit, and a run has made by then the first events of any longer
one. Runs and trees are found exactly if the limit is no less than what they take without one. -/
theorem answers_of_limit_le {F : Type} [DecidableEq F] (g : Graph) (p : Flow.Problem F)
    {limit limit' : Nat} (hle : limit ≤ limit') :
    ((∀ solution, (Flow.solve g p limit).outcome = .ok solution →
        Flow.solve g p limit' = Flow.solve g p limit) ∧
      (∀ e, (Flow.solve g p limit).outcome = .error e →
        e = .divergence limit limit ∧ (Flow.solve g p limit).events.length = limit ∧
          (Flow.solve g p limit).events <+: (Flow.solve g p limit').events) ∧
      ((∃ solution, (Flow.solve g p limit).outcome = .ok solution) ↔
        ∃ k ≤ limit, (Flow.initialState g p).Takes g p k)) ∧
    ((∀ t, DominatorTree.ofGraph g limit = .ok t → DominatorTree.ofGraph g limit' = .ok t) ∧
      (∀ e, DominatorTree.ofGraph g limit = .error e → e = .divergence limit limit) ∧
      ((∃ t, DominatorTree.ofGraph g limit = .ok t) ↔
        ∃ passes ≤ limit, DominatorTree.TakesPasses g passes)) ∧
    ∀ (config : Config) (r : Guarantees),
      (Guarantees.compute g { config with maxIterations := limit }).value = .ok r →
        (Guarantees.compute g { config with maxIterations := limit' }).value = .ok r := by
  refine ⟨⟨?_, ?_, Flow.exists_solution_iff_takes⟩, ⟨?_, ?_, ?_⟩, ?_⟩
  · intro solution hok
    exact Flow.solve_eq_of_le hok hle
  · intro e herror
    obtain ⟨heq, hlength⟩ := Flow.exceeds_of_solve herror
    exact ⟨heq, hlength, Flow.events_prefix_of_le g p hle⟩
  · intro t hok
    exact DominatorTree.ofGraph_of_le hok hle
  · intro e herror
    exact DominatorTree.eq_divergence_of_ofGraph herror
  · constructor
    · intro h
      obtain ⟨t, hok⟩ := h
      obtain ⟨passes, hpasses, htakes, -⟩ := DominatorTree.ofGraph_eq_ok_iff.1 hok
      exact ⟨passes, hpasses, htakes⟩
    · intro h
      obtain ⟨passes, hpasses, htakes⟩ := h
      exact ⟨_, DominatorTree.ofGraph_eq_ok_iff.2 ⟨passes, hpasses, htakes, rfl⟩⟩
  · intro config r hok
    exact Guarantees.compute_of_le hok rfl rfl hle

/-- The run takes nine evaluations and the tree two passes. One less of either is too little, and
one more changes nothing. -/
theorem answers_sample :
    let p := Flow.Problem.avoided 2
    (Flow.solve .sample p 8).outcome = .error (.divergence 8 8) ∧
      (Flow.solve .sample p 8).events <+: (Flow.solve .sample p 9).events ∧
      Flow.solve .sample p 10 = Flow.solve .sample p 9 ∧
      (∃ k ≤ 9, (Flow.initialState .sample p).Takes .sample p k) ∧
      DominatorTree.ofGraph .sample 1 = .error (.divergence 1 1) ∧
      (∃ passes ≤ 2, DominatorTree.TakesPasses .sample passes) ∧
      DominatorTree.ofGraph .sample 3 = DominatorTree.ofGraph .sample 2 ∧
      (Guarantees.compute .sample ⟨10, .top, .cooper⟩).value =
        (Guarantees.compute .sample ⟨9, .top, .cooper⟩).value := by
  intro p
  have herror : (Flow.solve .sample p 8).outcome = .error (.divergence 8 8) := by cbv
  have hok : (Flow.solve .sample p 9).outcome =
      .ok ⟨#[false, false, false, false, true], #[false, false, false, false, true], 9⟩ := by cbv
  have htree : DominatorTree.ofGraph .sample 2 =
      .ok ⟨#[none, some 0, some 0, some 0, none], #[1, 2, 3, 4, 0], [0, 1, 2, 3]⟩ := by cbv
  have hnotree : DominatorTree.ofGraph .sample 1 = .error (.divergence 1 1) := by cbv
  obtain ⟨r, hr⟩ : ∃ r, (Guarantees.compute .sample ⟨9, .top, .cooper⟩).value = .ok r := by
    exact ⟨_, by cbv⟩
  obtain ⟨⟨-, hshort, -⟩, -, -⟩ := answers_of_limit_le .sample p (show 8 ≤ 9 by decide)
  obtain ⟨⟨hrun, -, htakes⟩, -, hanalysis⟩ := answers_of_limit_le .sample p (show 9 ≤ 10 by decide)
  obtain ⟨-, ⟨hfound, -, hpasses⟩, -⟩ := answers_of_limit_le .sample p (show 2 ≤ 3 by decide)
  exact ⟨herror, (hshort _ herror).2.2, hrun _ hok, htakes.1 ⟨_, hok⟩, hnotree,
    hpasses.1 ⟨_, htree⟩, (hfound _ htree).trans htree.symm,
    (hanalysis ⟨9, .top, .cooper⟩ r hr).trans hr.symm⟩

end DefiniteAssignment
