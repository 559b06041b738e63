import DefiniteAssignment.Proofs.Dominance.Settling
import DefiniteAssignment.Proofs.Guarantee.AllPaths
/-!
# Analyses come to a result

The limit of a configuration bounds the dominators and the flow problem each for itself. It is large
enough for both if it allows for every node that control can get to, and for every edge out of these
as many changes as a set of nodes or of locals can shrink (`enoughSteps`): the outputs of a must
problem start as full sets and do nothing but shrink. Passes over links need no more than the nodes.

A limit that is too small is the only reason for an analysis to fail:

> `exists_or_divergence_of_compute`

That nothing is looked up in vain, neither a dominator nor the place of a local, is `LooksUp`.
-/

namespace DefiniteAssignment

variable {g : Graph} {d : Dominators} {config : Config} {e : AnalysisError}

/-! ## Dominators -/

namespace Dominators

/-- Enough steps for the sets of dominators: each of the sets gives up at most all nodes. -/
theorem exists_iterative {limit : Nat}
    (hlimit : g.reachableNodes.length + g.size * g.liveEdges.length ≤ limit) :
    ∃ d, iterative g limit = .ok d := by
  obtain ⟨solution, hok⟩ := (isMust_problem g.size).exists_solution hlimit
  unfold iterative
  rw [hok]
  exact ⟨_, rfl⟩

theorem eq_divergence_of_iterative {limit : Nat} (herror : iterative g limit = .error e) :
    e = .divergence limit limit :=
  Flow.eq_divergence_of_solve (Flow.eq_error_of_map herror)

/-- Either algorithm finds the dominators if it may take enough steps. -/
theorem exists_of_compute
    (hlimit : g.reachableNodes.length + g.size * g.liveEdges.length ≤ config.maxIterations) :
    ∃ d, (compute g config).value = .ok d := by
  cases halg : config.dominators with
  | iterative =>
    rw [value_compute_iterative halg]
    exact exists_iterative hlimit
  | cooper =>
    obtain ⟨t, passes, hbuild, -⟩ :=
      DominatorTree.exists_build (Nat.le_of_add_right_le hlimit)
    rw [value_compute_cooper halg, DominatorTree.ofGraph, hbuild]
    exact ⟨_, rfl⟩

/-- Dominators of either kind fail in one way only. -/
theorem eq_divergence_of_compute (herror : (compute g config).value = .error e) :
    e = .divergence config.maxIterations config.maxIterations := by
  cases halg : config.dominators with
  | iterative =>
    rw [value_compute_iterative halg] at herror
    exact eq_divergence_of_iterative herror
  | cooper =>
    rw [value_compute_cooper halg] at herror
    exact DominatorTree.eq_divergence_of_ofGraph (Flow.eq_error_of_map herror)

end Dominators

namespace Guarantees

/-! ## What is looked up -/

/-- The members of a set are places of locals. -/
def Places (g : Graph) (set : BitSet) : Prop :=
  ∀ i ∈ set.toList, ∃ v, g.locals[i]? = some v

theorem places_of_over {set : BitSet} (h : BitSet.Over g.locals.length set) : Places g set := by
  intro i hi
  have hlt := h.lt_of_contains (h.mem_toList.1 hi)
  exact ⟨g.locals[i], List.getElem?_eq_getElem hlt⟩

/-- What is looked up on the way from dominators to a result is there: what the dominators write,
what a node adds, what flows into it, and the names of all of these. -/
structure LooksUp (g : Graph) (d : Dominators) (solution : Flow.Solution BitSet) : Prop where
  defined : ∀ n, ∀ m ∈ d.dominatorsOf n, ∃ set, (definedSets g)[m]? = some set
  generated : ∀ n < g.size, ∃ set, (generateSets g d)[n]? = some set ∧ Places g set
  before : ∀ n, g.Reaches n → ∃ set, solution.before[n]? = some set ∧ Places g set

/-- All look-ups of names are in range, since sets keep to the locals of the graph. -/
theorem looksUp_of_solve {limit : Nat} {solution : Flow.Solution BitSet} (hd : d.Describes g)
    (hok : (Flow.solve g (problem g.locals.length (generateSets g d)) limit).outcome =
      .ok solution) : LooksUp g d solution where
  defined n m hm := by
    have hlt : m < (definedSets g).size := size_definedSets g ▸ hd.lt_size_of_mem hm
    exact ⟨_, Array.getElem?_eq_getElem hlt⟩
  generated n hn := ⟨_, getElem?_generateSets hn d, places_of_over (over_generateSet g d n)⟩
  before n hn := by
    obtain ⟨set, hset, hover, -⟩ := (isMust_problem g d).mem_before_iff hok hn
    exact ⟨set, hset, places_of_over hover⟩

/-! ## Guaranteed definitions -/

/-- A limit that is large enough for every graph like this: every node that control can get to, and
for every edge out of these as many changes as there are nodes or locals. -/
def enoughSteps (g : Graph) : Nat :=
  g.reachableNodes.length + g.liveEdges.length * max g.size g.locals.length

/-- The limit allows for sets of nodes and for sets of locals. -/
theorem le_enoughSteps {c : Nat} (hc : c ≤ max g.size g.locals.length) :
    g.reachableNodes.length + c * g.liveEdges.length ≤ enoughSteps g := by
  rw [enoughSteps, Nat.mul_comm c]
  exact Nat.add_le_add_left (Nat.mul_le_mul_left _ hc) _

/-- With enough steps for the dominators and for the locals there is a result. -/
theorem exists_of_compute (hlimit : enoughSteps g ≤ config.maxIterations) :
    ∃ r, (compute g config).value = .ok r := by
  obtain ⟨d, hdom⟩ := Dominators.exists_of_compute
    (Nat.le_trans (le_enoughSteps (Nat.le_max_left ..)) hlimit)
  obtain ⟨solution, hok⟩ := (isMust_problem g d).exists_solution
    (Nat.le_trans (le_enoughSteps (Nat.le_max_right ..)) hlimit)
  have hvalue := value_withDominators (Dominators.describes_of_compute hdom).size_sets config
  rw [hok] at hvalue
  unfold compute
  rw [Logged.value_bind, hdom]
  exact ⟨_, hvalue⟩

/-- The analysis fails in one way only, when its limit is reached. -/
theorem eq_divergence_of_compute (herror : (compute g config).value = .error e) :
    e = .divergence config.maxIterations config.maxIterations := by
  unfold compute at herror
  rw [Logged.value_bind] at herror
  cases hdom : (Dominators.compute g config).value with
  | error cause =>
    rw [hdom] at herror
    obtain rfl : cause = e := Except.error.inj herror
    exact Dominators.eq_divergence_of_compute hdom
  | ok d =>
    rw [hdom] at herror
    have hvalue := value_withDominators (Dominators.describes_of_compute hdom).size_sets config
    exact Flow.eq_divergence_of_solve (Flow.eq_error_of_map (hvalue.symm.trans herror))

/-- An analysis comes to a result if its limit is large enough, and a limit that is too small is all
that it can fail for. On the way it looks nothing up that is not there. -/
theorem exists_or_divergence_of_compute (g : Graph) (config : Config) :
    (enoughSteps g ≤ config.maxIterations → ∃ r, (compute g config).value = .ok r) ∧
    (∀ e, (compute g config).value = .error e → config.maxIterations < enoughSteps g ∧
      e = .divergence config.maxIterations config.maxIterations) ∧
    ∀ d solution, (Dominators.compute g config).value = .ok d →
      (Flow.solve g (problem g.locals.length (generateSets g d)) config.maxIterations).outcome =
        .ok solution → LooksUp g d solution := by
  refine ⟨exists_of_compute, ?_, ?_⟩
  · intro e herror
    refine ⟨?_, eq_divergence_of_compute herror⟩
    by_contra henough
    obtain ⟨r, hok⟩ := exists_of_compute (Nat.le_of_not_lt henough)
    rw [hok] at herror
    cases herror
  · intro d solution hdom hok
    exact looksUp_of_solve (Dominators.describes_of_compute hdom) hok

/-- Four nodes and seven edges; there are five nodes in all, which is more than there are locals. -/
theorem completes_sample :
    enoughSteps .sample = 39 ∧ (∃ r, (compute .sample ⟨39, .top, .cooper⟩).value = .ok r) ∧
      (compute .sample ⟨5, .top, .iterative⟩).value = .error (.divergence 5 5) ∧
      5 < enoughSteps .sample ∧
      LooksUp .sample ⟨#[⟨#[1], 5⟩, ⟨#[3], 5⟩, ⟨#[5], 5⟩, ⟨#[9], 5⟩, ⟨#[16], 5⟩]⟩
        ⟨#[⟨#[0], 4⟩, ⟨#[1], 4⟩, ⟨#[1], 4⟩, ⟨#[3], 4⟩, ⟨#[15], 4⟩],
          #[⟨#[1], 4⟩, ⟨#[3], 4⟩, ⟨#[3], 4⟩, ⟨#[7], 4⟩, ⟨#[15], 4⟩], 6⟩ := by
  have henough : enoughSteps .sample = 39 := by cbv
  have herror : (compute .sample ⟨5, .top, .iterative⟩).value = .error (.divergence 5 5) := by cbv
  obtain ⟨hok, -, hlooks⟩ := exists_or_divergence_of_compute .sample ⟨39, .top, .cooper⟩
  obtain ⟨-, hless, -⟩ := exists_or_divergence_of_compute .sample ⟨5, .top, .iterative⟩
  exact ⟨henough, hok (Nat.le_of_eq henough), herror, (hless _ herror).1,
    hlooks _ _ (by cbv) (by cbv)⟩

end Guarantees

end DefiniteAssignment
