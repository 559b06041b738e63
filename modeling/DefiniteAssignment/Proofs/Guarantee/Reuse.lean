import DefiniteAssignment.Proofs.Flow.Limits
import DefiniteAssignment.Proofs.Graph.Acyclic
import DefiniteAssignment.Proofs.Guarantee.Completion
/-!
# Dominators of other graphs

The guaranteed definitions of a graph may be worked out from dominators that were found for another
graph. All that is asked of them is that they are dominators of as many nodes; otherwise they are
refused. They need not have anything to do with how control goes through the graph, and then the
generate sets have nothing to do with it either:

> `withDominators_of_found`: what is reported for a node is what every path to it finds in the
> generate sets of the nodes that it passes, whatever these sets are.

The flow problem is a must problem for any generate sets. The number of nodes is enough for all that
is looked up to be there (`InRange`): dominators that were found name no node beyond it.
-/

namespace DefiniteAssignment.Guarantees

variable {g g' : Graph} {d : Dominators} {n limit : Nat} {v : String}
  {solution : Flow.Solution BitSet}

/-! ## Names of generate sets and of solutions -/

/-- If a set holds the places of the locals with some property, their names are read off it. -/
theorem mem_namesOf_iff {set : BitSet} (hset : BitSet.Over g.locals.length set)
    (holds : String → Prop) (hmentions : ∀ v, holds v → g.Mentions v)
    (hplaces : ∀ i v, g.locals[i]? = some v → (set.contains i = true ↔ holds v)) :
    v ∈ namesOf g.locals.toArray set ↔ holds v := by
  rw [mem_namesOf hset]
  constructor
  · intro h
    obtain ⟨i, hi, hin⟩ := h
    exact (hplaces i v hi).1 hin
  · intro hv
    obtain ⟨i, hi⟩ := List.mem_iff_getElem?.1 (Graph.mem_locals.2 (hmentions v hv))
    exact ⟨i, hi, (hplaces i v hi).2 hv⟩

/-- The generate set of a node is what the nodes write that are taken for its dominators. -/
theorem exists_generateSet? (hn : n < g.size) (d : Dominators) (policy : UnreachablePolicy)
    (solution : Flow.Solution BitSet) :
    ∃ names, (ofSolution g policy (generateSets g d) solution).generateSet? n = some names ∧
      names.Pairwise (· < ·) ∧ ∀ v, v ∈ names ↔ ∃ m ∈ d.dominatorsOf n, g.Defines m v := by
  refine ⟨namesOf g.locals.toArray (generateSet g d n), ?_,
    pairwise_namesOf g.pairwise_locals _, ?_⟩
  · rw [generateSet?, ofSolution, Array.getElem?_map, getElem?_generateSets hn d, Option.map_some]
  · intro v
    have hcontains := fun i v (hi : g.locals[i]? = some v) => contains_generateSet hn hi d
    refine mem_namesOf_iff (over_generateSet g d n)
      (fun v => ∃ m ∈ d.dominatorsOf n, g.Defines m v) ?_ hcontains
    rintro v ⟨m, -, hdef⟩
    exact hdef.mentions

/-- A path finds a local in a generate set if it passes a node for which some dominator writes
it. -/
theorem addedBefore_generateSet_iff {i : Nat} (hi : g.locals[i]? = some v) :
    Flow.AddedBefore g (fun n i => (generateSet g d n).contains i = true) n i ↔
      ∀ l, g.EntryPath l n → ∃ m ∈ l, ∃ k ∈ d.dominatorsOf m, g.Defines k v := by
  refine forall₂_congr fun l hl => exists_congr fun m => and_congr_right fun hm => ?_
  obtain ⟨l', hl', -⟩ := hl.exists_path_of_mem hm
  exact contains_generateSet hl'.lt_size hi d

/-- What is read off a solution for a node that control can get to. -/
theorem exists_definedAt? (hok : (Flow.solve g (problem g.locals.length (generateSets g d))
      limit).outcome = .ok solution) (hn : g.Reaches n) (policy : UnreachablePolicy) :
    ∃ names, (ofSolution g policy (generateSets g d) solution).definedAt? n = some names ∧
      names.Pairwise (· < ·) ∧
      ∀ v, v ∈ names ↔
        ∀ l, g.EntryPath l n → ∃ m ∈ l, ∃ k ∈ d.dominatorsOf m, g.Defines k v := by
  obtain ⟨set, hset, hover, hmem⟩ := (isMust_problem g d).mem_before_iff hok hn
  refine ⟨namesOf g.locals.toArray set, ?_, pairwise_namesOf g.pairwise_locals set, ?_⟩
  · rw [definedAt?_ofSolution hn.lt_size, resultAt_of_reaches hn, hset, Option.map_some]
  · intro v
    refine mem_namesOf_iff hover
      (fun v => ∀ l, g.EntryPath l n → ∃ m ∈ l, ∃ k ∈ d.dominatorsOf m, g.Defines k v) ?_ ?_
    · intro v hall
      obtain ⟨l, hl⟩ := hn
      obtain ⟨m, -, k, -, hdef⟩ := hall l hl
      exact hdef.mentions
    · intro i v hi
      rw [hmem i (List.getElem?_eq_some_iff.1 hi).1]
      exact addedBefore_generateSet_iff hi

/-! ## What is looked up -/

/-- The state that the run for the generate sets is in after `k` evaluations, if nothing stops
it. -/
def stateAfter (g : Graph) (d : Dominators) (k : Nat) : Flow.State BitSet :=
  let p := problem g.locals.length (generateSets g d)
  (Flow.initialState g p).afterSteps g p k

/-- What is looked up is there, from the words that a place is written to and the sets of the
dominators to the names that are reported, and in every state of the run on the way. -/
structure InRange (g : Graph) (d : Dominators) : Prop where
  written : ∀ names, ∀ i < g.locals.length, i / 64 < (indexSet g.locals names).words.size
  defined : ∀ n, ∀ m ∈ d.dominatorsOf n, m < (definedSets g).size
  evaluated : ∀ k, ∀ n ∈ (stateAfter g d k).queue,
    (stateAfter g d k).InRange g n ∧ n < (generateSets g d).size
  generated : ∀ n < g.size, ∃ set, (generateSets g d)[n]? = some set ∧ Places g set
  reported : ∀ limit solution,
    (Flow.solve g (problem g.locals.length (generateSets g d)) limit).outcome = .ok solution →
    ∀ n, g.Reaches n → ∃ set, solution.before[n]? = some set ∧ Places g set

theorem valid_stateAfter (g : Graph) (d : Dominators) (k : Nat) :
    Flow.State.Valid g (problem g.locals.length (generateSets g d)) (stateAfter g d k) :=
  Flow.State.afterSteps_of_step (fun _ _ _ hs hq => hs.step hq)
    (Flow.State.valid_start Array.size_replicate Array.size_replicate _) k

/-- It is enough that only nodes of the graph are taken for dominators. -/
theorem inRange_of_lt (h : ∀ n, ∀ m ∈ d.dominatorsOf n, m < g.size) : InRange g d where
  written names i hi := by
    rw [(over_indexSet g.nodup_locals names).size_words]
    exact BitSet.div_lt_wordCount hi
  defined n m hm := size_definedSets g ▸ h n m hm
  evaluated k n hn := by
    have hvalid := valid_stateAfter g d k
    exact ⟨hvalid.inRange hn, size_generateSets g d ▸ (hvalid.waits.reaches n hn).lt_size⟩
  generated n hn := ⟨_, getElem?_generateSets hn d, places_of_over (over_generateSet g d n)⟩
  reported limit solution hok n hn := by
    obtain ⟨set, hset, hover, -⟩ := (isMust_problem g d).mem_before_iff hok hn
    exact ⟨set, hset, places_of_over hover⟩

/-! ## Guaranteed definitions -/

/-- Dominators that either algorithm has found for a graph of as many nodes serve as well as any:
all that is looked up is there, only too small a limit makes the analysis fail, and its result is
what every path finds in the generate sets of the nodes that it passes. Dominators of another number
of nodes are refused, and this is all that happens. -/
theorem withDominators_of_found (hd : d.Found g') (config : Config) :
    (g'.size = g.size →
      InRange g d ∧
      (∀ e, (withDominators g d config).value = .error e →
        e = .divergence config.maxIterations config.maxIterations) ∧
      ∀ r, (withDominators g d config).value = .ok r →
        (∀ n < g.size, ∃ names, r.generateSet? n = some names ∧ names.Pairwise (· < ·) ∧
          ∀ v, v ∈ names ↔ ∃ m ∈ d.dominatorsOf n, g.Defines m v) ∧
        ∀ n, g.Reaches n → ∃ names, r.definedAt? n = some names ∧ names.Pairwise (· < ·) ∧
          ∀ v, v ∈ names ↔ ∀ l, g.EntryPath l n →
            ∃ m ∈ l, ∃ generated, r.generateSet? m = some generated ∧ v ∈ generated) ∧
    (g'.size ≠ g.size →
      withDominators g d config = pure (.error (.dominatorSize g.size g'.size))) := by
  have hdescribes := hd.describes
  constructor
  · intro hsize
    have hvalue := value_withDominators (hdescribes.size_sets.trans hsize) config
    refine ⟨inRange_of_lt fun n m hm => hsize ▸ hdescribes.lt_size_of_mem hm, ?_, ?_⟩
    · intro e herror
      exact Flow.eq_divergence_of_solve (Flow.eq_error_of_map (hvalue.symm.trans herror))
    · intro r hr
      obtain ⟨solution, hok, rfl⟩ := Flow.map_eq_ok_iff.1 (hvalue.symm.trans hr)
      refine ⟨fun n hn => exists_generateSet? hn d _ solution, ?_⟩
      intro n hn
      obtain ⟨names, hnames, hpairwise, hmem⟩ := exists_definedAt? hok hn config.unreachable
      refine ⟨names, hnames, hpairwise, ?_⟩
      intro v
      rw [hmem]
      refine forall₂_congr fun l hl => exists_congr fun m => and_congr_right fun hm => ?_
      obtain ⟨l', hl', -⟩ := hl.exists_path_of_mem hm
      obtain ⟨generated, hgenerated, -, hin⟩ :=
        exists_generateSet? hl'.lt_size d config.unreachable solution
      rw [← hin, hgenerated]
      simp
  · intro hsize
    have hcount : d.size = g'.size := hdescribes.size_sets
    rw [withDominators, if_pos (hcount.symm ▸ hsize), hcount]

/-- For the loop with the dominators of the two branches: the entry is taken to be dominated by the
node behind the loop, so that `c` is reported in the loop, though a path to it passes the entry
only, which does not write `c`. -/
theorem withDominators_sample :
    let d : Dominators := ⟨#[⟨#[9], 5⟩, ⟨#[10], 5⟩, ⟨#[12], 5⟩, ⟨#[8], 5⟩, ⟨#[16], 5⟩]⟩
    let r : Guarantees :=
      ⟨["a", "b", "c", "d"], #[["a", "c"], ["b", "c"], ["b", "c"], ["c"], ["d"]],
        #[some [], some ["a", "c"], some ["a", "c"], some ["a", "b", "c"],
          some ["a", "b", "c", "d"]], 6⟩
    d.Found .diamond ∧ Graph.diamond.size = Graph.sample.size ∧
      (withDominators .sample d ⟨100, .top, .cooper⟩).value = .ok r ∧ InRange .sample d ∧
      (∀ l, Graph.sample.EntryPath l 1 →
        ∃ m ∈ l, ∃ generated, r.generateSet? m = some generated ∧ "c" ∈ generated) ∧
      Graph.diamond.size ≠ Graph.empty.size ∧
      withDominators .empty d ⟨100, .top, .cooper⟩ =
        pure (.error (.dominatorSize Graph.empty.size Graph.diamond.size)) := by
  intro d r
  have hok : Dominators.iterative .diamond 100 = .ok d := by cbv
  have hd : d.Found .diamond := .iterative hok
  have hsize : Graph.diamond.size = Graph.sample.size := by cbv
  have hempty : Graph.diamond.size ≠ Graph.empty.size := by
    rw [hsize]
    cbv
  have hvalue : (withDominators .sample d ⟨100, .top, .cooper⟩).value = .ok r := by cbv
  have hreaches : Graph.sample.Reaches 1 := Graph.isReachable_iff.1 (by cbv)
  obtain ⟨hsame, -⟩ := withDominators_of_found (g := .sample) hd ⟨100, .top, .cooper⟩
  obtain ⟨-, hother⟩ := withDominators_of_found (g := .empty) hd ⟨100, .top, .cooper⟩
  obtain ⟨hrange, -, hresult⟩ := hsame hsize
  obtain ⟨names, hnames, -, hmem⟩ := (hresult r hvalue).2 1 hreaches
  obtain rfl : ["a", "c"] = names := Option.some.inj hnames
  exact ⟨hd, hsize, hvalue, hrange, (hmem "c").1 (by decide), hempty, hother hempty⟩

end DefiniteAssignment.Guarantees
