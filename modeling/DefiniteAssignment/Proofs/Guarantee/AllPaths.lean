import DefiniteAssignment.Proofs.Dominance.Immediate
import DefiniteAssignment.Proofs.Guarantee.Names
/-!
# Guaranteed definitions are those of all paths

What is reported for a node are the locals that are written on every path to it:

> `definedAt?_of_compute`

The flow problem is a must problem, so that its solution holds the locals which every path finds in
the generate set of some node on the way. A generate set has more in it than what its node writes;
but the path to the node has passed the dominators which write the rest, so that the larger sets do
not make a difference (`addedBefore_iff`).
-/

namespace DefiniteAssignment

variable {g : Graph} {d : Dominators} {config : Config}

namespace Guarantees

/-! ## Generate sets -/

/-- The places of the locals that a node writes. -/
def definedSet (g : Graph) (m : Nat) : BitSet :=
  (definedSets g)[m]?.getD (BitSet.empty g.locals.length)

/-- The places of the locals that the dominators of a node write. -/
def generateSet (g : Graph) (d : Dominators) (n : Nat) : BitSet :=
  (generateSets g d)[n]?.getD (BitSet.empty g.locals.length)

/-- The set of what a node writes has the locals of the graph for its capacity. -/
theorem over_definedSet (g : Graph) (m : Nat) : BitSet.Over g.locals.length (definedSet g m) := by
  unfold definedSet definedSets
  rw [Array.getElem?_map]
  cases g.nodes[m]? with
  | none => exact BitSet.over_empty _
  | some node => exact over_indexSet g.nodup_locals _

/-- The set of what a node writes has the places of the locals that it writes. -/
theorem contains_definedSet {i : Nat} {v : String} (hi : g.locals[i]? = some v) (m : Nat) :
    (definedSet g m).contains i = true ↔ g.Defines m v := by
  unfold definedSet definedSets Graph.Defines
  rw [Array.getElem?_map]
  cases g.nodes[m]? with
  | none =>
    rw [Option.map_none, Option.getD_none, BitSet.contains_empty]
    simp
  | some node =>
    rw [Option.map_some, Option.getD_some, contains_indexSet g.nodup_locals hi, Node.mem_localDefs]
    simp

/-- The union of the sets of several nodes has what any of them has. -/
theorem foldl_union {c : Nat} {f : Nat → BitSet} (hf : ∀ m, BitSet.Over c (f m)) {nodes : List Nat}
    {s : BitSet} (hs : BitSet.Over c s) :
    BitSet.Over c (nodes.foldl (fun set m => set.union (f m)) s) ∧ ∀ i,
      (nodes.foldl (fun set m => set.union (f m)) s).contains i = true ↔
        s.contains i = true ∨ ∃ m ∈ nodes, (f m).contains i = true := by
  induction nodes generalizing s with
  | nil => exact ⟨hs, by simp⟩
  | cons m nodes ih =>
    obtain ⟨hover, hmem⟩ := ih (BitSet.over_union hs (hf m))
    refine ⟨hover, ?_⟩
    intro i
    rw [List.foldl_cons, hmem, BitSet.contains_union hs (hf m), Bool.or_eq_true, or_assoc]
    simp

theorem size_definedSets (g : Graph) : (definedSets g).size = g.size :=
  Array.size_map ..

/-- Every node has a generate set. -/
theorem size_generateSets (g : Graph) (d : Dominators) : (generateSets g d).size = g.size := by
  rw [generateSets, Array.size_map, Array.size_range]

/-- The generate sets stand at the indices of their nodes. -/
theorem getElem?_generateSets {n : Nat} (hn : n < g.size) (d : Dominators) :
    (generateSets g d)[n]? = some (generateSet g d n) := by
  rw [generateSet, Array.getElem?_eq_getElem ((size_generateSets g d).symm ▸ hn), Option.getD_some]

/-- A generate set has the locals of the graph for its capacity. -/
theorem over_generateSet (g : Graph) (d : Dominators) (n : Nat) :
    BitSet.Over g.locals.length (generateSet g d n) := by
  unfold generateSet generateSets
  rcases Nat.lt_or_ge n g.size with hn | hn
  · simp only [Array.getElem?_map, hn, Array.getElem?_range, if_true, Option.map_some,
      Option.getD_some]
    exact (foldl_union (over_definedSet g) (BitSet.over_empty _)).1
  · rw [Array.getElem?_eq_none (by simpa using hn)]
    exact BitSet.over_empty _

/-- A generate set has what the node or one of its dominators writes. -/
theorem contains_generateSet {n : Nat} (hn : n < g.size) {i : Nat} {v : String}
    (hi : g.locals[i]? = some v) (d : Dominators) :
    (generateSet g d n).contains i = true ↔ ∃ m ∈ d.dominatorsOf n, g.Defines m v := by
  unfold generateSet generateSets
  simp only [Array.getElem?_map, hn, Array.getElem?_range, if_true, Option.map_some,
    Option.getD_some]
  refine ((foldl_union (over_definedSet g) (BitSet.over_empty _)).2 i).trans ?_
  rw [BitSet.contains_empty]
  simp only [contains_definedSet hi]
  simp

/-! ## The flow problem -/

/-- Whatever the nodes add, they make a must problem if it is over the capacity. -/
theorem isMust_of_over {c : Nat} {generate : Array BitSet}
    (h : ∀ n : Nat, BitSet.Over c (generate[n]?.getD (BitSet.empty c))) :
    Flow.IsMust (problem c generate) c
      fun n i => (generate[n]?.getD (BitSet.empty c)).contains i = true where
  entryFact_eq := rfl
  initialFact_eq := rfl
  merge_eq := rfl
  over_transfer n _ hs := BitSet.over_union hs (h n)
  contains_transfer n s i hs _ := by
    show (s.union (generate[n]?.getD (BitSet.empty c))).contains i = true ↔ _
    rw [BitSet.contains_union hs (h n), Bool.or_eq_true]

/-- What is solved is a must problem: facts are intersected, and each node adds its generate set. -/
theorem isMust_problem (g : Graph) (d : Dominators) :
    Flow.IsMust (problem g.locals.length (generateSets g d)) g.locals.length
      fun n i => (generateSet g d n).contains i = true :=
  isMust_of_over (over_generateSet g d)

/-- A path finds a local in the generate set of a node exactly if it passes a node that writes the
local: what a dominator writes has been written when the node is passed. -/
theorem addedBefore_iff (hd : d.Describes g) {i n : Nat} {v : String}
    (hi : g.locals[i]? = some v) :
    Flow.AddedBefore g (fun n i => (generateSet g d n).contains i = true) n i ↔
      ∀ l, g.EntryPath l n → ∃ m ∈ l, g.Defines m v := by
  constructor
  · intro h l hl
    obtain ⟨k, hk, hgen⟩ := h l hl
    obtain ⟨l', hl', hsub⟩ := hl.exists_path_of_mem hk
    obtain ⟨m, hm, hdef⟩ := (contains_generateSet hl'.lt_size hi d).1 hgen
    refine ⟨m, hsub ?_, hdef⟩
    rcases (hd.mem_dominatorsOf hl'.lt_size m).1 hm with rfl | ⟨-, hdom⟩
    · exact List.mem_append_right _ (List.mem_singleton_self m)
    · exact hdom l' hl'
  · intro h l hl
    obtain ⟨m, hm, hdef⟩ := h l hl
    obtain ⟨l', hl', -⟩ := hl.exists_path_of_mem hm
    have hself := (hd.mem_dominatorsOf hl'.lt_size m).2 (.inl rfl)
    exact ⟨m, hm, (contains_generateSet hl'.lt_size hi d).2 ⟨m, hself, hdef⟩⟩

/-! ## What is reported -/

variable {r : Guarantees}

/-- With dominators of the right size, the analysis is the solver and the look-up of names. -/
theorem value_withDominators (hsize : d.size = g.size) (config : Config) :
    (withDominators g d config).value =
      (Flow.solve g (problem g.locals.length (generateSets g d))
        config.maxIterations).outcome.map (ofSolution g config.unreachable (generateSets g d)) := by
  unfold withDominators
  rw [if_neg (not_not_intro hsize)]
  dsimp only [Logged.value_bind, Flow.Run.logged]
  cases (Flow.solve g (problem g.locals.length (generateSets g d)) config.maxIterations).outcome
  · rfl
  · rfl

/-- What is found is read off a solution of the problem for the dominators of the graph. -/
theorem exists_solution (h : (compute g config).value = .ok r) : ∃ d solution, d.Describes g ∧
    (Flow.solve g (problem g.locals.length (generateSets g d)) config.maxIterations).outcome =
      .ok solution ∧ r = ofSolution g config.unreachable (generateSets g d) solution := by
  unfold compute at h
  rw [Logged.value_bind] at h
  cases hdom : (Dominators.compute g config).value with
  | error e =>
    rw [hdom] at h
    cases h
  | ok d =>
    have hd := Dominators.describes_of_compute hdom
    rw [hdom] at h
    have hvalue := (value_withDominators hd.size_sets config).symm.trans h
    cases hok : (Flow.solve g (problem g.locals.length (generateSets g d))
        config.maxIterations).outcome with
    | error e =>
      rw [hok] at hvalue
      cases hvalue
    | ok solution =>
      rw [hok] at hvalue
      exact ⟨d, solution, hd, hok, (Except.ok.inj hvalue).symm⟩

/-- Where control can get to, the policy has no part in the result. -/
theorem resultAt_of_reaches {n : Nat} (hn : g.Reaches n) (policy : UnreachablePolicy)
    (locals : Array String) (before : Array BitSet) :
    resultAt g policy locals before n = before[n]?.map (namesOf locals) :=
  if_pos (Graph.isReachable_iff.2 hn)

/-- Under the one policy, a node that control cannot get to has no result. -/
theorem resultAt_exclude {n : Nat} (hn : ¬g.Reaches n) (locals : Array String)
    (before : Array BitSet) : resultAt g .exclude locals before n = none :=
  if_neg (mt Graph.isReachable_iff.1 hn)

/-- Under the other policy, such a node has all locals. -/
theorem resultAt_top {n : Nat} (hn : ¬g.Reaches n) (locals : Array String)
    (before : Array BitSet) : resultAt g .top locals before n = some locals.toList :=
  if_neg (mt Graph.isReachable_iff.1 hn)

/-- The answer for a node is read off the solution at its index. -/
theorem definedAt?_ofSolution {n : Nat} (hn : n < g.size) (policy : UnreachablePolicy)
    (generate : Array BitSet) (solution : Flow.Solution BitSet) :
    (ofSolution g policy generate solution).definedAt? n =
      resultAt g policy g.locals.toArray solution.before n := by
  simp [ofSolution, definedAt?, hn]

/-- What is reported for a node that control can get to are, in ascending order, the locals that
every path to it writes strictly before it ends. For any other node the policy decides. -/
theorem definedAt?_of_compute (h : (compute g config).value = .ok r) :
    (∀ n, g.Reaches n → ∃ names, r.definedAt? n = some names ∧ names.Pairwise (· < ·) ∧
      ∀ v, v ∈ names ↔ ∀ l, g.EntryPath l n → ∃ m ∈ l, g.Defines m v) ∧
    ∀ n < g.size, ¬g.Reaches n →
      match config.unreachable with
      | .exclude => r.definedAt? n = none
      | .top => ∃ names, r.definedAt? n = some names ∧ names.Pairwise (· < ·) ∧
          ∀ v, v ∈ names ↔ g.Mentions v := by
  obtain ⟨d, solution, hd, hok, rfl⟩ := exists_solution h
  constructor
  · intro n hn
    obtain ⟨set, hset, hover, hmem⟩ := (isMust_problem g d).mem_before_iff hok hn
    refine ⟨namesOf g.locals.toArray set, ?_, pairwise_namesOf g.pairwise_locals set, ?_⟩
    · rw [definedAt?_ofSolution hn.lt_size, resultAt_of_reaches hn, hset, Option.map_some]
    · intro v
      rw [mem_namesOf hover]
      constructor
      · intro hv
        obtain ⟨i, hi, hin⟩ := hv
        exact (addedBefore_iff hd hi).1 ((hmem i (hover.lt_of_contains hin)).1 hin)
      · intro hall
        -- A local that some path writes has a place.
        obtain ⟨l, hl⟩ := hn
        obtain ⟨m, -, hdef⟩ := hall l hl
        obtain ⟨i, hi⟩ := List.mem_iff_getElem?.1 (Graph.mem_locals.2 hdef.mentions)
        have hlt := (List.getElem?_eq_some_iff.1 hi).1
        exact ⟨i, hi, (hmem i hlt).2 ((addedBefore_iff hd hi).2 hall)⟩
  · intro n hlt hn
    rw [definedAt?_ofSolution hlt]
    cases config.unreachable with
    | exclude => exact resultAt_exclude hn _ _
    | top => exact ⟨g.locals, resultAt_top hn _ _, g.pairwise_locals, fun v => Graph.mem_locals⟩

/-- Both branches write `b`, so that it is defined behind them; no branch writes `c`. -/
theorem definedAt?_sample :
    (∀ l, Graph.sample.EntryPath l 3 → ∃ m ∈ l, Graph.sample.Defines m "b") ∧
      ¬∀ l, Graph.sample.EntryPath l 3 → ∃ m ∈ l, Graph.sample.Defines m "c" := by
  have hfound : (compute .sample ⟨100, .top, .cooper⟩).value =
      .ok ⟨["a", "b", "c", "d"], #[["a"], ["a", "b"], ["a", "b"], ["a", "c"], ["d"]],
        #[some [], some ["a"], some ["a"], some ["a", "b"], some ["a", "b", "c", "d"]], 6⟩ := by
    cbv
  have hreaches : Graph.sample.Reaches 3 := Graph.isReachable_iff.1 (by cbv)
  obtain ⟨names, hnames, -, hmem⟩ := (definedAt?_of_compute hfound).1 3 hreaches
  obtain rfl : ["a", "b"] = names := Option.some.inj hnames
  exact ⟨(hmem "b").1 (by decide), fun h => absurd ((hmem "c").2 h) (by decide)⟩

end Guarantees

end DefiniteAssignment
