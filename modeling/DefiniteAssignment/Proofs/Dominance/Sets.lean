import DefiniteAssignment.Dominance.Sets
import DefiniteAssignment.Proofs.BitSet.Listing
import DefiniteAssignment.Proofs.Flow.MustProblem
import DefiniteAssignment.Proofs.Graph.Dominance
/-!
# Dominator sets

`Describes d g` says that the sets of `d` hold the dominators of the nodes of `g`, in the sense of
paths, and that a node which control cannot get to has itself as its only dominator. This fixes the
sets down to their words (`Describes.eq`), so that it is all that has to be shown of an algorithm
that finds them; and it is what the queries rest on, of which the one for the immediate dominator
goes by the number of dominators.

The sets found by the flow solver are of this kind (`describes_of_iterative`): dominance is the must
problem in which each node adds itself. Read through the queries, this says:

> `dominates_iff_of_iterative`: `dominates` is dominance on paths, and `dominatorsOf` lists it in
> ascending order.
-/

namespace DefiniteAssignment.Dominators

variable {g : Graph} {d : Dominators} {limit : Nat}

/-- `d` holds the dominators of every node of `g`. -/
structure Describes (d : Dominators) (g : Graph) : Prop where
  size_sets : d.sets.size = g.size
  exists_set : ∀ n < g.size, ∃ s, d.sets[n]? = some s ∧ BitSet.Over g.size s ∧
    ∀ m, s.contains m = true ↔ m = n ∨ g.Reaches n ∧ g.Dominates m n

/-- Dominators are listed ascending, each of them once. -/
theorem pairwise_dominatorsOf (d : Dominators) (n : Nat) :
    (d.dominatorsOf n).Pairwise (· < ·) := by
  unfold dominatorsOf
  split
  · exact BitSet.pairwise_toList _
  · exact List.Pairwise.nil

theorem nodup_dominatorsOf (d : Dominators) (n : Nat) : (d.dominatorsOf n).Nodup :=
  (d.pairwise_dominatorsOf n).imp Nat.ne_of_lt

/-- The depth of a node is how many dominators it is listed with. -/
theorem depth_eq_length (d : Dominators) (n : Nat) : d.depth n = (d.dominatorsOf n).length := by
  unfold depth dominatorsOf
  split
  · exact BitSet.size_eq_length_toList _
  · rfl

namespace Describes

/-- There is only one way to hold the dominators of a graph. -/
theorem eq {d' : Dominators} (h : d.Describes g) (h' : d'.Describes g) : d = d' := by
  have hsets : d.sets = d'.sets := by
    refine Array.ext (h.size_sets.trans h'.size_sets.symm) ?_
    intro n hn hn'
    obtain ⟨s, hs, hover, hmem⟩ := h.exists_set n (h.size_sets ▸ hn)
    obtain ⟨s', hs', hover', hmem'⟩ := h'.exists_set n (h.size_sets ▸ hn)
    rw [Array.getElem?_eq_getElem hn] at hs
    rw [Array.getElem?_eq_getElem hn'] at hs'
    rw [Option.some.inj hs, Option.some.inj hs']
    exact BitSet.ext hover hover' fun m => by rw [Bool.eq_iff_iff, hmem, hmem']
  cases d
  cases d'
  exact congrArg Dominators.mk hsets

/-- What the sets say of two nodes: every node dominates itself, and dominance through paths is told
where control can get to. -/
theorem dominates_iff (h : d.Describes g) {n : Nat} (hn : n < g.size) (m : Nat) :
    d.dominates m n = true ↔ m = n ∨ g.Reaches n ∧ g.Dominates m n := by
  obtain ⟨s, hs, -, hmem⟩ := h.exists_set n hn
  rw [dominates, hs]
  exact hmem m

/-- The same of the lists. -/
theorem mem_dominatorsOf (h : d.Describes g) {n : Nat} (hn : n < g.size) (m : Nat) :
    m ∈ d.dominatorsOf n ↔ m = n ∨ g.Reaches n ∧ g.Dominates m n := by
  obtain ⟨s, hs, hover, hmem⟩ := h.exists_set n hn
  rw [dominatorsOf, hs]
  exact hover.mem_toList.trans (hmem m)

/-- Where control can get to, the sets say what the paths say. -/
theorem dominates_iff_of_reaches (h : d.Describes g) {n : Nat} (hn : g.Reaches n) (m : Nat) :
    d.dominates m n = true ↔ g.Dominates m n := by
  rw [h.dominates_iff hn.lt_size, and_iff_right hn]
  exact or_iff_right_of_imp fun hmn => hmn ▸ Graph.Dominates.refl g m

/-- The lists and the sets agree on every pair of nodes. -/
theorem mem_dominatorsOf_iff_dominates (h : d.Describes g) (n m : Nat) :
    m ∈ d.dominatorsOf n ↔ d.dominates m n = true := by
  rcases Nat.lt_or_ge n g.size with hlt | hge
  · rw [h.mem_dominatorsOf hlt, h.dominates_iff hlt]
  · unfold dominatorsOf dominates
    rw [Array.getElem?_eq_none (h.size_sets ▸ hge)]
    simp

/-- Only nodes are listed as dominators. -/
theorem lt_size_of_mem (h : d.Describes g) {m n : Nat} (hm : m ∈ d.dominatorsOf n) :
    m < g.size := by
  unfold dominatorsOf at hm
  split at hm
  next s hs =>
    have hn : n < g.size := h.size_sets ▸ (Array.getElem?_eq_some_iff.1 hs).1
    obtain ⟨s', hs', hover, -⟩ := h.exists_set n hn
    obtain rfl := Option.some.inj (hs.symm.trans hs')
    exact hover.lt_of_contains (hover.mem_toList.1 hm)
  next => cases hm

/-- A node has more dominators than any other dominator of it. -/
theorem depth_lt (h : d.Describes g) {m n : Nat} (hn : g.Reaches n) (hm : g.Dominates m n)
    (hne : m ≠ n) : d.depth m < d.depth n := by
  have hmr := hm.reaches hn
  have hmem := h.mem_dominatorsOf hmr.lt_size
  have hnot : n ∉ d.dominatorsOf m := by
    intro hin
    rcases (hmem n).1 hin with hnm | ⟨-, hnm⟩
    · exact hne hnm.symm
    · exact hne (hm.antisymm hnm hn)
  have hsub : n :: d.dominatorsOf m ⊆ d.dominatorsOf n := by
    intro k hk
    rw [h.mem_dominatorsOf hn.lt_size]
    rcases List.mem_cons.1 hk with rfl | hk
    · exact .inl rfl
    · rcases (hmem k).1 hk with rfl | ⟨-, hkm⟩
      · exact .inr ⟨hn, hm⟩
      · exact .inr ⟨hn, hkm.trans hm⟩
  have hlen := (List.nodup_cons.2 ⟨hnot, d.nodup_dominatorsOf m⟩).length_le_of_subset hsub
  rwa [List.length_cons, ← depth_eq_length, ← depth_eq_length] at hlen

/-- A node has one dominator more than its immediate dominator. -/
theorem depth_eq (h : d.Describes g) {u n : Nat} (hn : g.Reaches n)
    (hu : g.ImmediatelyDominates u n) : d.depth n = d.depth u + 1 := by
  have hsub : d.dominatorsOf n ⊆ n :: d.dominatorsOf u := by
    intro k hk
    rw [List.mem_cons, h.mem_dominatorsOf (hu.dominates.reaches hn).lt_size]
    rcases (h.mem_dominatorsOf hn.lt_size k).1 hk with rfl | ⟨-, hk⟩
    · exact .inl rfl
    · exact ((hu.dominates_iff k).1 hk).imp_right fun hku => .inr ⟨hu.dominates.reaches hn, hku⟩
  have hle := (d.nodup_dominatorsOf n).length_le_of_subset hsub
  rw [List.length_cons, ← depth_eq_length, ← depth_eq_length] at hle
  have hlt := h.depth_lt hn hu.dominates hu.ne
  omega

/-- The search by the number of dominators finds the immediate dominator. -/
theorem immediateDominator?_eq_some (h : d.Describes g) {u n : Nat} (hn : g.Reaches n)
    (hu : g.ImmediatelyDominates u n) : d.immediateDominator? n = some u := by
  have hdepth := h.depth_eq hn hu
  unfold immediateDominator?
  cases hfind : (d.dominatorsOf n).find? fun m => m != n && d.depth m + 1 == d.depth n with
  | none =>
    have hmem := (h.mem_dominatorsOf hn.lt_size u).2 (.inr ⟨hn, hu.dominates⟩)
    have hnot := List.find?_eq_none.1 hfind u hmem
    simp [hu.ne, hdepth] at hnot
  | some m =>
    have hm := (h.mem_dominatorsOf hn.lt_size m).1 (List.mem_of_find?_eq_some hfind)
    have htest := List.find?_some hfind
    rw [Bool.and_eq_true, bne_iff_ne, beq_iff_eq] at htest
    have hmu := hu.closest htest.1 (hm.resolve_left htest.1).2
    by_cases hne : m = u
    · rw [hne]
    -- Any other dominator has too few dominators.
    · have hlt := h.depth_lt (hu.dominates.reaches hn) hmu hne
      omega

/-- The entry has no immediate dominator, nor has a node that control cannot get to. -/
theorem immediateDominator?_eq_none (h : d.Describes g) {n : Nat}
    (hn : g.Reaches n → g.entry = some n) : d.immediateDominator? n = none := by
  unfold immediateDominator?
  rw [List.find?_eq_none]
  intro m hm
  rcases Nat.lt_or_ge n g.size with hlt | hge
  · have hmn : m = n := by
      rcases (h.mem_dominatorsOf hlt m).1 hm with hmn | ⟨hr, hdom⟩
      · exact hmn
      · exact hdom.eq_entry (hn hr)
    simp [hmn]
  · rw [dominatorsOf, Array.getElem?_eq_none (h.size_sets ▸ hge)] at hm
    cases hm

/-- A node has an immediate dominator in the sets exactly if it has one in the graph. -/
theorem immediateDominator?_eq_some_iff (h : d.Describes g) {u n : Nat} :
    d.immediateDominator? n = some u ↔ g.Reaches n ∧ g.ImmediatelyDominates u n := by
  refine Graph.eq_some_iff_immediatelyDominates
    (fun _ => h.immediateDominator?_eq_none) fun m hm hne => ?_
  obtain ⟨v, hv⟩ := Graph.exists_immediatelyDominates hm hne
  exact ⟨v, h.immediateDominator?_eq_some hm hv, hv⟩

end Describes

/-- Dominance is the must problem in which each node adds itself. -/
theorem isMust_problem (size : Nat) : Flow.IsMust (problem size) size fun n v => v = n where
  entryFact_eq := rfl
  initialFact_eq := rfl
  merge_eq := rfl
  over_transfer n _ hs := BitSet.over_insert hs n
  contains_transfer n s v hs hv := by
    show (s.insert n).contains v = true ↔ _
    rw [BitSet.contains_insert hs, decide_eq_true hv, Bool.and_true, Bool.or_eq_true,
      decide_eq_true_eq]
    exact or_congr_right eq_comm

theorem over_singleton (size n : Nat) : BitSet.Over size ((BitSet.empty size).insert n) :=
  BitSet.over_insert (BitSet.over_empty size) n

/-- A set of one node has that node alone. -/
theorem contains_singleton {size n : Nat} (hn : n < size) (m : Nat) :
    ((BitSet.empty size).insert n).contains m = true ↔ m = n := by
  rw [BitSet.contains_insert_iff (BitSet.over_empty size) hn, BitSet.contains_empty]
  simp

/-- A node that control can get to has the set that flows out of it. -/
theorem sets_ofSolution_of_reaches {solution : Flow.Solution BitSet} {n : Nat} {s : BitSet}
    (hn : g.Reaches n) (hs : solution.after[n]? = some s) :
    (ofSolution g solution).sets[n]? = some s := by
  simp [ofSolution, hn.lt_size, hs, Graph.isReachable_iff.2 hn]

/-- Any other node has itself. -/
theorem sets_ofSolution_of_not_reaches {n : Nat} (hn : n < g.size) (hr : ¬g.Reaches n)
    (solution : Flow.Solution BitSet) :
    (ofSolution g solution).sets[n]? = some ((BitSet.empty g.size).insert n) := by
  have hmark : g.isReachable n = false := by simpa using mt Graph.isReachable_iff.1 hr
  simp only [ofSolution, Array.getElem?_map, hn, Array.getElem?_range, if_true, Option.map_some]
  split <;> simp [hmark]

/-- To add each node to what has been passed is to say which nodes all paths pass. -/
theorem addedBefore_or_iff_dominates {m n : Nat} :
    Flow.AddedBefore g (fun n v => v = n) n m ∨ m = n ↔ g.Dominates m n := by
  constructor
  · intro h
    rcases h with h | rfl
    · intro l hl
      obtain ⟨d, hd, rfl⟩ := h l hl
      exact List.mem_append_left _ hd
    · exact Graph.Dominates.refl g m
  · intro h
    by_cases hmn : m = n
    · exact .inr hmn
    · refine .inl fun l hl => ⟨m, ?_, rfl⟩
      exact (List.mem_append.1 (h l hl)).resolve_right fun hm => hmn (List.mem_singleton.1 hm)

/-- What the solver finds are the dominators. -/
theorem describes_of_iterative (h : iterative g limit = .ok d) : d.Describes g := by
  unfold iterative at h
  cases hok : (Flow.solve g (problem g.size) limit).outcome with
  | error e =>
    rw [hok] at h
    cases h
  | ok solution =>
    rw [hok] at h
    obtain rfl : ofSolution g solution = d := Except.ok.inj h
    refine ⟨by simp [ofSolution], ?_⟩
    intro n hn
    by_cases hr : g.Reaches n
    · obtain ⟨s, hs, hover, hmem⟩ := (isMust_problem g.size).mem_after_iff hok hr
      refine ⟨s, sets_ofSolution_of_reaches hr hs, hover, ?_⟩
      intro m
      constructor
      · intro hm
        exact .inr ⟨hr, addedBefore_or_iff_dominates.1 ((hmem m (hover.lt_of_contains hm)).1 hm)⟩
      · intro hm
        have hdom : g.Dominates m n := by
          rcases hm with rfl | ⟨-, hdom⟩
          · exact Graph.Dominates.refl g m
          · exact hdom
        exact (hmem m (hdom.reaches hr).lt_size).2 (addedBefore_or_iff_dominates.2 hdom)
    · refine ⟨_, sets_ofSolution_of_not_reaches hn hr solution, over_singleton g.size n, ?_⟩
      intro m
      rw [contains_singleton hn]
      exact (or_iff_left fun hm => hr hm.1).symm

/-- What the solver finds says of a node that control can get to which nodes lie on all paths to it,
and of any other node only the node itself. -/
theorem dominates_iff_of_iterative (h : iterative g limit = .ok d) :
    (∀ n, g.Reaches n → ∀ m, d.dominates m n = true ↔ g.Dominates m n) ∧
    (∀ n < g.size, ¬g.Reaches n →
      d.dominatorsOf n = [n] ∧ ∀ m, d.dominates m n = true ↔ m = n) ∧
    ∀ n, (d.dominatorsOf n).Pairwise (· < ·) ∧
      ∀ m, m ∈ d.dominatorsOf n ↔ d.dominates m n = true := by
  have hd := describes_of_iterative h
  refine ⟨?_, ?_, ?_⟩
  · intro n hn m
    exact hd.dominates_iff_of_reaches hn m
  · intro n hlt hn
    have hself : ∀ m, d.dominates m n = true ↔ m = n := by
      intro m
      rw [hd.dominates_iff hlt]
      exact or_iff_left fun hm => hn hm.1
    have hmem : ∀ m, m ∈ d.dominatorsOf n ↔ m ∈ [n] := by
      intro m
      rw [hd.mem_dominatorsOf_iff_dominates, hself, List.mem_singleton]
    exact ⟨List.perm_singleton.1
      ((List.perm_ext_iff_of_nodup (d.nodup_dominatorsOf n) (by simp)).2 hmem), hself⟩
  · intro n
    exact ⟨d.pairwise_dominatorsOf n, hd.mem_dominatorsOf_iff_dominates n⟩

/-- Control can get round each of two nodes in a loop, but not round the entry. -/
theorem dominates_sample : Graph.sample.Dominates 0 3 ∧ ¬Graph.sample.Dominates 2 3 := by
  have hfound : iterative .sample 100 =
      .ok ⟨#[⟨#[1], 5⟩, ⟨#[3], 5⟩, ⟨#[5], 5⟩, ⟨#[9], 5⟩, ⟨#[16], 5⟩]⟩ := by cbv
  have hreaches : Graph.sample.Reaches 3 := Graph.isReachable_iff.1 (by cbv)
  have h := (dominates_iff_of_iterative hfound).1 3 hreaches
  exact ⟨(h 0).1 (by decide), fun hdom => absurd ((h 2).2 hdom) (by decide)⟩

end DefiniteAssignment.Dominators
