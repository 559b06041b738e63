import DefiniteAssignment.Proofs.Guarantee.Reuse
/-!
# Inheritance along dominators

On the way to a node control passes all its dominators, and so all that led to them. What is
guaranteed to be defined at a dominator is guaranteed at the node, and so is what the generate set
of the dominator has:

> `inherited_of_compute`

The generate set of a node holds what all nodes write that control cannot get round on the way to
it. It has no more than what is guaranteed before the node, but what the node writes itself.
-/

namespace DefiniteAssignment.Guarantees

variable {g : Graph} {config : Config} {r : Guarantees}

/-- What is guaranteed at a dominator of a node, and what its generate set has, is guaranteed at the
node. The generate set of a node is, in ascending order, what the nodes write that lie on all paths
to it, and what the node does not write of it is guaranteed at the node. -/
theorem inherited_of_compute (h : (compute g config).value = .ok r) :
    (∀ n m, g.Reaches n → g.Dominates m n → m ≠ n → ∃ defined generated known,
      r.definedAt? m = some defined ∧ r.generateSet? m = some generated ∧
        r.definedAt? n = some known ∧ ∀ v, v ∈ defined ∨ v ∈ generated → v ∈ known) ∧
    ∀ n, g.Reaches n → ∃ generated known,
      r.generateSet? n = some generated ∧ r.definedAt? n = some known ∧
        generated.Pairwise (· < ·) ∧
        (∀ v, v ∈ generated ↔ ∃ m, g.Dominates m n ∧ g.Defines m v) ∧
        ∀ v ∈ generated, ¬g.Defines n v → v ∈ known := by
  obtain ⟨d, solution, hd, hok, rfl⟩ := exists_solution h
  have hdominators : ∀ {n}, g.Reaches n → ∀ m, m ∈ d.dominatorsOf n ↔ g.Dominates m n := by
    intro n hn m
    rw [hd.mem_dominatorsOf_iff_dominates, hd.dominates_iff_of_reaches hn]
  constructor
  · intro n m hn hdom hne
    have hm : g.Reaches m := hdom.reaches hn
    obtain ⟨defined, hdefined, -, hmem⟩ := exists_definedAt? hok hm config.unreachable
    obtain ⟨generated, hgenerated, -, hmem'⟩ :=
      exists_generateSet? hm.lt_size d config.unreachable solution
    obtain ⟨known, hknown, -, hmemKnown⟩ := exists_definedAt? hok hn config.unreachable
    refine ⟨defined, generated, known, hdefined, hgenerated, hknown, ?_⟩
    intro v hv
    rw [hmemKnown]
    intro l hl
    -- The path has come to the dominator before it ends.
    obtain ⟨l', hl', hsub⟩ := hdom.exists_path hne hl
    rcases hv with hv | hv
    · obtain ⟨k, hk, hdef⟩ := (hmem v).1 hv l' hl'
      exact ⟨k, hsub (List.mem_append_left _ hk), hdef⟩
    · exact ⟨m, hsub (List.mem_append_right _ (List.mem_singleton_self m)), (hmem' v).1 hv⟩
  · intro n hn
    obtain ⟨generated, hgenerated, hpairwise, hmem⟩ :=
      exists_generateSet? hn.lt_size d config.unreachable solution
    obtain ⟨known, hknown, -, hmemKnown⟩ := exists_definedAt? hok hn config.unreachable
    simp only [hdominators hn] at hmem
    refine ⟨generated, known, hgenerated, hknown, hpairwise, hmem, ?_⟩
    intro v hv hnot
    obtain ⟨m, hdom, hdef⟩ := (hmem v).1 hv
    have hne : m ≠ n := fun hmn => hnot (hmn ▸ hdef)
    rw [hmemKnown]
    intro l hl
    obtain ⟨_, -, hsub⟩ := hdom.exists_path hne hl
    exact ⟨m, hsub (List.mem_append_right _ (List.mem_singleton_self m)), m,
      (hdominators (hdom.reaches hn) m).2 (.refl g m), hdef⟩

/-- The entry writes `a`, so that it is guaranteed behind the loop, at a node that has it in its
generate set from there. -/
theorem inherited_sample :
    let r : Guarantees :=
      ⟨["a", "b", "c", "d"], #[["a"], ["a", "b"], ["a", "b"], ["a", "c"], ["d"]],
        #[some [], some ["a"], some ["a"], some ["a", "b"], some ["a", "b", "c", "d"]], 6⟩
    (compute .sample ⟨100, .top, .cooper⟩).value = .ok r ∧ Graph.sample.Reaches 3 ∧
      Graph.sample.Dominates 0 3 ∧ r.generateSet? 0 = some ["a"] ∧
      r.generateSet? 3 = some ["a", "c"] ∧ r.definedAt? 3 = some ["a", "b"] ∧
      (∀ v, v ∈ [] ∨ v ∈ ["a"] → v ∈ ["a", "b"]) ∧
      ∀ v, v ∈ ["a", "c"] ↔ ∃ m, Graph.sample.Dominates m 3 ∧ Graph.sample.Defines m v := by
  intro r
  have hfound : (compute .sample ⟨100, .top, .cooper⟩).value = .ok r := by cbv
  have hreaches : Graph.sample.Reaches 3 := Graph.isReachable_iff.1 (by cbv)
  have hdom : Graph.sample.Dominates 0 3 := Graph.dominates_of_entry (by cbv) 3
  obtain ⟨hinherited, hgenerate⟩ := inherited_of_compute hfound
  obtain ⟨defined, generated, known, hdefined, hgenerated, hknown, hsub⟩ :=
    hinherited 3 0 hreaches hdom (by decide)
  obtain ⟨generated', known', hgenerated', hknown', -, hmem, -⟩ := hgenerate 3 hreaches
  obtain rfl : [] = defined := Option.some.inj hdefined
  obtain rfl : ["a"] = generated := Option.some.inj hgenerated
  obtain rfl : ["a", "b"] = known := Option.some.inj hknown
  obtain rfl : ["a", "c"] = generated' := Option.some.inj hgenerated'
  exact ⟨hfound, hreaches, hdom, hgenerated, hgenerated', hknown, hsub, hmem⟩

end DefiniteAssignment.Guarantees
