import DefiniteAssignment.Proofs.Dominance.Tree
/-!
# Immediate dominators

Dominators come from one of two algorithms, each with a limit of its own (`Dominators.Found`).
Either way they describe the graph (`Found.describes`), so that what is said about them does not
depend on where they come from.

The immediate dominator of a node is looked up by numbers of dominators, without comparing any two
of them. That this finds the closest dominator rests on the dominators of a node being a chain:

> `immediateDominator?_of_found`

Closeness is said twice (`Closest`), for dominance on paths and for what the sets say.
-/

namespace DefiniteAssignment

variable {g : Graph} {d : Dominators} {config : Config}

/-! ## Dominators as they are found -/

/-- Keeping a log does not change the tree. -/
theorem DominatorTree.value_logged (g : Graph) (limit : Nat) :
    (logged g limit).value = ofGraph g limit := by
  unfold logged ofGraph
  cases build g limit with
  | error e => rfl
  | ok found =>
    dsimp only
    split <;> rfl

namespace Dominators

/-- One setting asks for sets of dominators from the solver. -/
theorem value_compute_iterative (h : config.dominators = .iterative) :
    (compute g config).value = iterative g config.maxIterations := by
  unfold compute
  rw [h]
  dsimp only [Logged.value_bind]
  split <;> rfl

/-- The other asks for a tree, and makes sets of it. -/
theorem value_compute_cooper (h : config.dominators = .cooper) :
    (compute g config).value =
      (DominatorTree.ofGraph g config.maxIterations).map DominatorTree.toDominators := by
  unfold compute
  rw [h, ← DominatorTree.value_logged]
  dsimp only [Logged.value_bind, Logged.value_pure]
  split <;> rfl

/-- `d` is what one of the two algorithms finds for `g` within some limit. -/
inductive Found (g : Graph) (d : Dominators) : Prop
  | iterative {limit : Nat} : iterative g limit = .ok d → Found g d
  | cooper {limit : Nat} {t : DominatorTree} :
    DominatorTree.ofGraph g limit = .ok t → t.toDominators = d → Found g d

theorem Found.describes (h : Found g d) : d.Describes g := by
  cases h with
  | iterative hok => exact describes_of_iterative hok
  | cooper hok hd => exact hd ▸ (DominatorTree.describes_of_ofGraph hok).toDominators

/-- The algorithm that is configured is one of the two. -/
theorem found_of_compute (h : (compute g config).value = .ok d) : Found g d := by
  cases halg : config.dominators with
  | iterative =>
    rw [value_compute_iterative halg] at h
    exact .iterative h
  | cooper =>
    rw [value_compute_cooper halg] at h
    cases htree : DominatorTree.ofGraph g config.maxIterations with
    | error e =>
      rw [htree] at h
      cases h
    | ok t =>
      rw [htree] at h
      exact .cooper htree (Except.ok.inj h)

/-- Whichever algorithm is asked for, the result describes dominance. -/
theorem describes_of_compute (h : (compute g config).value = .ok d) : d.Describes g :=
  (found_of_compute h).describes

/-! ## The closest dominator -/

/-- Of all that dominates `n`, in a sense of the word, and is not `n` itself, `u` is the closest. -/
structure Closest (dom : Nat → Nat → Prop) (n u : Nat) : Prop where
  ne : u ≠ n
  dominates : dom u n
  closest : ∀ m, m ≠ n → dom m n → dom m u

variable {u n : Nat}

/-- The immediate dominator is the closest of the strict ones. -/
theorem immediatelyDominates_iff_closest :
    g.ImmediatelyDominates u n ↔ Closest g.Dominates n u := by
  constructor
  · intro h
    exact ⟨h.ne, h.dominates, fun m hmn hm => h.closest hmn hm⟩
  · intro h
    exact .of_closest h.ne h.dominates h.closest

/-- The sets of a node that control can get to have the same closest dominator as its paths. -/
theorem Describes.closest_iff (h : d.Describes g) (hn : g.Reaches n) :
    Closest (fun m k => d.dominates m k = true) n u ↔ Closest g.Dominates n u := by
  have hiff := h.dominates_iff_of_reaches hn
  constructor
  · intro hu
    have hun := (hiff u).1 hu.dominates
    refine ⟨hu.ne, hun, ?_⟩
    intro m hmn hm
    exact (h.dominates_iff_of_reaches (hun.reaches hn) m).1 (hu.closest m hmn ((hiff m).2 hm))
  · intro hu
    refine ⟨hu.ne, (hiff u).2 hu.dominates, ?_⟩
    intro m hmn hm
    exact (h.dominates_iff_of_reaches (hu.dominates.reaches hn) m).2
      (hu.closest m hmn ((hiff m).1 hm))

/-- The nodes for which an immediate dominator is found are those that control can get to, other
than the entry, and what is found is the closest of all other dominators, which is only one. For
the entry, for other nodes and for numbers that are no nodes there is none. -/
theorem immediateDominator?_of_found (h : Found g d) :
    (∀ n u, d.immediateDominator? n = some u ↔ g.Reaches n ∧ Closest g.Dominates n u) ∧
    (∀ n u, d.immediateDominator? n = some u ↔
      g.Reaches n ∧ Closest (fun m k => d.dominates m k = true) n u) ∧
    (∀ n, (∃ u, d.immediateDominator? n = some u) ↔ g.Reaches n ∧ g.entry ≠ some n) ∧
    ∀ n, g.entry = some n ∨ ¬g.Reaches n ∨ g.size ≤ n → d.immediateDominator? n = none := by
  have hd := h.describes
  have hpaths : ∀ n u, d.immediateDominator? n = some u ↔
      g.Reaches n ∧ Closest g.Dominates n u := by
    intro n u
    rw [hd.immediateDominator?_eq_some_iff, immediatelyDominates_iff_closest]
  refine ⟨hpaths, ?_, ?_, ?_⟩
  · intro n u
    rw [hpaths]
    exact and_congr_right fun hn => (hd.closest_iff hn).symm
  · intro n
    constructor
    · intro hu
      obtain ⟨u, hu⟩ := hu
      obtain ⟨hn, hdom⟩ := hd.immediateDominator?_eq_some_iff.1 hu
      exact ⟨hn, hdom.ne_entry⟩
    · intro hn
      obtain ⟨u, hu⟩ := Graph.exists_immediatelyDominates hn.1 hn.2
      exact ⟨u, hd.immediateDominator?_eq_some hn.1 hu⟩
  · intro n hn
    refine hd.immediateDominator?_eq_none fun hr => ?_
    rcases hn with he | hnot | hge
    · exact he
    · exact absurd hr hnot
    · exact absurd hr.lt_size (Nat.not_lt.2 hge)

/-- Control can get round both nodes of the loop, so that the entry is the closest dominator of the
node behind it. The node that control cannot get to has none, though an edge leads from it into the
loop. -/
theorem immediateDominator?_sample :
    let d : Dominators := ⟨#[⟨#[1], 5⟩, ⟨#[3], 5⟩, ⟨#[5], 5⟩, ⟨#[9], 5⟩, ⟨#[16], 5⟩]⟩
    Found .sample d ∧ d.immediateDominator? 3 = some 0 ∧ Closest Graph.sample.Dominates 3 0 ∧
      ¬Graph.sample.Reaches 4 ∧ d.immediateDominator? 4 = none := by
  intro d
  have hok : iterative .sample 6 = .ok d := by cbv
  have hfound : Found .sample d := .iterative hok
  have hu : d.immediateDominator? 3 = some 0 := by decide
  obtain ⟨hpaths, -, -, hnone⟩ := immediateDominator?_of_found hfound
  have hmark : Graph.sample.isReachable 4 = false := by cbv
  have hnot : ¬Graph.sample.Reaches 4 := by
    rw [← Graph.isReachable_iff, hmark]
    exact Bool.false_ne_true
  exact ⟨hfound, hu, ((hpaths 3 0).1 hu).2, hnot, hnone 4 (.inr (.inl hnot))⟩

end Dominators

end DefiniteAssignment
