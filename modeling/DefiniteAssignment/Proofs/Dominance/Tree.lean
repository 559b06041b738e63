import DefiniteAssignment.Proofs.Dominance.Passes
import DefiniteAssignment.Proofs.Dominance.Sets
/-!
# Dominator trees

`Describes t g` says that `t` is the dominator tree of `g`: every node that control can get to but
the entry is linked to its immediate dominator, and no other node is linked to anything. The links
that the passes end with are of this kind (`describes_of_ofGraph`), since the ancestors of a node
are its dominators by then.

The sets of a tree come from walking through the nodes in order, each node taking over the set of
its link, and are those that describe the graph (`Describes.toDominators`). As there is only one
way to do so, the two ways of finding dominators agree:

> `toDominators_eq_iterative`
-/

namespace DefiniteAssignment.DominatorTree

variable {g : Graph} {t : DominatorTree} {idom : Array (Option Nat)} {limit n : Nat}

/-- `t` is the dominator tree of `g`. -/
structure Describes (t : DominatorTree) (g : Graph) : Prop where
  size_idom : t.idom.size = g.size
  number_eq : t.number = numbering g.size g.reversePostOrder
  order_eq : t.order = g.reversePostOrder
  link_eq_none : ∀ n, (g.Reaches n → g.entry = some n) → linkOf t.idom n = none
  exists_link : ∀ n, g.Reaches n → g.entry ≠ some n →
    ∃ u, linkOf t.idom n = some u ∧ g.ImmediatelyDominates u n

/-! ## Building the tree -/

theorem linkOf_replicate (size n : Nat) : linkOf (Array.replicate size none) n = none := by
  unfold linkOf
  rw [Array.getElem?_replicate]
  split <;> rfl

/-- Before the first pass the entry is linked to itself and nothing else is linked. -/
theorem links_start {e : Nat} (he : g.entry = some e) :
    Links g ((Array.replicate g.size none).setIfInBounds e (some e)) := by
  have hsize : e < (Array.replicate g.size (none : Option Nat)).size := by
    rw [Array.size_replicate]
    exact g.entry_lt e he
  have hlink : ∀ n u, linkOf ((Array.replicate g.size none).setIfInBounds e (some e)) n = some u →
      n = e ∧ u = e := by
    intro n u hu
    rw [linkOf_set hsize, linkOf_replicate] at hu
    by_cases hne : n = e
    · rw [if_pos hne] at hu
      exact ⟨hne, (Option.some.inj hu).symm⟩
    · rw [if_neg hne] at hu
      cases hu
  refine ⟨?_, ?_, ?_, ?_, ?_, ?_⟩
  · rw [Array.size_setIfInBounds, Array.size_replicate]
  · -- entry_link
    intro e' he'
    obtain rfl : e' = e := Option.some.inj (he'.symm.trans he)
    rw [linkOf_set hsize, if_pos rfl]
  · -- reaches
    intro n u hu
    exact (hlink n u hu).1 ▸ Graph.reaches_entry he
  · -- linked
    intro n u hu
    exact ⟨e, by rw [(hlink n u hu).2, linkOf_set hsize, if_pos rfl]⟩
  · -- number_lt
    intro n u hu hne
    exact absurd ((hlink n u hu).1 ▸ he) hne
  · -- keeps
    intro n u hu d hd hdom
    obtain ⟨rfl, rfl⟩ := hlink n u hu
    exact absurd (hdom.eq_entry he) hd

/-- After the last pass, nodes are linked to their immediate dominators. -/
theorem Settled.immediatelyDominates (h : Settled g idom) (hne : g.entry ≠ some n) {u : Nat}
    (hu : linkOf idom n = some u) : g.ImmediatelyDominates u n := by
  have hn := h.reaches n u hu
  have hur := h.reaches_of_linked (h.linked n u hu)
  constructor
  · intro hun
    have := h.number_lt n u hu hne
    rw [hun] at this
    omega
  · intro m
    rw [← h.ancestor_iff hn, ← h.ancestor_iff hur]
    constructor
    · intro ha
      cases ha with
      | refl => exact .inl rfl
      | up hlink ha => exact .inr (Option.some.inj (hlink.symm.trans hu) ▸ ha)
    · intro hm
      rcases hm with rfl | ha
      · exact .refl
      · exact .up hu ha

/-- When passes have ended, the entry loses its link. -/
theorem describes_of_settled (h : Settled g idom) {e : Nat} (he : g.entry = some e) :
    Describes ⟨idom.setIfInBounds e none, numbering g.size g.reversePostOrder,
      g.reversePostOrder⟩ g := by
  have hsize : e < idom.size := h.size_eq ▸ g.entry_lt e he
  refine ⟨?_, rfl, rfl, ?_, ?_⟩
  · rw [Array.size_setIfInBounds, h.size_eq]
  · intro n hn
    rw [linkOf_set hsize]
    by_cases hne : n = e
    · rw [if_pos hne]
    · rw [if_neg hne]
      cases hlink : linkOf idom n with
      | none => rfl
      | some u => exact absurd (Option.some.inj ((hn (h.reaches n u hlink)).symm.trans he)) hne
  · intro n hn hne
    obtain ⟨u, hu⟩ := h.all_linked n hn
    refine ⟨u, ?_, h.immediatelyDominates hne hu⟩
    have hen : n ≠ e := fun hen => hne (hen ▸ he)
    rw [linkOf_set hsize, if_neg hen, hu]

/-- Whatever the limit is, the tree that is found is the dominator tree. -/
theorem describes_of_ofGraph (h : ofGraph g limit = .ok t) : t.Describes g := by
  unfold ofGraph build at h
  have hhead := g.head?_reversePostOrder
  cases horder : g.reversePostOrder with
  | nil =>
    have hnone : ∀ n, ¬g.Reaches n := fun n hn => by
      have hmem := Graph.mem_reversePostOrder.2 hn
      rw [horder] at hmem
      cases hmem
    rw [horder] at h
    obtain rfl := Except.ok.inj h
    exact ⟨Array.size_replicate, by rw [horder], horder.symm, fun n _ => linkOf_replicate g.size n,
      fun n hn => absurd hn (hnone n)⟩
  | cons e nodes =>
    have he : g.entry = some e := by rw [← hhead, horder, List.head?_cons]
    simp only [horder] at h
    rw [← horder] at h
    cases hok : settle g (numbering g.size g.reversePostOrder) nodes limit limit
        ((Array.replicate g.size none).setIfInBounds e (some e)) with
    | error cause =>
      rw [hok] at h
      cases h
    | ok found =>
      rw [hok] at h
      obtain rfl := Except.ok.inj h
      exact describes_of_settled ((links_start he).settle horder hok) he

/-- What a node is linked to is its immediate dominator. -/
theorem Describes.linkOf_eq_some_iff (h : t.Describes g) {u : Nat} :
    linkOf t.idom n = some u ↔ g.Reaches n ∧ g.ImmediatelyDominates u n :=
  Graph.eq_some_iff_immediatelyDominates h.link_eq_none h.exists_link

/-! ## The sets of a tree -/

/-- The nodes of `done` have their dominators, the others have themselves. -/
structure SetsUpTo (g : Graph) (done : List Nat) (sets : Array BitSet) : Prop where
  size_eq : sets.size = g.size
  exists_set : ∀ n < g.size, ∃ s, sets[n]? = some s ∧ BitSet.Over g.size s ∧
    ∀ m, s.contains m = true ↔ m = n ∨ n ∈ done ∧ g.Dominates m n

theorem setsUpTo_nil (g : Graph) :
    SetsUpTo g [] ((Array.range g.size).map fun n => (BitSet.empty g.size).insert n) := by
  refine ⟨by simp, ?_⟩
  intro n hn
  refine ⟨(BitSet.empty g.size).insert n, by simp [hn], Dominators.over_singleton g.size n, ?_⟩
  intro m
  rw [Dominators.contains_singleton hn]
  simp

theorem SetsUpTo.snoc {done : List Nat} {sets sets' : Array BitSet} (h : SetsUpTo g done sets)
    (hsize : sets'.size = sets.size) (hother : ∀ k, k ≠ n → sets'[k]? = sets[k]?)
    (hn : ∃ s, sets'[n]? = some s ∧ BitSet.Over g.size s ∧
      ∀ m, s.contains m = true ↔ g.Dominates m n) : SetsUpTo g (done ++ [n]) sets' := by
  refine ⟨hsize.trans h.size_eq, ?_⟩
  intro k hk
  by_cases hkn : k = n
  · subst hkn
    obtain ⟨s, hs, hover, hmem⟩ := hn
    refine ⟨s, hs, hover, ?_⟩
    intro m
    rw [hmem, and_iff_right (List.mem_append_right done (List.mem_singleton_self k))]
    exact (or_iff_right_of_imp fun hmk => hmk ▸ Graph.Dominates.refl g m).symm
  · obtain ⟨s, hs, hover, hmem⟩ := h.exists_set k hk
    refine ⟨s, (hother k hkn).trans hs, hover, ?_⟩
    intro m
    rw [hmem, List.mem_append, List.mem_singleton, or_iff_left hkn]

/-- A node gets its dominators from its link, which comes before it in the order. -/
theorem Describes.extend (h : t.Describes g) {done rest : List Nat}
    (horder : g.reversePostOrder = done ++ n :: rest) {sets : Array BitSet}
    (hsets : SetsUpTo g done sets) : SetsUpTo g (done ++ [n]) (t.extend sets n) := by
  have hn : g.Reaches n := by
    rw [← Graph.mem_reversePostOrder, horder]
    exact List.mem_append_right _ (List.mem_cons_self ..)
  unfold DominatorTree.extend
  by_cases hne : g.entry = some n
  -- The entry keeps itself, and nothing else dominates it.
  · rw [h.link_eq_none n fun _ => hne]
    refine hsets.snoc rfl (fun _ _ => rfl) ?_
    obtain ⟨s, hs, hover, hmem⟩ := hsets.exists_set n hn.lt_size
    refine ⟨s, hs, hover, fun m => (hmem m).trans ⟨?_, fun hdom => .inl (hdom.eq_entry hne)⟩⟩
    intro hm
    rcases hm with rfl | ⟨-, hdom⟩
    · exact Graph.Dominates.refl g m
    · exact hdom
  · obtain ⟨u, hu, hdom⟩ := h.exists_link n hn hne
    have hur := hdom.dominates.reaches hn
    have hudone : u ∈ done := by
      have hlt := hdom.dominates.idxOf_lt hn hdom.ne
      rw [horder] at hlt
      exact Adjacency.mem_of_idxOf_lt hlt
    obtain ⟨s, hs, hover, hmem⟩ := hsets.exists_set u hur.lt_size
    simp only [hu, hs, Option.getD_some, h.size_idom]
    refine hsets.snoc Array.size_setIfInBounds ?_ ⟨s.insert n, ?_, ?_, ?_⟩
    · intro k hk
      rw [Array.getElem?_setIfInBounds, if_neg (Ne.symm hk)]
    · rw [Array.getElem?_setIfInBounds, if_pos rfl, if_pos (hsets.size_eq ▸ hn.lt_size)]
    · exact BitSet.over_insert hover n
    · intro m
      rw [BitSet.contains_insert_iff hover hn.lt_size, hmem, hdom.dominates_iff,
        and_iff_right hudone]
      exact or_congr_right (or_iff_right_of_imp fun hmu => hmu ▸ Graph.Dominates.refl g m)

/-- Walking through the nodes in order, a tree gives all of them their dominators. -/
theorem Describes.toDominators (h : t.Describes g) : t.toDominators.Describes g := by
  have hall : ∀ rest done sets, g.reversePostOrder = done ++ rest → SetsUpTo g done sets →
      SetsUpTo g g.reversePostOrder (rest.foldl t.extend sets) := by
    intro rest
    induction rest with
    | nil =>
      intro done sets horder hsets
      rw [horder, List.append_nil]
      exact hsets
    | cons n rest ih =>
      intro done sets horder hsets
      exact ih (done ++ [n]) _ (by rw [horder, List.append_cons]) (h.extend horder hsets)
  have hsets := hall _ [] _ rfl (setsUpTo_nil g)
  unfold DominatorTree.toDominators
  rw [h.order_eq, h.size_idom]
  refine ⟨hsets.size_eq, ?_⟩
  intro n hn
  simp only [← Graph.mem_reversePostOrder]
  exact hsets.exists_set n hn

/-! ## Agreement -/

theorem Describes.immediateDominator?_eq (h : t.Describes g) {d : Dominators} (hd : d.Describes g)
    (n : Nat) : t.immediateDominator? n = d.immediateDominator? n := by
  refine Option.ext fun u => ?_
  rw [hd.immediateDominator?_eq_some_iff]
  exact h.linkOf_eq_some_iff

/-- The two ways of finding dominators agree, in the sets and in the immediate dominators, whatever
their limits are. -/
theorem toDominators_eq_iterative {limit' : Nat} {d : Dominators} (ht : ofGraph g limit = .ok t)
    (hd : Dominators.iterative g limit' = .ok d) :
    t.toDominators = d ∧ ∀ n, t.immediateDominator? n = d.immediateDominator? n :=
  have htree := describes_of_ofGraph ht
  have hsets := Dominators.describes_of_iterative hd
  ⟨htree.toDominators.eq hsets, htree.immediateDominator?_eq hsets⟩

theorem toDominators_sample :
    let t : DominatorTree := ⟨#[none, some 0, some 0, some 0, none], #[1, 2, 3, 4, 0], [0, 1, 2, 3]⟩
    let d : Dominators := ⟨#[⟨#[1], 5⟩, ⟨#[3], 5⟩, ⟨#[5], 5⟩, ⟨#[9], 5⟩, ⟨#[16], 5⟩]⟩
    ofGraph .sample 2 = .ok t ∧ Dominators.iterative .sample 6 = .ok d ∧ t.toDominators = d ∧
      d.immediateDominator? 3 = some 0 := by
  intro t d
  have ht : ofGraph .sample 2 = .ok t := by cbv
  have hd : Dominators.iterative .sample 6 = .ok d := by cbv
  obtain ⟨hsets, hlinks⟩ := toDominators_eq_iterative ht hd
  exact ⟨ht, hd, hsets, (hlinks 3).symm⟩

end DefiniteAssignment.DominatorTree
