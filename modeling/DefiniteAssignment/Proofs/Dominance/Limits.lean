import DefiniteAssignment.Proofs.Dominance.Termination
/-!
# Limits of passes

Without a limit, passes over the links are made until one changes nothing, and over an empty graph
none is made (`TakesPasses`). The tree that is built then is the one that a limit lets be built, if
it allows that many passes, the last one included, which only confirms the links:

> `build_eq_ok_iff`

So the limit decides whether a tree is found, and not which.
-/

namespace DefiniteAssignment.DominatorTree

variable {g : Graph} {k passes limit : Nat}

/-- Without a limit, so many passes are made: none if there are no nodes, and else as many as it
takes for one to change nothing. -/
structure TakesPasses (g : Graph) (passes : Nat) : Prop where
  eq_zero_iff : passes = 0 ↔ g.size = 0
  same_iff : ∀ j < passes, (linksAfter g (j + 1) = linksAfter g j ↔ j + 1 = passes)

/-- The tree of the links after so many passes, in which the entry has no link. -/
def treeAfter (g : Graph) (passes : Nat) : DominatorTree where
  idom :=
    match g.entry with
    | some e => (linksAfter g passes).setIfInBounds e none
    | none => linksAfter g passes
  number := numbering g.size g.reversePostOrder
  order := g.reversePostOrder

/-- Reverse post order is empty only for a graph without nodes. -/
theorem size_eq_zero_iff (g : Graph) : g.size = 0 ↔ g.reversePostOrder = [] := by
  have hhead := g.head?_reversePostOrder
  constructor
  · intro hsize
    cases hentry : g.entry with
    | none => rwa [hentry, List.head?_eq_none_iff] at hhead
    | some e =>
      have hlt : e < g.size := g.entry_lt e hentry
      omega
  · intro hempty
    rw [hempty, List.head?_nil] at hhead
    by_contra hsize
    have hsome := g.isSome_entry (Nat.pos_of_ne_zero hsize)
    rw [← hhead] at hsome
    cases hsome

/-- No more passes are made than the limit allows. -/
theorem passes_le_of_settle {number : Array Nat} {nodes : List Nat} {fuel : Nat}
    {idom settled : Array (Option Nat)}
    (hok : settle g number nodes limit fuel idom = .ok (settled, passes)) : passes ≤ limit := by
  induction fuel generalizing idom with
  | zero => cases hok
  | succ fuel ih =>
    unfold settle at hok
    dsimp only at hok
    split at hok
    next => exact ih hok
    next =>
      obtain ⟨-, rfl⟩ := Prod.mk.inj (Except.ok.inj hok)
      exact Nat.sub_le limit fuel

/-- Passes that begin behind the first `k` go on up to the first that changes nothing, if the limit
allows that one. -/
theorem settle_of_same_iff {fuel : Nat} (hlimit : limit = k + fuel) (hk : k < passes)
    (hpasses : passes ≤ limit)
    (hsame : ∀ j < passes, (linksAfter g (j + 1) = linksAfter g j ↔ j + 1 = passes)) :
    settle g (numbering g.size g.reversePostOrder) g.reversePostOrder.tail limit fuel
      (linksAfter g k) = .ok (linksAfter g passes, passes) := by
  induction fuel generalizing k with
  | zero => omega
  | succ fuel ih =>
    have hflag := (linksAfter_succ_eq_iff g k).symm.trans (hsame k hk)
    have hnext : linksAfter g (k + 1) = (g.reversePostOrder.tail.foldl
      (relink g (numbering g.size g.reversePostOrder)) (linksAfter g k, false)).1 := rfl
    unfold settle
    generalize g.reversePostOrder.tail.foldl _ (linksAfter g k, false) = pass at hflag hnext
    obtain ⟨linked, changed⟩ := pass
    obtain rfl : linksAfter g (k + 1) = linked := hnext
    cases changed with
    | false =>
      obtain rfl : k + 1 = passes := hflag.1 rfl
      show Except.ok (linksAfter g (k + 1), limit - fuel) = _
      rw [show limit - fuel = k + 1 by omega]
    | true =>
      have hne : k + 1 ≠ passes := fun heq => Bool.false_ne_true (hflag.2 heq).symm
      exact ih (by omega) (by omega)

/-- Passes are made until the first one that changes nothing, and fail if it lies beyond the
limit. -/
theorem settle_eq_ok_iff {settled : Array (Option Nat)} :
    settle g (numbering g.size g.reversePostOrder) g.reversePostOrder.tail limit limit
        (linksAfter g 0) = .ok (settled, passes) ↔
      0 < passes ∧ passes ≤ limit ∧ settled = linksAfter g passes ∧
        ∀ j < passes, (linksAfter g (j + 1) = linksAfter g j ↔ j + 1 = passes) := by
  constructor
  · intro hok
    obtain ⟨hsettled, hpos, hall⟩ := settle_linksAfter (Nat.zero_add limit).symm hok
    exact ⟨hpos, passes_le_of_settle hok, hsettled, fun j hj => hall j (Nat.zero_le j) hj⟩
  · intro h
    obtain ⟨hpos, hle, rfl, hall⟩ := h
    exact settle_of_same_iff (Nat.zero_add limit).symm hpos hle hall

theorem build_of_empty (h : g.reversePostOrder = []) : build g limit = .ok (treeAfter g 0, 0) := by
  have hentry : g.entry = none := by rw [← g.head?_reversePostOrder, h, List.head?_nil]
  unfold build
  rw [treeAfter, linksAfter, startLinks, hentry, h]

theorem build_of_cons {e : Nat} {nodes : List Nat} (h : g.reversePostOrder = e :: nodes) :
    build g limit = (settle g (numbering g.size g.reversePostOrder) g.reversePostOrder.tail limit
      limit (linksAfter g 0)).map fun found =>
        (⟨found.1.setIfInBounds e none, numbering g.size g.reversePostOrder, g.reversePostOrder⟩,
          found.2) := by
  have he : g.entry = some e := by rw [← g.head?_reversePostOrder, h, List.head?_cons]
  have hstart : linksAfter g 0 = (Array.replicate g.size none).setIfInBounds e (some e) := by
    rw [linksAfter, startLinks, he]
  have htail : g.reversePostOrder.tail = nodes := by rw [h, List.tail_cons]
  rw [build_eq_map h, hstart, htail]

/-- What is built is the tree after the passes that are made without a limit, and it is built
exactly if the limit allows these. -/
theorem build_eq_ok_iff {t : DominatorTree} :
    build g limit = .ok (t, passes) ↔
      TakesPasses g passes ∧ passes ≤ limit ∧ t = treeAfter g passes := by
  cases horder : g.reversePostOrder with
  | nil =>
    have hsize := (size_eq_zero_iff g).2 horder
    rw [build_of_empty horder]
    constructor
    · intro h
      obtain ⟨rfl, rfl⟩ := Prod.mk.inj (Except.ok.inj h)
      exact ⟨⟨iff_of_true rfl hsize, fun j hj => absurd hj (Nat.not_lt_zero j)⟩, Nat.zero_le _, rfl⟩
    · intro h
      obtain ⟨htakes, -, rfl⟩ := h
      rw [htakes.eq_zero_iff.2 hsize]
  | cons e nodes =>
    have he : g.entry = some e := by rw [← g.head?_reversePostOrder, horder, List.head?_cons]
    have hsize : g.size ≠ 0 := by
      rw [ne_eq, size_eq_zero_iff, horder]
      exact List.cons_ne_nil e nodes
    have htree : treeAfter g passes = ⟨(linksAfter g passes).setIfInBounds e none,
        numbering g.size g.reversePostOrder, g.reversePostOrder⟩ := by
      rw [treeAfter, he]
    rw [build_of_cons horder, Flow.map_eq_ok_iff, htree]
    constructor
    · intro h
      obtain ⟨⟨settled, passes'⟩, hok, heq⟩ := h
      obtain ⟨rfl, rfl⟩ := Prod.mk.inj heq
      obtain ⟨hpos, hle, rfl, hall⟩ := settle_eq_ok_iff.1 hok
      exact ⟨⟨iff_of_false (Nat.ne_of_gt hpos) hsize, hall⟩, hle, rfl⟩
    · intro h
      obtain ⟨htakes, hle, rfl⟩ := h
      have hpos : 0 < passes := Nat.pos_of_ne_zero (mt htakes.eq_zero_iff.1 hsize)
      exact ⟨_, settle_eq_ok_iff.2 ⟨hpos, hle, rfl, htakes.same_iff⟩, rfl⟩

/-- A tree is found exactly if the limit allows the passes that are made without one, and whatever
the limit is, it is the same tree. -/
theorem ofGraph_eq_ok_iff {t : DominatorTree} :
    ofGraph g limit = .ok t ↔ ∃ passes ≤ limit, TakesPasses g passes ∧ t = treeAfter g passes := by
  rw [ofGraph, Flow.map_eq_ok_iff]
  constructor
  · intro h
    obtain ⟨⟨tree, passes⟩, hbuild, rfl⟩ := h
    obtain ⟨htakes, hle, htree⟩ := build_eq_ok_iff.1 hbuild
    exact ⟨passes, hle, htakes, htree⟩
  · intro h
    obtain ⟨passes, hle, htakes, htree⟩ := h
    exact ⟨(t, passes), build_eq_ok_iff.2 ⟨htakes, hle, htree⟩, rfl⟩

/-- A tree that is found is found with any greater limit. -/
theorem ofGraph_of_le {limit' : Nat} {t : DominatorTree} (hok : ofGraph g limit = .ok t)
    (hle : limit ≤ limit') : ofGraph g limit' = .ok t := by
  obtain ⟨passes, hpasses, htakes, htree⟩ := ofGraph_eq_ok_iff.1 hok
  exact ofGraph_eq_ok_iff.2 ⟨passes, Nat.le_trans hpasses hle, htakes, htree⟩

end DefiniteAssignment.DominatorTree
