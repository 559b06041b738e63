import DefiniteAssignment.Proofs.Dominance.Tree
import DefiniteAssignment.Proofs.Graph.Counts
/-!
# What a dominator tree answers

A dominator tree is asked what a node is linked to, which nodes are linked to it, and whether it
dominates another.

The links do make a tree (`Spans`): its root is the entry, its nodes are those that control can get
to, and each of them hangs below a node that comes before it in the order.

> `spans_of_ofGraph`

Whether a node dominates another is answered by a walk up from the other, which stops at the first
number that is not greater than that of the node. A dominator has no greater number than what it
dominates, so that the walk does not go past it, and the answer is the one that the sets would give:

> `dominates_eq_toDominators`
-/

namespace DefiniteAssignment.DominatorTree

variable {g : Graph} {t : DominatorTree} {limit a b m n : Nat}

/-! ## The shape of a tree -/

/-- Where one comes to by following so many links from a node. -/
def linksUp (t : DominatorTree) : Nat → Nat → Option Nat
  | 0, n => some n
  | k + 1, n => (t.immediateDominator? n).bind (t.linksUp k)

/-- The links of `t` make a tree of the nodes of `g` that control can get to, below the entry. -/
structure Spans (t : DominatorTree) (g : Graph) : Prop where
  exists_link : ∀ n, g.Reaches n → g.entry ≠ some n →
    ∃ u, t.immediateDominator? n = some u ∧ g.Reaches u ∧
      g.reversePostOrder.idxOf u < g.reversePostOrder.idxOf n
  link_eq_none : ∀ n, g.entry = some n ∨ ¬g.Reaches n → t.immediateDominator? n = none
  /-- Fewer links than there are nodes lead to the entry. -/
  exists_linksUp : ∀ n, g.Reaches n →
    ∃ k < g.reachableNodes.length, t.linksUp k n = g.entry
  pairwise_children : ∀ n, (t.children n).Pairwise (· < ·)
  disjoint_children : ∀ m n, m ≠ n → (t.children m).Disjoint (t.children n)
  mem_children_iff : ∀ m, (∃ n, m ∈ t.children n) ↔ g.Reaches m ∧ g.entry ≠ some m

theorem lt_size_of_linkOf {idom : Array (Option Nat)} {u : Nat} (h : linkOf idom n = some u) :
    n < idom.size := by
  rcases Nat.lt_or_ge n idom.size with hlt | hge
  · exact hlt
  · rw [linkOf, Array.getElem?_eq_none hge] at h
    cases h

theorem mem_children : m ∈ t.children n ↔ t.immediateDominator? m = some n := by
  rw [children, List.mem_filter, List.mem_range, beq_iff_eq]
  exact and_iff_right_of_imp lt_size_of_linkOf

theorem pairwise_children (t : DominatorTree) (n : Nat) : (t.children n).Pairwise (· < ·) :=
  List.pairwise_lt_range.filter _

/-- A node is linked to one node only. -/
theorem disjoint_children (hmn : m ≠ n) : (t.children m).Disjoint (t.children n) := by
  intro k hm hn
  rw [mem_children] at hm hn
  exact hmn (Option.some.inj (hm.symm.trans hn))

namespace Describes

variable (h : t.Describes g)
include h

/-- Each link leads to an earlier place in the order, so that it takes no more links to the entry
than there are places. -/
theorem exists_linksUp (hn : g.Reaches n) :
    ∃ k ≤ g.reversePostOrder.idxOf n, t.linksUp k n = g.entry := by
  induction hidx : g.reversePostOrder.idxOf n using Nat.strongRecOn generalizing n with
  | _ idx ih =>
    by_cases he : g.entry = some n
    · exact ⟨0, Nat.zero_le _, he.symm⟩
    · obtain ⟨u, hu, hdom⟩ := h.exists_link n hn he
      have hlt := hdom.idxOf_lt hn
      obtain ⟨k, hk, hup⟩ := ih _ (hidx ▸ hlt) (hdom.dominates.reaches hn) rfl
      refine ⟨k + 1, by omega, ?_⟩
      rw [linksUp, immediateDominator?, hu, Option.bind_some, hup]

theorem spans : t.Spans g where
  exists_link n hn hne := by
    obtain ⟨u, hu, hdom⟩ := h.exists_link n hn hne
    exact ⟨u, hu, hdom.dominates.reaches hn, hdom.idxOf_lt hn⟩
  link_eq_none n hn := h.link_eq_none n fun hr => hn.resolve_right (not_not_intro hr)
  exists_linksUp n hn := by
    obtain ⟨k, hk, hup⟩ := h.exists_linksUp hn
    have hlt := List.idxOf_lt_length_of_mem (Graph.mem_reversePostOrder.2 hn)
    rw [Graph.length_reversePostOrder] at hlt
    exact ⟨k, Nat.lt_of_le_of_lt hk hlt, hup⟩
  pairwise_children := t.pairwise_children
  disjoint_children m n hmn := disjoint_children hmn
  mem_children_iff m := by
    simp only [mem_children]
    constructor
    · intro hm
      obtain ⟨u, hu⟩ := hm
      obtain ⟨hr, hdom⟩ := h.linkOf_eq_some_iff.1 hu
      exact ⟨hr, hdom.ne_entry⟩
    · intro hm
      obtain ⟨u, hu, -⟩ := h.exists_link m hm.1 hm.2
      exact ⟨u, hu⟩

end Describes

/-- The tree that is found for a graph spans the nodes that control can get to, and each node hangs
below its immediate dominator. -/
theorem spans_of_ofGraph (h : ofGraph g limit = .ok t) :
    t.Spans g ∧ ∀ n u, t.immediateDominator? n = some u ↔
      g.Reaches n ∧ g.ImmediatelyDominates u n := by
  have ht := describes_of_ofGraph h
  exact ⟨ht.spans, fun n u => ht.linkOf_eq_some_iff⟩

/-- The nodes of the loop and the one behind it hang below the entry. -/
theorem spans_sample :
    let t : DominatorTree := ⟨#[none, some 0, some 0, some 0, none], #[1, 2, 3, 4, 0], [0, 1, 2, 3]⟩
    ofGraph .sample 2 = .ok t ∧ t.Spans .sample ∧ t.children 0 = [1, 2, 3] ∧
      Graph.sample.ImmediatelyDominates 0 3 := by
  intro t
  have ht : ofGraph .sample 2 = .ok t := by cbv
  obtain ⟨hspans, hlinks⟩ := spans_of_ofGraph ht
  exact ⟨ht, hspans, by decide, ((hlinks 3 0).1 rfl).2⟩

/-! ## The walk up a tree -/

/-- The walk up from `b` follows links, wherever they lead, as long as it is at a number greater
than that of `a`; `found` says whether it stops at `a`. -/
inductive Climbs (t : DominatorTree) (a : Nat) : Nat → Bool → Prop
  | stop {b : Nat} : numberOf t.number b ≤ numberOf t.number a → Climbs t a b (b == a)
  | root {b : Nat} : numberOf t.number a < numberOf t.number b → linkOf t.idom b = none →
      Climbs t a b false
  | up {b up : Nat} {found : Bool} : numberOf t.number a < numberOf t.number b →
      linkOf t.idom b = some up → Climbs t a up found → Climbs t a b found

namespace Describes

variable (h : t.Describes g)
include h

theorem numberOf_eq (n : Nat) : numberOf t.number n = numberIn g n := by
  rw [h.number_eq, numberIn]

/-- The test of `climbsTo` always holds: it goes where the walk goes. -/
theorem climbs_climbsTo (a b : Nat) : Climbs t a b (t.climbsTo a b) := by
  fun_induction climbsTo t a b with
  | case1 b hlt hnone => exact .root hlt hnone
  | case2 b hlt up hup hless ih => exact .up hlt hup ih
  | case3 b hlt up hup hnotless =>
    obtain ⟨hb, hdom⟩ := h.linkOf_eq_some_iff.1 hup
    rw [h.numberOf_eq, h.numberOf_eq] at hnotless
    exact absurd (numberIn_lt_of_dominates hdom.dominates hb hdom.ne) hnotless
  | case4 b hnotlt => exact .stop (Nat.le_of_not_lt hnotlt)

/-- A walk from a node to a dominator of it stops there. -/
theorem found_iff_dominates {found : Bool} (hwalk : Climbs t a b found) (ha : g.Reaches a)
    (hb : g.Reaches b) : found = true ↔ g.Dominates a b := by
  induction hwalk with
  | @stop b hle =>
    rw [h.numberOf_eq, h.numberOf_eq] at hle
    rw [beq_iff_eq]
    constructor
    · intro hba
      exact hba ▸ .refl g b
    · intro hdom
      by_cases hab : a = b
      · exact hab.symm
      · have hlt := numberIn_lt_of_dominates hdom hb hab
        omega
  | @root b hlt hnone =>
    -- Only the entry has no link, and no node has a smaller number.
    rw [h.numberOf_eq, h.numberOf_eq] at hlt
    obtain ⟨u, hu, -⟩ := h.exists_link b hb (not_entry_of_numberIn_lt ha hlt)
    cases hnone.symm.trans hu
  | @up b u found hlt hu _ ih =>
    have hdom := (h.linkOf_eq_some_iff.1 hu).2
    have hab : a ≠ b := fun hab => Nat.lt_irrefl _ (hab ▸ hlt)
    rw [ih (hdom.dominates.reaches hb), hdom.dominates_iff, or_iff_right hab]

/-- A tree answers as its graph does, and a node that control cannot get to has itself only. -/
theorem dominates_iff (hb : b < g.size) (a : Nat) :
    t.dominates a b = true ↔ a = b ∨ g.Reaches b ∧ g.Dominates a b := by
  simp only [DominatorTree.dominates, h.size_idom, h.numberOf_eq, Bool.and_eq_true,
    Bool.or_eq_true, decide_eq_true_eq, beq_iff_eq, bne_iff_ne, numberIn_ne_zero_iff]
  constructor
  · intro hdom
    obtain ⟨-, hab | ⟨⟨har, hbr⟩, hclimbs⟩⟩ := hdom
    · exact .inl hab
    · exact .inr ⟨hbr, (h.found_iff_dominates (h.climbs_climbsTo a b) har hbr).1 hclimbs⟩
  · intro hdom
    rcases hdom with rfl | ⟨hbr, hdom⟩
    · exact ⟨⟨hb, hb⟩, .inl rfl⟩
    · have har := hdom.reaches hbr
      exact ⟨⟨har.lt_size, hb⟩,
        .inr ⟨⟨har, hbr⟩, (h.found_iff_dominates (h.climbs_climbsTo a b) har hbr).2 hdom⟩⟩

end Describes

/-- The tree that is found for a graph gives the same answers as the sets that are made of it, for
any two numbers; the walks that it takes all come to an end. -/
theorem dominates_eq_toDominators (h : ofGraph g limit = .ok t) (a b : Nat) :
    t.dominates a b = t.toDominators.dominates a b ∧ Climbs t a b (t.climbsTo a b) := by
  have ht := describes_of_ofGraph h
  have hd := ht.toDominators
  refine ⟨?_, ht.climbs_climbsTo a b⟩
  rcases Nat.lt_or_ge b g.size with hb | hb
  · rw [Bool.eq_iff_iff, ht.dominates_iff hb, hd.dominates_iff hb]
  · rw [Dominators.dominates, Array.getElem?_eq_none (hd.size_sets ▸ hb)]
    simp [DominatorTree.dominates, ht.size_idom, Nat.not_lt.2 hb]

/-- The walk up from the node behind the loop passes by both nodes of the loop. No walk is made for
a node that control cannot get to. -/
theorem dominates_toDominators_sample :
    let t : DominatorTree := ⟨#[none, some 0, some 0, some 0, none], #[1, 2, 3, 4, 0], [0, 1, 2, 3]⟩
    ofGraph .sample 2 = .ok t ∧ t.toDominators.dominates 0 3 = true ∧
      t.toDominators.dominates 2 3 = false ∧ Climbs t 2 3 false ∧
      t.toDominators.dominates 4 4 = true ∧ t.toDominators.dominates 4 1 = false ∧
      t.toDominators.dominates 5 5 = false := by
  intro t
  have ht : ofGraph .sample 2 = .ok t := by cbv
  have heq := fun a b => (dominates_eq_toDominators ht a b).1
  have hwalk := (dominates_eq_toDominators ht 2 3).2
  have hclimbs : t.climbsTo 2 3 = false := by cbv
  rw [hclimbs] at hwalk
  exact ⟨ht, (heq 0 3).symm.trans (by cbv), (heq 2 3).symm.trans (by cbv), hwalk,
    (heq 4 4).symm.trans (by cbv), (heq 4 1).symm.trans (by cbv),
    (heq 5 5).symm.trans (by cbv)⟩

end DefiniteAssignment.DominatorTree
