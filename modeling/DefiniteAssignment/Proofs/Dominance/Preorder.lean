import DefiniteAssignment.Graph.Dump
import DefiniteAssignment.Proofs.Dominance.Immediate
/-!
# The tree of dominators line by line

The dump of dominators goes through the tree that the immediate dominators form, from the entry
down, and writes a line for each node that it comes to:

> `preorderLines_of_found : Found g d → ∃ nodes, IsPreorder g d nodes ∧ …`

Going through a tree is a recursion over the children of a node, which are looked up in a table. As
a relation (`Visits`) it knows no bound, and it has a result only if it comes to an end. It does
(`exists_visits`), because the immediate dominator of a node comes before it in reverse post order.
What is come to from a node is what the node dominates (`Visits.mem_iff`), and nothing is come to
twice, because no two nodes that dominate neither the other have anything in common
(`Visits.nodup`). With that, the bound of the recursion that is run is never met: it is the number
of nodes of the graph, and no more of them are gone through (`Visits.flatMap_preorder`).
-/

namespace DefiniteAssignment.Dominators

variable {g : Graph} {d : Dominators} {m n u : Nat} {ns nodes : List Nat}

/-! ## The children of a node -/

/-- The nodes whose immediate dominator is a given one, ascending. -/
def children (d : Dominators) (n : Nat) : List Nat :=
  (List.range d.size).filter (d.immediateDominator? · == some n)

theorem pairwise_children (d : Dominators) (n : Nat) : (d.children n).Pairwise (· < ·) :=
  List.pairwise_lt_range.filter _

/-- Only nodes have an immediate dominator. -/
theorem lt_size_of_immediateDominator? (h : d.immediateDominator? n = some u) : n < d.size := by
  rcases Nat.lt_or_ge n d.size with hlt | hge
  · exact hlt
  · rw [immediateDominator?, dominatorsOf, Array.getElem?_eq_none hge] at h
    cases h

theorem mem_children : m ∈ d.children n ↔ d.immediateDominator? m = some n := by
  rw [children, List.mem_filter, List.mem_range, beq_iff_eq]
  exact and_iff_right_of_imp lt_size_of_immediateDominator?

/-- Putting each of a list of nodes in front of what stands at its link gathers the nodes by their
links, in the order of the list. -/
theorem getElem?_foldr_modify {size : Nat} (link : Nat → Option Nat) (hn : n < size)
    (nodes : List Nat) :
    (nodes.foldr
      (fun m table =>
        match link m with
        | some up => table.modify up (m :: ·)
        | none => table)
      (Array.replicate size []))[n]? = some (nodes.filter (link · == some n)) := by
  induction nodes with
  | nil => simp [hn]
  | cons m nodes ih =>
    rw [List.foldr_cons, List.filter_cons]
    cases hlink : link m with
    | none => simpa using ih
    | some up =>
      rw [Array.getElem?_modify, ih]
      by_cases hup : up = n <;> simp [hup]

/-- The table holds the children of each node. -/
theorem getElem?_childTable (hn : n < d.size) : d.childTable[n]? = some (d.children n) :=
  getElem?_foldr_modify d.immediateDominator? hn (List.range d.size)

/-! ## Going through a tree -/

/-- Going through trees one after the other, each from its root down: first the root, then the trees
below it. -/
inductive Visits (kids : Nat → List Nat) : List Nat → List Nat → Prop
  | nil : Visits kids [] []
  | cons {n : Nat} {ns below beside : List Nat} : Visits kids (kids n) below →
      Visits kids ns beside → Visits kids (n :: ns) (n :: (below ++ beside))

namespace Visits

variable {kids : Nat → List Nat}

/-- The recursion over a table goes through the same nodes, if its bound is not below their
number. -/
theorem flatMap_preorder {table : Array (List Nat)} {fuel : Nat} (h : Visits kids ns nodes)
    (htable : ∀ n ∈ nodes, table[n]? = some (kids n)) (hfuel : nodes.length ≤ fuel) :
    ns.flatMap (preorder table fuel) = nodes.map fun n => treeLine n (kids n) := by
  induction h generalizing fuel with
  | nil => rfl
  | @cons n ns below beside _ _ ihbelow ihbeside =>
    obtain ⟨hn, hlater⟩ := List.forall_mem_cons.1 htable
    obtain ⟨hbelow, hbeside⟩ := List.forall_mem_append.1 hlater
    simp only [List.length_cons, List.length_append] at hfuel
    obtain ⟨fuel, rfl⟩ : ∃ fuel', fuel = fuel' + 1 := ⟨fuel - 1, by omega⟩
    rw [List.flatMap_cons, preorder, hn, Option.getD_some, ihbelow hbelow (by omega),
      ihbeside hbeside (by omega), List.map_cons, List.map_append, List.cons_append]

/-- The root comes first. -/
theorem head?_eq {root : Option Nat} (h : Visits kids root.toList nodes) : nodes.head? = root := by
  cases root with
  | none =>
    cases h
    rfl
  | some n =>
    cases h
    rfl

/-- The nodes below a node are gone through right behind it. -/
theorem exists_run (h : Visits kids ns nodes) (hn : n ∈ nodes) :
    ∃ before run after, nodes = before ++ (n :: run) ++ after ∧ Visits kids [n] (n :: run) := by
  induction h with
  | nil => cases hn
  | @cons k ns below beside hbelow hbeside ihbelow ihbeside =>
    rcases List.mem_cons.1 hn with rfl | hn
    · refine ⟨[], below, beside, rfl, ?_⟩
      have hrun := Visits.cons hbelow .nil
      rwa [List.append_nil] at hrun
    · rcases List.mem_append.1 hn with hn | hn
      · obtain ⟨before, run, after, rfl, hrun⟩ := ihbelow hn
        exact ⟨k :: before, run, after ++ beside, by simp, hrun⟩
      · obtain ⟨before, run, after, rfl, hrun⟩ := ihbeside hn
        exact ⟨k :: (below ++ before), run, after, by simp, hrun⟩

end Visits

/-! ## Going through the tree of dominators -/

/-- Neither of two nodes dominates the other. -/
def Apart (g : Graph) (a b : Nat) : Prop :=
  ¬g.Dominates a b ∧ ¬g.Dominates b a

/-- Nodes that are apart dominate no node together. -/
theorem Apart.not_dominates {a b : Nat} (h : Apart g a b) (hm : g.Reaches m)
    (ha : g.Dominates a m) : ¬g.Dominates b m :=
  fun hb => (ha.total hb hm).elim h.1 h.2

namespace Describes

variable (h : d.Describes g)
include h

theorem mem_children_iff :
    m ∈ d.children n ↔ g.Reaches m ∧ g.ImmediatelyDominates n m := by
  rw [mem_children, h.immediateDominator?_eq_some_iff]

/-- Down the tree the order of the nodes goes on, so that going through it comes to an end. -/
theorem exists_visits (hns : ∀ n ∈ ns, g.Reaches n) : ∃ nodes, Visits d.children ns nodes := by
  -- The induction is on the number of places behind the roots.
  suffices hdepth : ∀ k ns, (∀ n ∈ ns, g.Reaches n ∧
      g.reversePostOrder.length ≤ g.reversePostOrder.idxOf n + k) →
      ∃ nodes, Visits d.children ns nodes from
    hdepth _ ns fun n hn => ⟨hns n hn, Nat.le_add_left _ _⟩
  intro k
  induction k with
  | zero =>
    intro ns hns
    cases ns with
    | nil => exact ⟨[], .nil⟩
    | cons n ns =>
      obtain ⟨hn, hle⟩ := hns n List.mem_cons_self
      have hlt := List.idxOf_lt_length_of_mem (Graph.mem_reversePostOrder.2 hn)
      omega
  | succ k ih =>
    intro ns hns
    induction ns with
    | nil => exact ⟨[], .nil⟩
    | cons n ns ihns =>
      obtain ⟨⟨-, hle⟩, hns⟩ := List.forall_mem_cons.1 hns
      obtain ⟨below, hbelow⟩ := ih (d.children n) fun m hm => by
        obtain ⟨hr, hdom⟩ := h.mem_children_iff.1 hm
        have hlt := hdom.idxOf_lt hr
        exact ⟨hr, by omega⟩
      obtain ⟨beside, hbeside⟩ := ihns hns
      exact ⟨_, .cons hbelow hbeside⟩

/-- What a node dominates is the node itself and what its children dominate. -/
theorem dominates_iff_children (hm : g.Reaches m) :
    g.Dominates n m ↔ m = n ∨ ∃ c ∈ d.children n, g.Dominates c m := by
  constructor
  · -- Up from `m` the way leads through a child of `n` before it comes to `n`.
    induction hidx : g.reversePostOrder.idxOf m using Nat.strongRecOn generalizing m with
    | _ idx ih =>
      intro hdom
      by_cases hmn : m = n
      · exact .inl hmn
      · have hne : g.entry ≠ some m := fun he => hmn (hdom.eq_entry he).symm
        obtain ⟨u, hu⟩ := Graph.exists_immediatelyDominates hm hne
        have hnu := hu.closest (Ne.symm hmn) hdom
        rcases ih _ (hidx ▸ hu.idxOf_lt hm) (hu.dominates.reaches hm) rfl hnu with rfl | hc
        · exact .inr ⟨m, h.mem_children_iff.2 ⟨hm, hu⟩, .refl g m⟩
        · obtain ⟨c, hc, hcu⟩ := hc
          exact .inr ⟨c, hc, hcu.trans hu.dominates⟩
  · rintro (rfl | ⟨c, hc, hcm⟩)
    · exact .refl g m
    · exact (h.mem_children_iff.1 hc).2.dominates.trans hcm

theorem pairwise_apart_children (n : Nat) : (d.children n).Pairwise (Apart g) := by
  -- A child that another one dominates would have that one for its immediate dominator.
  have hnot {a b : Nat} (ha : a ∈ d.children n) (hb : b ∈ d.children n) (hab : a ≠ b) :
      ¬g.Dominates a b := by
    intro hdom
    obtain ⟨har, ha⟩ := h.mem_children_iff.1 ha
    obtain ⟨-, hb⟩ := h.mem_children_iff.1 hb
    exact ha.ne (ha.dominates.antisymm (hb.closest hab hdom) har)
  refine (d.pairwise_children n).imp_of_mem fun ha hb hlt => ?_
  exact ⟨hnot ha hb (Nat.ne_of_lt hlt), hnot hb ha (Nat.ne_of_gt hlt)⟩

end Describes

namespace Visits

/-- What is come to from some nodes is what they dominate. -/
theorem mem_iff (h : Visits d.children ns nodes) (hd : d.Describes g)
    (hns : ∀ n ∈ ns, g.Reaches n) :
    m ∈ nodes ↔ g.Reaches m ∧ ∃ n ∈ ns, g.Dominates n m := by
  induction h with
  | nil => simp
  | @cons n ns below beside _ _ ihbelow ihbeside =>
    obtain ⟨hn, hns⟩ := List.forall_mem_cons.1 hns
    rw [List.mem_cons, List.mem_append, ihbeside hns,
      ihbelow fun c hc => (hd.mem_children_iff.1 hc).1, List.exists_mem_cons_iff]
    by_cases hm : g.Reaches m
    · rw [hd.dominates_iff_children hm, and_iff_right hm, and_iff_right hm, and_iff_right hm,
        or_assoc]
    · have hmn : m ≠ n := fun heq => hm (heq ▸ hn)
      simp [hm, hmn]

/-- Nothing is come to twice. -/
theorem nodup (h : Visits d.children ns nodes) (hd : d.Describes g) (hns : ∀ n ∈ ns, g.Reaches n)
    (hapart : ns.Pairwise (Apart g)) : nodes.Nodup := by
  induction h with
  | nil => exact List.nodup_nil
  | @cons n ns below beside hbelow hbeside ihbelow ihbeside =>
    obtain ⟨hn, hns⟩ := List.forall_mem_cons.1 hns
    obtain ⟨hnapart, hapart⟩ := List.pairwise_cons.1 hapart
    have hchildren : ∀ c ∈ d.children n, g.Reaches c := fun c hc => (hd.mem_children_iff.1 hc).1
    have hmem_below {m : Nat} (hm : m ∈ below) :
        g.Reaches m ∧ ∃ c ∈ d.children n, g.Dominates c m :=
      (hbelow.mem_iff hd hchildren).1 hm
    have hmem_beside {m : Nat} (hm : m ∈ beside) : ¬g.Dominates n m := by
      obtain ⟨hr, k, hk, hkm⟩ := (hbeside.mem_iff hd hns).1 hm
      exact fun hnm => (hnapart k hk).not_dominates hr hnm hkm
    refine List.nodup_cons.2 ⟨fun hmem => ?_, List.nodup_append.2
      ⟨ihbelow hchildren (hd.pairwise_apart_children n), ihbeside hns hapart, ?_⟩⟩
    · rcases List.mem_append.1 hmem with hmem | hmem
      · -- A child of `n` would dominate `n`.
        obtain ⟨-, c, hc, hcn⟩ := hmem_below hmem
        have hnc := (hd.mem_children_iff.1 hc).2
        exact hnc.ne (hnc.dominates.antisymm hcn (hchildren c hc))
      · exact hmem_beside hmem (.refl g n)
    · rintro m hm _ hm' rfl
      obtain ⟨hr, c, hc, hcm⟩ := hmem_below hm
      exact hmem_beside hm' ((hd.dominates_iff_children hr).2 (.inr ⟨c, hc, hcm⟩))

end Visits

theorem idxOf_lt_of_run {before run after : List Nat}
    (h : (before ++ (u :: run) ++ after).Nodup) (hn : n ∈ run) :
    (before ++ (u :: run) ++ after).idxOf u < (before ++ (u :: run) ++ after).idxOf n := by
  have hfront := (List.nodup_append.1 h).1
  have hnotMem : ∀ m ∈ u :: run, m ∉ before := fun m hm hbefore =>
    List.disjoint_of_nodup_append hfront hbefore hm
  have hne : u ≠ n := fun heq =>
    (List.nodup_cons.1 (List.nodup_append.1 hfront).2.1).1 (heq ▸ hn)
  rw [List.append_assoc, List.idxOf_append_of_notMem (hnotMem u List.mem_cons_self),
    List.idxOf_append_of_notMem (hnotMem n (List.mem_cons_of_mem u hn)), List.cons_append,
    List.idxOf_cons_self, List.idxOf_cons_ne _ hne]
  omega

/-- The nodes of `g` in an order in which each comes behind its immediate dominator and together
with what it dominates. -/
structure IsPreorder (g : Graph) (d : Dominators) (nodes : List Nat) : Prop where
  head? : nodes.head? = g.entry
  nodup : nodes.Nodup
  mem_iff : ∀ n, n ∈ nodes ↔ g.Reaches n
  /-- A node has all that it dominates right behind it, and nothing else in between. -/
  exists_run : ∀ n ∈ nodes, ∃ before run after, nodes = before ++ (n :: run) ++ after ∧
    ∀ m, m ∈ n :: run ↔ d.dominates n m = true
  idxOf_lt : ∀ n u, d.immediateDominator? n = some u → nodes.idxOf u < nodes.idxOf n

namespace IsPreorder

theorem lt_size (h : IsPreorder g d nodes) (hn : n ∈ nodes) : n < g.size :=
  ((h.mem_iff n).1 hn).lt_size

theorem length_le (h : IsPreorder g d nodes) : nodes.length ≤ g.size := by
  have hsubset : nodes ⊆ List.range g.size := fun n hn => List.mem_range.2 (h.lt_size hn)
  simpa using (List.subperm_of_subset h.nodup hsubset).length_le

end IsPreorder

namespace Describes

variable (h : d.Describes g)
include h

theorem dominates_iff_of_reaches_left (hn : g.Reaches n) (m : Nat) :
    d.dominates n m = true ↔ g.Reaches m ∧ g.Dominates n m := by
  constructor
  · intro hdom
    have hm : m < g.size := by
      by_contra hge
      rw [dominates, Array.getElem?_eq_none (by have := h.size_sets; omega)] at hdom
      cases hdom
    rcases (h.dominates_iff hm n).1 hdom with rfl | hdom
    · exact ⟨hn, .refl g n⟩
    · exact hdom
  · intro hdom
    exact (h.dominates_iff_of_reaches hdom.1 n).2 hdom.2

/-- The order in which the tree is gone through from the entry. -/
theorem isPreorder (hvisits : Visits d.children g.entry.toList nodes) : IsPreorder g d nodes := by
  have hroots : ∀ n ∈ g.entry.toList, g.Reaches n := fun n hn =>
    Graph.reaches_entry (Option.mem_toList.1 hn)
  have hmem (n : Nat) : n ∈ nodes ↔ g.Reaches n := by
    rw [hvisits.mem_iff h hroots, and_iff_left_iff_imp]
    rintro ⟨l, e, he, hl⟩
    exact ⟨e, Option.mem_toList.2 he, Graph.dominates_of_entry he n⟩
  have hnodup : nodes.Nodup := by
    refine hvisits.nodup h hroots ?_
    cases g.entry with
    | none => exact List.Pairwise.nil
    | some e => exact List.pairwise_singleton _ e
  have hrun : ∀ n ∈ nodes, ∃ before run after, nodes = before ++ (n :: run) ++ after ∧
      ∀ m, m ∈ n :: run ↔ d.dominates n m = true := by
    intro n hn
    obtain ⟨before, run, after, hnodes, hbelow⟩ := hvisits.exists_run hn
    refine ⟨before, run, after, hnodes, fun m => ?_⟩
    have hr := (hmem n).1 hn
    rw [hbelow.mem_iff h (List.forall_mem_singleton.2 hr), h.dominates_iff_of_reaches_left hr]
    simp
  refine ⟨hvisits.head?_eq, hnodup, hmem, hrun, fun n u hu => ?_⟩
  obtain ⟨hr, hdom⟩ := h.immediateDominator?_eq_some_iff.1 hu
  have hur := hdom.dominates.reaches hr
  obtain ⟨before, run, after, rfl, hiff⟩ := hrun u ((hmem u).2 hur)
  have hn : n ∈ u :: run :=
    (hiff n).2 ((h.dominates_iff_of_reaches_left hur n).2 ⟨hr, hdom.dominates⟩)
  exact idxOf_lt_of_run hnodup (List.mem_of_ne_of_mem hdom.ne.symm hn)

/-- As many steps as the graph has nodes are enough. -/
theorem preorder_childTable {e fuel : Nat} (hvisits : Visits d.children [e] nodes)
    (horder : IsPreorder g d nodes) (hfuel : g.size ≤ fuel) :
    preorder d.childTable fuel e = nodes.map fun n => treeLine n (d.children n) := by
  have htable : ∀ n ∈ nodes, d.childTable[n]? = some (d.children n) := fun n hn =>
    getElem?_childTable (Nat.lt_of_lt_of_eq (horder.lt_size hn) h.size_sets.symm)
  have hflat := hvisits.flatMap_preorder htable (Nat.le_trans horder.length_le hfuel)
  rwa [List.flatMap_singleton] at hflat

end Describes

/-- The lines of the tree are those of the nodes that control can get to, one for each: the entry
first, every other node behind its immediate dominator, and each node together with what it
dominates. A line names the nodes whose immediate dominator its own node is, ascending. The bound of
the recursion has no part in this, since a greater one gives the same lines. -/
theorem preorderLines_of_found (h : Found g d) :
    ∃ nodes, IsPreorder g d nodes ∧ Visits d.children g.entry.toList nodes ∧
      preorderLines g d = nodes.map (fun n => treeLine n (d.children n)) ∧
      (∀ e ∈ g.entry, ∀ fuel ≥ g.size, preorder d.childTable fuel e = preorderLines g d) ∧
      ∀ n, (d.children n).Pairwise (· < ·) ∧
        ∀ m, m ∈ d.children n ↔ d.immediateDominator? m = some n := by
  have hd := h.describes
  obtain ⟨nodes, hvisits⟩ : ∃ nodes, Visits d.children g.entry.toList nodes :=
    hd.exists_visits fun n hn => Graph.reaches_entry (Option.mem_toList.1 hn)
  have horder := hd.isPreorder hvisits
  have hlines : ∀ e ∈ g.entry, ∀ fuel ≥ g.size,
      preorder d.childTable fuel e = nodes.map fun n => treeLine n (d.children n) := by
    intro e he fuel hfuel
    rw [Option.mem_def.1 he, Option.toList_some] at hvisits
    exact hd.preorder_childTable hvisits horder hfuel
  have hpreorder : preorderLines g d = nodes.map fun n => treeLine n (d.children n) := by
    unfold preorderLines
    split
    next e he => exact hlines e he g.size (Nat.le_refl _)
    next hnone =>
      rw [hnone] at hvisits
      cases hvisits
      rfl
  refine ⟨nodes, horder, hvisits, hpreorder, ?_, ?_⟩
  · intro e he fuel hfuel
    rw [hlines e he fuel hfuel, hpreorder]
  · exact fun n => ⟨d.pairwise_children n, fun m => mem_children⟩

/-- Three nodes hang below the entry, and the one that control cannot get to has no line. -/
theorem preorderLines_sample :
    let d : Dominators := ⟨#[⟨#[1], 5⟩, ⟨#[3], 5⟩, ⟨#[5], 5⟩, ⟨#[9], 5⟩, ⟨#[16], 5⟩]⟩
    Found .sample d ∧
      preorderLines .sample d = ["inst0: inst1 inst2 inst3", "inst1:", "inst2:", "inst3:"] ∧
      ∃ nodes, IsPreorder .sample d nodes ∧ Visits d.children Graph.sample.entry.toList nodes ∧
        preorderLines .sample d = nodes.map (fun n => treeLine n (d.children n)) ∧
        (∀ e ∈ Graph.sample.entry, ∀ fuel ≥ Graph.sample.size,
          preorder d.childTable fuel e = preorderLines .sample d) ∧
        ∀ n, (d.children n).Pairwise (· < ·) ∧
          ∀ m, m ∈ d.children n ↔ d.immediateDominator? m = some n := by
  intro d
  have hok : iterative .sample 6 = .ok d := by cbv
  exact ⟨.iterative hok, by decide +kernel, preorderLines_of_found (.iterative hok)⟩

end DefiniteAssignment.Dominators
