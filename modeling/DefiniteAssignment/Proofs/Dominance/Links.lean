import DefiniteAssignment.Proofs.Dominance.CommonAncestors
import DefiniteAssignment.Proofs.Graph.Dominance
/-!
# Links to closer nodes

While a dominator tree is being found, some nodes have a link to a node nearer to the entry. These
need not be the links of the tree yet; `Links g idom` says what they have in common with it from the
first to the last. Only nodes that control can get to are linked, each to a node that has a link
itself and a smaller number, and whatever else dominates a node dominates what the node is linked
to. So no link skips a dominator, and the dominators of a linked node are among its ancestors. There
may be more ancestors than that as long as a loop has not been gone round often enough.

Such links lead to the entry (`Links.rooted`), so that two walks up from linked nodes meet. They do
at an ancestor of both which all their common dominators dominate (`Links.common_nearestCommon`),
and so do the walks from all linked predecessors of a node:

> `Links.exists_candidate`
-/

namespace DefiniteAssignment.DominatorTree

/-! ## Numbers -/

/-- Giving one node a number changes no other. -/
theorem numberOf_set {number : Array Nat} {m : Nat} (hm : m < number.size) (k n : Nat) :
    numberOf (number.setIfInBounds m k) n = if m = n then k else numberOf number n := by
  unfold numberOf
  rw [Array.getElem?_setIfInBounds]
  by_cases hmn : m = n
  · rw [if_pos hmn, if_pos hm, if_pos hmn]
    rfl
  · rw [if_neg hmn, if_neg hmn]

/-- Without numbers, every node counts as zero. -/
theorem numberOf_replicate (size n : Nat) : numberOf (Array.replicate size 0) n = 0 := by
  unfold numberOf
  rw [Array.getElem?_replicate]
  split <;> rfl

/-- Nodes are given the numbers from `k + 1` on. -/
theorem numberOf_foldl {l : List Nat} (hnodup : l.Nodup) {number : Array Nat}
    (hl : ∀ n ∈ l, n < number.size) (k n : Nat) :
    numberOf ((l.zipIdx k).foldl (fun number (n, i) => number.setIfInBounds n (i + 1)) number) n =
      if n ∈ l then k + l.idxOf n + 1 else numberOf number n := by
  induction l generalizing number k with
  | nil => rfl
  | cons m l ih =>
    obtain ⟨hnot, hnodup⟩ := List.nodup_cons.1 hnodup
    have hm : m < number.size := hl m (List.mem_cons_self ..)
    rw [List.zipIdx_cons, List.foldl_cons, ih hnodup fun x hx => by
      rw [Array.size_setIfInBounds]
      exact hl x (List.mem_cons_of_mem _ hx)]
    by_cases hmn : m = n
    · subst hmn
      rw [if_neg hnot, numberOf_set hm, if_pos rfl, if_pos (List.mem_cons_self ..),
        List.idxOf_cons_self, Nat.add_zero]
    · have hmem : n ∈ m :: l ↔ n ∈ l := by simp [Ne.symm hmn]
      by_cases hn : n ∈ l
      · rw [if_pos hn, if_pos (hmem.2 hn), Adjacency.idxOf_cons_of_ne l hmn]
        omega
      · rw [if_neg hn, if_neg (mt hmem.1 hn), numberOf_set hm, if_neg hmn]

/-- The number of a node in a graph: its place in reverse post order, from one, or zero. -/
def numberIn (g : Graph) (n : Nat) : Nat :=
  numberOf (numbering g.size g.reversePostOrder) n

variable {g : Graph} {idom : Array (Option Nat)} {a b c m n q : Nat}

/-- The number of a node is one more than its place in reverse post order. -/
theorem numberIn_eq (g : Graph) (n : Nat) :
    numberIn g n = if n ∈ g.reversePostOrder then g.reversePostOrder.idxOf n + 1 else 0 := by
  rw [numberIn, numbering, numberOf_foldl g.nodup_reversePostOrder fun m hm => by
    rw [Array.size_replicate]
    exact (Graph.mem_reversePostOrder.1 hm).lt_size]
  rw [numberOf_replicate, Nat.zero_add]

/-- A node that control can get to has a number above zero. -/
theorem numberIn_of_reaches (hn : g.Reaches n) :
    numberIn g n = g.reversePostOrder.idxOf n + 1 := by
  rw [numberIn_eq, if_pos (Graph.mem_reversePostOrder.2 hn)]

/-- Zero is the number of the nodes that control cannot get to. -/
theorem numberIn_ne_zero_iff : numberIn g n ≠ 0 ↔ g.Reaches n := by
  rw [numberIn_eq, ← Graph.mem_reversePostOrder]
  split
  next hn => exact iff_of_true (Nat.succ_ne_zero _) hn
  next hn => exact iff_of_false (not_not_intro rfl) hn

/-- No two nodes that control can get to share a number. -/
theorem numberIn_inj (hm : g.Reaches m) (hn : g.Reaches n) (h : numberIn g m = numberIn g n) :
    m = n := by
  rw [numberIn_of_reaches hm, numberIn_of_reaches hn] at h
  have hidx : g.reversePostOrder.idxOf m = g.reversePostOrder.idxOf n := by omega
  have hmlt := List.idxOf_lt_length_of_mem (Graph.mem_reversePostOrder.2 hm)
  have hnlt := List.idxOf_lt_length_of_mem (Graph.mem_reversePostOrder.2 hn)
  rw [← List.getElem_idxOf hmlt, ← List.getElem_idxOf hnlt]
  simp only [hidx]

/-- The entry comes first. -/
theorem numberIn_entry {e : Nat} (he : g.entry = some e) : numberIn g e = 1 := by
  rw [numberIn_of_reaches (Graph.reaches_entry he)]
  cases horder : g.reversePostOrder with
  | nil =>
    have hhead := g.head?_reversePostOrder
    rw [horder, he] at hhead
    cases hhead
  | cons x l =>
    have hhead := g.head?_reversePostOrder
    rw [horder, he] at hhead
    obtain rfl : x = e := Option.some.inj hhead
    rw [List.idxOf_cons_self]

/-- No number is less than that of the entry but that of a node control cannot get to. -/
theorem not_entry_of_numberIn_lt (hm : g.Reaches m) (h : numberIn g m < numberIn g n) :
    g.entry ≠ some n := by
  intro he
  rw [numberIn_entry he, numberIn_of_reaches hm] at h
  omega

/-- A dominator other than the node itself has a smaller number. -/
theorem numberIn_lt_of_dominates (h : g.Dominates m n) (hn : g.Reaches n) (hmn : m ≠ n) :
    numberIn g m < numberIn g n := by
  rw [numberIn_of_reaches hn, numberIn_of_reaches (h.reaches hn)]
  exact Nat.succ_lt_succ (h.idxOf_lt hn hmn)

/-- A dominator has no greater number than what it dominates. -/
theorem numberIn_le_of_dominates (h : g.Dominates m n) (hn : g.Reaches n) :
    numberIn g m ≤ numberIn g n := by
  by_cases hmn : m = n
  · exact Nat.le_of_eq (congrArg _ hmn)
  · exact Nat.le_of_lt (numberIn_lt_of_dominates h hn hmn)

/-! ## Links between two steps -/

/-- The links as they stand between two steps of a pass. -/
structure Links (g : Graph) (idom : Array (Option Nat)) : Prop where
  size_eq : idom.size = g.size
  entry_link : ∀ e, g.entry = some e → linkOf idom e = some e
  reaches : ∀ n u, linkOf idom n = some u → g.Reaches n
  linked : ∀ n u, linkOf idom n = some u → Linked idom u
  number_lt : ∀ n u, linkOf idom n = some u → g.entry ≠ some n → numberIn g u < numberIn g n
  /-- No dominator is skipped. -/
  keeps : ∀ n u, linkOf idom n = some u → ∀ d, d ≠ n → g.Dominates d n → g.Dominates d u

/-- `c` is an ancestor of two nodes, and their common dominators dominate it. -/
structure Common (g : Graph) (idom : Array (Option Nat)) (a b c : Nat) : Prop where
  left : Ancestor idom c a
  right : Ancestor idom c b
  dominates : ∀ d, g.Dominates d a → g.Dominates d b → g.Dominates d c

/-- The same of any number of nodes. -/
structure Meets (g : Graph) (idom : Array (Option Nat)) (nodes : Nat → Prop) (c : Nat) : Prop where
  ancestor : ∀ q, nodes q → Ancestor idom c q
  dominates : ∀ d, (∀ q, nodes q → g.Dominates d q) → g.Dominates d c

theorem Common.symm (h : Common g idom a b c) : Common g idom b a c :=
  ⟨h.right, h.left, fun d hdb hda => h.dominates d hda hdb⟩

/-- A common ancestor of a link is one of the node that has the link. -/
theorem Common.up {u : Nat} (h : Common g idom u b c) (hu : linkOf idom a = some u)
    (hdom : ∀ d, g.Dominates d a → g.Dominates d b → g.Dominates d u) : Common g idom a b c where
  left := .up hu h.left
  right := h.right
  dominates d hda hdb := h.dominates d (hdom d hda hdb) hdb

namespace Links

variable (h : Links g idom)
include h

/-- Nothing is above the entry. -/
theorem ancestor_entry {e : Nat} (he : g.entry = some e) (ha : Ancestor idom a e) : a = e := by
  induction ha with
  | refl => rfl
  | @up b c hlink _ ih =>
    rw [h.entry_link b he] at hlink
    obtain rfl : b = c := Option.some.inj hlink
    exact ih he

/-- An ancestor has no greater number than the nodes below it. -/
theorem numberIn_le (ha : Ancestor idom a b) : numberIn g a ≤ numberIn g b := by
  induction ha with
  | refl => exact Nat.le_refl _
  | @up b c hlink _ ih =>
    by_cases he : g.entry = some b
    · rw [h.entry_link b he] at hlink
      exact Option.some.inj hlink ▸ ih
    · exact Nat.le_trans ih (Nat.le_of_lt (h.number_lt b c hlink he))

/-- Only nodes that control can get to are linked. -/
theorem reaches_of_linked (hn : Linked idom n) : g.Reaches n := by
  obtain ⟨u, hu⟩ := hn
  exact h.reaches n u hu

/-- The links lead to the entry. -/
theorem rooted {e : Nat} (he : g.entry = some e) :
    Rooted idom (numbering g.size g.reversePostOrder) e where
  entry_link := h.entry_link e he
  linked n u hu _ := h.linked n u hu
  number_lt n u hu hn :=
    h.number_lt n u hu fun hentry => hn (Option.some.inj (hentry.symm.trans he))
  number_inj _ _ hm hn := numberIn_inj (h.reaches_of_linked hm) (h.reaches_of_linked hn)

/-- If any node is linked, the links lead to the entry. -/
theorem exists_rooted (hn : Linked idom n) :
    ∃ e, Rooted idom (numbering g.size g.reversePostOrder) e := by
  obtain ⟨-, e, he, -⟩ := h.reaches_of_linked hn
  exact ⟨e, h.rooted he⟩

/-- The ancestors of a linked node are linked. -/
theorem linked_of_ancestor (hb : Linked idom b) (ha : Ancestor idom a b) : Linked idom a := by
  obtain ⟨e, hrooted⟩ := h.exists_rooted hb
  exact hrooted.linked_of_ancestor hb ha

/-- Two walks up from linked nodes meet where the bounded recursion says. -/
theorem walksMeet_nearestCommon (ha : Linked idom a) (hb : Linked idom b) :
    WalksMeet idom (numbering g.size g.reversePostOrder)
      (nearestCommon idom (numbering g.size g.reversePostOrder) a b) a b := by
  obtain ⟨e, hrooted⟩ := h.exists_rooted ha
  exact hrooted.walksMeet_nearestCommon ha hb

/-- Of two linked nodes, the one with the greater number can go on to its link, and no dominator of
both is left behind. -/
theorem step_up (ha : Linked idom a) (hb : Linked idom b) (hlt : numberIn g b < numberIn g a) :
    ∃ u, linkOf idom a = some u ∧ Linked idom u ∧
      ∀ d, g.Dominates d a → g.Dominates d b → g.Dominates d u := by
  obtain ⟨u, hu⟩ := ha
  refine ⟨u, hu, h.linked a u hu, fun d hda hdb => h.keeps a u hu d ?_ hda⟩
  -- What dominates the node with the smaller number is not the other one.
  rintro rfl
  have hle := numberIn_le_of_dominates hdb (h.reaches_of_linked hb)
  omega

/-- Where two walks meet is an ancestor of the nodes they set out from, below which no dominator of
both is skipped. -/
theorem common_of_walksMeet (ha : Linked idom a) (hb : Linked idom b)
    (hmeet : WalksMeet idom (numbering g.size g.reversePostOrder) c a b) :
    Common g idom a b c := by
  induction hmeet with
  | met => exact ⟨.refl, .refl, fun d hd _ => hd⟩
  | left hlt hup _ ih =>
    obtain ⟨u, hu, hlinked, hdom⟩ := h.step_up ha hb hlt
    obtain rfl := Option.some.inj (hup.symm.trans hu)
    exact (ih hlinked hb).up hup hdom
  | right hlt hup _ ih =>
    obtain ⟨u, hu, hlinked, hdom⟩ := h.step_up hb ha hlt
    obtain rfl := Option.some.inj (hup.symm.trans hu)
    exact ((ih ha hlinked).symm.up hup hdom).symm

/-- Two linked nodes have an ancestor in common, and the walk finds it. -/
theorem common_nearestCommon (ha : Linked idom a) (hb : Linked idom b) :
    Common g idom a b (nearestCommon idom (numbering g.size g.reversePostOrder) a b) :=
  h.common_of_walksMeet ha hb (h.walksMeet_nearestCommon ha hb)

/-- Meeting points of linked nodes are linked. -/
theorem linked_foldl {later : List Nat} (hlater : ∀ q ∈ later, Linked idom q)
    (hc : Linked idom c) :
    Linked idom (later.foldl (nearestCommon idom (numbering g.size g.reversePostOrder)) c) := by
  induction later generalizing c with
  | nil => exact hc
  | cons q later ih =>
    have hcommon := h.common_nearestCommon hc (hlater q (List.mem_cons_self ..))
    exact ih (fun r hr => hlater r (List.mem_cons_of_mem _ hr))
      (h.linked_of_ancestor hc hcommon.left)

/-- The meeting point moves up from node to node of a list. -/
theorem meets_foldl {seen later : List Nat} (hlater : ∀ q ∈ later, Linked idom q)
    (hc : Linked idom c) (hseen : Meets g idom (· ∈ seen) c) :
    Meets g idom (· ∈ seen ++ later)
      (later.foldl (nearestCommon idom (numbering g.size g.reversePostOrder)) c) := by
  induction later generalizing seen c with
  | nil => rwa [List.append_nil]
  | cons q later ih =>
    have hcommon := h.common_nearestCommon hc (hlater q (List.mem_cons_self ..))
    rw [List.append_cons, List.foldl_cons]
    refine ih (fun r hr => hlater r (List.mem_cons_of_mem _ hr))
      (h.linked_of_ancestor hc hcommon.left) ⟨?_, ?_⟩
    · intro r hr
      rcases List.mem_append.1 hr with hr | hr
      · exact hcommon.left.trans (hseen.ancestor r hr)
      · exact List.mem_singleton.1 hr ▸ hcommon.right
    · intro d hd
      have hq := hd q (List.mem_append_right _ (List.mem_singleton_self q))
      exact hcommon.dominates d
        (hseen.dominates d fun r hr => hd r (List.mem_append_left _ hr)) hq

/-- A node with a linked predecessor has a candidate, where all linked predecessors meet. -/
theorem exists_candidate (hq : n ∈ g.succ q) (hlinked : Linked idom q) :
    ∃ c, candidate? g (numbering g.size g.reversePostOrder) idom n = some c ∧
      Meets g idom (fun r => n ∈ g.succ r ∧ Linked idom r) c := by
  have hmem : ∀ r, r ∈ (g.pred n).filter (fun q => (linkOf idom q).isSome) ↔
      n ∈ g.succ r ∧ Linked idom r := fun r => by
    rw [List.mem_filter, Option.isSome_iff_exists, Graph.mem_pred, Linked]
  simp only [← hmem]
  unfold candidate?
  split
  next hnil =>
    have hin := (hmem q).2 ⟨hq, hlinked⟩
    rw [hnil] at hin
    cases hin
  next r later hcons =>
    rw [hcons] at hmem ⊢
    have hfirst : Meets g idom (· ∈ [r]) r :=
      ⟨fun s hs => List.mem_singleton.1 hs ▸ .refl, fun d hd => hd r (List.mem_singleton_self r)⟩
    refine ⟨_, rfl, h.meets_foldl ?_ ?_ hfirst⟩
    · intro s hs
      exact ((hmem s).1 (List.mem_cons_of_mem _ hs)).2
    · exact ((hmem r).1 (List.mem_cons_self ..)).2

end Links

end DefiniteAssignment.DominatorTree
