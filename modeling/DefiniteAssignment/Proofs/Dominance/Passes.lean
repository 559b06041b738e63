import DefiniteAssignment.Proofs.Dominance.Links
/-!
# Passes over the links

A pass gives each node in turn the place where its linked predecessors meet. The nodes before it in
the order have their links by then, one of its predecessors among them, so that the first pass links
all nodes, and `Links` is kept by each step (`Links.relink`) and so by a pass (`Links.pass`).

A pass that changes nothing has found each link where it already was. Then the link of a node is an
ancestor of all its predecessors and not only of those that had a link at the time, and no path to a
node gets round an ancestor of it:

> `Settled.ancestor_iff`: the ancestors of a node are its dominators.
-/

namespace DefiniteAssignment.DominatorTree

variable {g : Graph} {idom : Array (Option Nat)} {m n : Nat}

theorem linkOf_set (hn : n < idom.size) (v : Option Nat) (m : Nat) :
    linkOf (idom.setIfInBounds n v) m = if m = n then v else linkOf idom m := by
  unfold linkOf
  rw [Array.getElem?_setIfInBounds]
  by_cases hmn : m = n
  · rw [if_pos hmn.symm, if_pos hn, if_pos hmn]
    rfl
  · rw [if_neg (Ne.symm hmn), if_neg hmn]

theorem linked_set (hn : n < idom.size) (c : Nat) (h : Linked idom m) :
    Linked (idom.setIfInBounds n (some c)) m := by
  obtain ⟨u, hu⟩ := h
  by_cases hmn : m = n
  · exact ⟨c, by rw [linkOf_set hn, if_pos hmn]⟩
  · exact ⟨u, by rw [linkOf_set hn, if_neg hmn, hu]⟩

/-- A node may be linked to where its linked predecessors meet, if one of them comes before it. -/
theorem Links.set_candidate (h : Links g idom) (hn : g.Reaches n) (hne : g.entry ≠ some n)
    {c q : Nat} (hq : n ∈ g.succ q) (hlinked : Linked idom q) (hlt : numberIn g q < numberIn g n)
    (hc : Meets g idom (fun r => n ∈ g.succ r ∧ Linked idom r) c) :
    Links g (idom.setIfInBounds n (some c)) := by
  have hsize : n < idom.size := h.size_eq ▸ hn.lt_size
  have hcq : Ancestor idom c q := hc.ancestor q ⟨hq, hlinked⟩
  have hnew : ∀ m u, linkOf (idom.setIfInBounds n (some c)) m = some u →
      m = n ∧ u = c ∨ linkOf idom m = some u := by
    intro m u hu
    rw [linkOf_set hsize] at hu
    by_cases hmn : m = n
    · rw [if_pos hmn] at hu
      exact .inl ⟨hmn, (Option.some.inj hu).symm⟩
    · rw [if_neg hmn] at hu
      exact .inr hu
  refine ⟨?_, ?_, ?_, ?_, ?_, ?_⟩
  · rw [Array.size_setIfInBounds, h.size_eq]
  · -- entry_link
    intro e he
    have hen : e ≠ n := fun hen => hne (hen ▸ he)
    rw [linkOf_set hsize, if_neg hen, h.entry_link e he]
  · -- reaches
    intro m u hu
    rcases hnew m u hu with ⟨rfl, -⟩ | hu
    · exact hn
    · exact h.reaches m u hu
  · -- linked
    intro m u hu
    rcases hnew m u hu with ⟨-, rfl⟩ | hu
    · exact linked_set hsize u (h.linked_of_ancestor hlinked hcq)
    · exact linked_set hsize c (h.linked m u hu)
  · -- number_lt
    intro m u hu
    rcases hnew m u hu with ⟨rfl, rfl⟩ | hu
    · intro _
      exact Nat.lt_of_le_of_lt (h.numberIn_le hcq) hlt
    · exact h.number_lt m u hu
  · -- keeps
    intro m u hu
    rcases hnew m u hu with ⟨rfl, rfl⟩ | hu
    · intro d hd hdom
      refine hc.dominates d ?_
      intro r hr
      obtain ⟨hedge, hrlinked⟩ := hr
      exact hdom.pred hd (Graph.mem_reachablePred.2 ⟨hedge, h.reaches_of_linked hrlinked⟩)
    · exact h.keeps m u hu

/-- If the nodes before it are linked, a step links a node and keeps the other links. -/
theorem Links.relink (h : Links g idom) (hn : g.Reaches n) (hne : g.entry ≠ some n)
    (hbefore : ∀ q, g.Reaches q → numberIn g q < numberIn g n → Linked idom q) (changed : Bool) :
    let linked := (relink g (numbering g.size g.reversePostOrder) (idom, changed) n).1
    Links g linked ∧ Linked linked n ∧ ∀ m, Linked idom m → Linked linked m := by
  obtain ⟨q, hqr, hq, hidx⟩ := Graph.exists_pred_before hn hne
  have hlt : numberIn g q < numberIn g n := by
    rw [numberIn_of_reaches hqr, numberIn_of_reaches hn]
    omega
  have hlinked := hbefore q hqr hlt
  obtain ⟨c, hcand, hc⟩ := h.exists_candidate hq hlinked
  have hsize : n < idom.size := h.size_eq ▸ hn.lt_size
  unfold DominatorTree.relink
  simp only [hcand]
  split
  next hsame => exact ⟨h, ⟨c, hsame⟩, fun m hm => hm⟩
  next =>
    refine ⟨h.set_candidate hn hne hq hlinked hlt hc, ⟨c, ?_⟩, fun m hm => linked_set hsize c hm⟩
    rw [linkOf_set hsize, if_pos rfl]

/-- A part of a pass, over nodes that stand behind `done` in the order, links these nodes. -/
theorem Links.pass_part {done part later : List Nat} (h : Links g idom)
    (horder : g.reversePostOrder = done ++ part ++ later)
    (hpart : ∀ n ∈ part, g.entry ≠ some n) (hdone : ∀ n ∈ done, Linked idom n) (changed : Bool) :
    let linked := (part.foldl (DominatorTree.relink g (numbering g.size g.reversePostOrder))
      (idom, changed)).1
    Links g linked ∧ ∀ n ∈ done ++ part, Linked linked n := by
  induction part generalizing done idom changed with
  | nil => exact ⟨h, fun n hn => hdone n (by rwa [List.append_nil] at hn)⟩
  | cons n part ih =>
    have horder' : g.reversePostOrder = (done ++ [n]) ++ part ++ later := by
      rw [horder, List.append_cons done n part]
    have hn : g.Reaches n := by
      rw [← Graph.mem_reversePostOrder, horder]
      simp
    have hbefore : ∀ q, g.Reaches q → numberIn g q < numberIn g n → Linked idom q := by
      intro q hq hlt
      rw [numberIn_of_reaches hq, numberIn_of_reaches hn, horder, List.append_assoc,
        List.cons_append] at hlt
      exact hdone q (Adjacency.mem_of_idxOf_lt (Nat.lt_of_succ_lt_succ hlt))
    obtain ⟨hlinks, hnlinked, hkept⟩ :=
      h.relink hn (hpart n (List.mem_cons_self ..)) hbefore changed
    rw [List.append_cons]
    refine ih hlinks horder' (fun m hm => hpart m (List.mem_cons_of_mem _ hm)) ?_ _
    intro m hm
    rcases List.mem_append.1 hm with hm | hm
    · exact hkept m (hdone m hm)
    · exact List.mem_singleton.1 hm ▸ hnlinked

/-- A pass over the nodes from a place in the order on links those that were not linked. -/
theorem Links.pass {done rest : List Nat} (h : Links g idom)
    (horder : g.reversePostOrder = done ++ rest) (hrest : ∀ n ∈ rest, g.entry ≠ some n)
    (hdone : ∀ n ∈ done, Linked idom n) (changed : Bool) :
    let linked := (rest.foldl (DominatorTree.relink g (numbering g.size g.reversePostOrder))
      (idom, changed)).1
    Links g linked ∧ ∀ n, g.Reaches n → Linked linked n := by
  have horder' : g.reversePostOrder = done ++ rest ++ [] := by rw [List.append_nil, horder]
  obtain ⟨hlinks, hall⟩ := h.pass_part horder' hrest hdone changed
  exact ⟨hlinks, fun n hn => hall n (horder ▸ Graph.mem_reversePostOrder.2 hn)⟩

/-! ## The last pass -/

/-- A step that does not set the flag changes nothing. -/
theorem relink_of_unchanged {number : Array Nat} {pass : Array (Option Nat) × Bool}
    (h : (relink g number pass n).2 = false) : relink g number pass n = pass ∧
      ∀ c, candidate? g number pass.1 n = some c → linkOf pass.1 n = some c := by
  unfold relink at h ⊢
  cases hcand : candidate? g number pass.1 n with
  | none => exact ⟨rfl, fun c hc => by cases hc⟩
  | some d =>
    simp only [hcand] at h ⊢
    by_cases hsame : linkOf pass.1 n = some d
    · exact ⟨if_pos hsame, fun c hc => hsame.trans hc⟩
    · rw [if_neg hsame] at h
      cases h

/-- A pass that does not set the flag has found all links where they were. -/
theorem foldl_relink_of_unchanged {number : Array Nat} {nodes : List Nat}
    {pass : Array (Option Nat) × Bool} (h : (nodes.foldl (relink g number) pass).2 = false) :
    nodes.foldl (relink g number) pass = pass ∧ pass.2 = false ∧
      ∀ n ∈ nodes, ∀ c, candidate? g number pass.1 n = some c → linkOf pass.1 n = some c := by
  induction nodes generalizing pass with
  | nil => exact ⟨rfl, h, fun n hn => by cases hn⟩
  | cons n nodes ih =>
    rw [List.foldl_cons] at h ⊢
    obtain ⟨hfold, hflag, hnodes⟩ := ih h
    obtain ⟨hstep, hn⟩ := relink_of_unchanged hflag
    rw [hstep] at hfold hflag hnodes ⊢
    exact ⟨hfold, hflag, List.forall_mem_cons.2 ⟨hn, hnodes⟩⟩

/-- The links after a pass that has changed nothing. -/
structure Settled (g : Graph) (idom : Array (Option Nat)) : Prop extends Links g idom where
  all_linked : ∀ n, g.Reaches n → Linked idom n
  ancestor_pred : ∀ n u, g.entry ≠ some n → linkOf idom n = some u →
    ∀ q ∈ g.reachablePred n, Ancestor idom u q

/-- A list without repetition that begins with the entry holds it nowhere else. -/
theorem ne_entry_of_mem_tail {e : Nat} {nodes : List Nat}
    (horder : g.reversePostOrder = e :: nodes) (hn : n ∈ nodes) : g.entry ≠ some n := by
  have hnodup := g.nodup_reversePostOrder
  have hhead := g.head?_reversePostOrder
  rw [horder] at hnodup hhead
  rw [← hhead]
  intro hen
  exact (List.nodup_cons.1 hnodup).1 (Option.some.inj hen ▸ hn)

theorem Links.settled (h : Links g idom) {e : Nat} {nodes : List Nat}
    (horder : g.reversePostOrder = e :: nodes) (hall : ∀ n, g.Reaches n → Linked idom n)
    (hsame : ∀ n ∈ nodes, ∀ c,
      candidate? g (numbering g.size g.reversePostOrder) idom n = some c →
        linkOf idom n = some c) : Settled g idom where
  toLinks := h
  all_linked := hall
  ancestor_pred n u hne hu q hq := by
    obtain ⟨hedge, hqr⟩ := Graph.mem_reachablePred.1 hq
    obtain ⟨c, hcand, hc⟩ := h.exists_candidate hedge (hall q hqr)
    have hn : n ∈ nodes := by
      have hmem : n ∈ e :: nodes := horder ▸ Graph.mem_reversePostOrder.2 (h.reaches n u hu)
      rcases List.mem_cons.1 hmem with rfl | hn
      · have hhead := g.head?_reversePostOrder
        rw [horder] at hhead
        exact absurd hhead.symm hne
      · exact hn
    obtain rfl : u = c := Option.some.inj (hu.symm.trans (hsame n hn c hcand))
    exact hc.ancestor q ⟨hedge, hall q hqr⟩

/-- If passes end, they end with links that a pass does not change. -/
theorem Links.settle (h : Links g idom) {e : Nat} {nodes : List Nat}
    (horder : g.reversePostOrder = e :: nodes) {limit fuel passes : Nat}
    {settled : Array (Option Nat)}
    (hok : settle g (numbering g.size g.reversePostOrder) nodes limit fuel idom =
      .ok (settled, passes)) : Settled g settled := by
  have hentry : g.entry = some e := by rw [← g.head?_reversePostOrder, horder, List.head?_cons]
  have horder' : g.reversePostOrder = [e] ++ nodes := horder
  induction fuel generalizing idom with
  | zero => cases hok
  | succ fuel ih =>
    obtain ⟨hlinks, hall⟩ := h.pass horder'
      (fun n hn => ne_entry_of_mem_tail horder hn)
      (fun n hn => ⟨e, List.mem_singleton.1 hn ▸ h.entry_link e hentry⟩) false
    unfold DominatorTree.settle at hok
    generalize hpass : nodes.foldl _ (idom, false) = pass at hok hlinks hall
    obtain ⟨linked, changed⟩ := pass
    cases changed with
    | true => exact ih hlinks hok
    | false =>
      have hflag := congrArg Prod.snd hpass
      obtain ⟨hfold, -, hsame⟩ := foldl_relink_of_unchanged hflag
      obtain rfl : linked = idom := (Prod.mk.inj (hpass.symm.trans hfold)).1
      obtain rfl : linked = settled := (Prod.mk.inj (Except.ok.inj hok)).1
      exact hlinks.settled horder hall hsame

namespace Settled

variable (h : Settled g idom)
include h

/-- No path gets round an ancestor of its end. -/
theorem dominates_of_ancestor (ha : Ancestor idom m n) : g.Dominates m n := by
  intro l hpath
  obtain ⟨e, he, hl⟩ := hpath
  induction hl with
  | nil => exact List.mem_singleton.2 (h.ancestor_entry he ha)
  | @snoc l v w hl hedge ih =>
    by_cases hw : g.entry = some w
    · exact List.mem_append_right _ (List.mem_singleton.2 (h.ancestor_entry hw ha))
    · cases ha with
      | refl => exact List.mem_append_right _ (List.mem_singleton_self m)
      | @up _ u hu ha =>
        have hv : v ∈ g.reachablePred w := Graph.mem_reachablePred.2 ⟨hedge, l, e, he, hl⟩
        exact List.mem_append_left _ (ih (ha.trans (h.ancestor_pred w u hw hu v hv)))

/-- No link skips a dominator. -/
theorem ancestor_of_dominates (hn : g.Reaches n) (hm : g.Dominates m n) : Ancestor idom m n := by
  -- The induction is on the number of the node; a link leads to a smaller one.
  induction hk : numberIn g n using Nat.strongRecOn generalizing n with
  | _ k ih =>
    by_cases hmn : m = n
    · exact hmn ▸ .refl
    · have hne : g.entry ≠ some n := fun he => hmn (hm.eq_entry he)
      obtain ⟨u, hu⟩ := h.all_linked n hn
      obtain ⟨w, hw⟩ := h.linked n u hu
      have hlt := h.number_lt n u hu hne
      exact .up hu (ih _ (hk ▸ hlt) (h.reaches u w hw) (h.keeps n u hu m hmn hm) rfl)

/-- The ancestors of a node are its dominators. -/
theorem ancestor_iff (hn : g.Reaches n) : Ancestor idom m n ↔ g.Dominates m n :=
  ⟨h.dominates_of_ancestor, h.ancestor_of_dominates hn⟩

end Settled

end DefiniteAssignment.DominatorTree
