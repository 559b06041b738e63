import DefiniteAssignment.Proofs.Dominance.Tree
import DefiniteAssignment.Proofs.Graph.Counts
/-!
# Passes settle

How many passes a dominator tree takes is a question of how often a path goes back in the order,
that is, follows an edge to a node that does not come later. After `k` passes the ancestors of a
node lie on all paths to it that go back less often than `k` times, and within the next pass those
of the nodes that have been linked already lie on all paths that go back at most `k` times
(`Accounts`). A link that is written keeps this for its own node, since the link is an ancestor of
the node before on the path; and it keeps it for every node below, since the paths to these pass the
node whose link it is (`Accounts.set_candidate`).

A path that passes no node twice goes back less often than it has nodes, the edge out of the entry
not being one of those that go back. So after as many passes as there are nodes that control can get
to, but for one, all ancestors are dominators and the next pass changes nothing:

> `Links.exists_settle`

So a tree is found if the limit allows that many passes (`exists_build`), and otherwise the limit is
the only reason that none is (`eq_divergence_of_ofGraph`).
-/

namespace DefiniteAssignment.DominatorTree

variable {g : Graph} {idom : Array (Option Nat)} {a c k m n : Nat} {l : List Nat}

/-! ## Paths that go back -/

/-- The nodes of `l`, followed by `n`, are those of a path from the entry that goes back in the
order at most `k` times. -/
inductive GoesBack (g : Graph) : Nat → List Nat → Nat → Prop
  | entry {k e : Nat} : g.entry = some e → GoesBack g k [] e
  | forth {k q n : Nat} {l : List Nat} : GoesBack g k l q → n ∈ g.succ q →
      numberIn g q < numberIn g n → GoesBack g k (l ++ [q]) n
  | back {k q n : Nat} {l : List Nat} : GoesBack g k l q → n ∈ g.succ q →
      GoesBack g (k + 1) (l ++ [q]) n

namespace GoesBack

theorem entryPath (h : GoesBack g k l n) : g.EntryPath l n := by
  induction h with
  | entry he => exact ⟨_, he, .nil⟩
  | forth _ hedge _ ih => exact ih.snoc hedge
  | back _ hedge ih => exact ih.snoc hedge

theorem succ (h : GoesBack g k l n) : GoesBack g (k + 1) l n := by
  induction h with
  | entry he => exact .entry he
  | forth _ hedge hlt ih => exact .forth ih hedge hlt
  | back _ hedge ih => exact .back ih hedge

/-- The path to a node on the way goes back no more often. -/
theorem exists_of_mem {d : Nat} (h : GoesBack g k l n) (hd : d ∈ l) :
    ∃ m, GoesBack g k m d ∧ m ++ [d] ⊆ l := by
  induction h with
  | entry => cases hd
  | @forth k q n l hl _ _ ih =>
    rcases List.mem_append.1 hd with hd | hd
    · obtain ⟨m, hm, hsub⟩ := ih hd
      exact ⟨m, hm, List.subset_append_of_subset_left _ hsub⟩
    · rw [List.mem_singleton.1 hd]
      exact ⟨l, hl, List.Subset.refl _⟩
  | @back k q n l hl _ ih =>
    rcases List.mem_append.1 hd with hd | hd
    · obtain ⟨m, hm, hsub⟩ := ih hd
      exact ⟨m, hm.succ, List.subset_append_of_subset_left _ hsub⟩
    · rw [List.mem_singleton.1 hd]
      exact ⟨l, hl.succ, List.Subset.refl _⟩

end GoesBack

/-- A path that passes no node twice does not go back with its first edge. -/
theorem goesBack_of_nodup (h : g.EntryPath l n) (hnodup : (l ++ [n]).Nodup) :
    GoesBack g (l.length - 1) l n := by
  obtain ⟨e, he, hw⟩ := h
  induction hw with
  | nil => exact .entry he
  | @snoc l q v hw hedge ih =>
    have hq := ih (hnodup.sublist (List.sublist_append_left _ _))
    rw [List.length_append, List.length_singleton, Nat.add_sub_cancel]
    cases hw with
    | nil =>
      have hne : g.entry ≠ some v := by
        intro hv
        rw [he] at hv
        simp [Option.some.inj hv] at hnodup
      have hv : g.Reaches v := (Graph.reaches_entry he).succ hedge
      obtain ⟨u, -, -, hlt⟩ := Graph.exists_pred_before hv hne
      refine .forth hq hedge ?_
      rw [numberIn_entry he, numberIn_of_reaches hv]
      omega
    | @snoc l u =>
      rw [List.length_append, List.length_singleton, Nat.add_sub_cancel] at hq
      rw [List.length_append, List.length_singleton]
      exact .back hq hedge

/-! ## What a pass accounts for -/

/-- The ancestors of a node lie on all paths to it that go back less often than `k` times and, if
the node is one of `done`, on those that go back `k` times. -/
structure Accounts (g : Graph) (idom : Array (Option Nat)) (done : List Nat) (k : Nat) : Prop where
  linked : ∀ n, g.Reaches n → n ∈ done ∨ 0 < k → Linked idom n
  lies_on : ∀ n j l, GoesBack g j l n → j < k ∨ j = k ∧ n ∈ done →
    ∀ a, Ancestor idom a n → a ∈ l ++ [n]

/-- A new link changes the ancestors of the nodes below it only. -/
theorem Ancestor.of_set (hn : n < idom.size) (h : Ancestor (idom.setIfInBounds n (some c)) a m) :
    Ancestor idom a m ∨ Ancestor idom n m ∧ Ancestor (idom.setIfInBounds n (some c)) a n := by
  induction h with
  | refl => exact .inl .refl
  | @up b d hlink ha ih =>
    by_cases hbn : b = n
    · subst hbn
      exact .inr ⟨.refl, .up hlink ha⟩
    · have hold : linkOf idom b = some d := by
        rwa [linkOf_set hn, if_neg hbn] at hlink
      rcases ih with ha | ⟨hnd, ha⟩
      · exact .inl (.up hold ha)
      · exact .inr ⟨.up hold hnd, ha⟩

/-- Writing the link that a node has changes nothing. -/
theorem set_of_linkOf_eq (hlink : linkOf idom n = some c) :
    idom.setIfInBounds n (some c) = idom := by
  refine Array.ext_getElem? fun m => ?_
  rw [Array.getElem?_setIfInBounds]
  split
  next hnm =>
    subst hnm
    unfold linkOf at hlink
    cases hn : idom[n]? with
    | none =>
      rw [hn] at hlink
      cases hlink
    | some v =>
      rw [hn, Option.getD_some] at hlink
      rw [if_pos (Array.getElem?_eq_some_iff.1 hn).1, hlink]
  next => rfl

namespace Accounts

variable {done rest : List Nat}

section Candidate

variable (h : Links g idom) (hacc : Accounts g idom done k) (hn : g.Reaches n)
  (hne : g.entry ≠ some n) (hbefore : ∀ q, g.Reaches q → numberIn g q < numberIn g n → q ∈ done)
  (hc : Meets g idom (fun r => n ∈ g.succ r ∧ Linked idom r) c)
include h hacc hn hne hbefore hc

/-- The place where the predecessors of a node meet is not below the node. -/
theorem not_ancestor_candidate : ¬Ancestor idom n c := by
  obtain ⟨q, hq, hedge, hidx⟩ := Graph.exists_pred_before hn hne
  have hlt : numberIn g q < numberIn g n := by
    rw [numberIn_of_reaches hq, numberIn_of_reaches hn]
    omega
  intro hnc
  have hle := h.numberIn_le
    (hnc.trans (hc.ancestor q ⟨hedge, hacc.linked q hq (.inl (hbefore q hq hlt))⟩))
  omega

/-- The new ancestors of a node lie on the paths to it, since they lie on those to the node before
the last edge. -/
theorem lies_on_candidate {j : Nat} (hl : GoesBack g j l n) (hj : j ≤ k)
    (ha : Ancestor (idom.setIfInBounds n (some c)) a n) : a ∈ l ++ [n] := by
  have hsize : n < idom.size := h.size_eq ▸ hn.lt_size
  cases ha with
  | refl => exact List.mem_append_right _ (List.mem_singleton_self _)
  | @up _ d hlink ha =>
    rw [linkOf_set hsize, if_pos rfl] at hlink
    obtain rfl : c = d := Option.some.inj hlink
    have hac : Ancestor idom a c := by
      rcases ha.of_set hsize with ha | ⟨hnc, -⟩
      · exact ha
      · exact absurd hnc (not_ancestor_candidate h hacc hn hne hbefore hc)
    apply List.mem_append_left
    cases hl with
    | entry he => exact absurd he hne
    | @forth _ q _ l hl hedge hlt =>
      have hq : g.Reaches q := ⟨l, hl.entryPath⟩
      have hdone := hbefore q hq hlt
      have hcq := hc.ancestor q ⟨hedge, hacc.linked q hq (.inl hdone)⟩
      have hjk := (Nat.lt_or_eq_of_le hj).imp_right fun hjk => And.intro hjk hdone
      exact hacc.lies_on q _ l hl hjk a (hac.trans hcq)
    | @back j q _ l hl hedge =>
      have hq : g.Reaches q := ⟨l, hl.entryPath⟩
      have hcq := hc.ancestor q ⟨hedge, hacc.linked q hq (.inr (by omega))⟩
      exact hacc.lies_on q j l hl (.inl (by omega)) a (hac.trans hcq)

/-- A new link accounts for the paths to its node. -/
theorem set_candidate : Accounts g (idom.setIfInBounds n (some c)) (done ++ [n]) k := by
  have hsize : n < idom.size := h.size_eq ▸ hn.lt_size
  constructor
  · intro m hm hdone
    by_cases hmn : m = n
    · exact ⟨c, by rw [linkOf_set hsize, if_pos hmn]⟩
    · rw [List.mem_append, List.mem_singleton, or_iff_left hmn] at hdone
      exact linked_set hsize c (hacc.linked m hm hdone)
  · intro m j l hl hj a ha
    by_cases hmn : m = n
    · subst hmn
      exact lies_on_candidate h hacc hn hne hbefore hc hl (by omega) ha
    · rw [List.mem_append, List.mem_singleton, or_iff_left hmn] at hj
      rcases ha.of_set hsize with ha | ⟨hnm, ha⟩
      · exact hacc.lies_on m j l hl hj a ha
      -- The path passes the node with the new link on its way.
      · have hnl : n ∈ l := by
          rcases List.mem_append.1 (hacc.lies_on m j l hl hj n hnm) with hnl | hnl
          · exact hnl
          · exact absurd (List.mem_singleton.1 hnl).symm hmn
        obtain ⟨l', hl', hsub⟩ := hl.exists_of_mem hnl
        exact List.mem_append_left _
          (hsub (lies_on_candidate h hacc hn hne hbefore hc hl' (by omega) ha))

end Candidate

/-- A step of a pass accounts for the paths to its node. -/
theorem relink (h : Links g idom) (hacc : Accounts g idom done k) (hn : g.Reaches n)
    (hne : g.entry ≠ some n) (hbefore : ∀ q, g.Reaches q → numberIn g q < numberIn g n → q ∈ done)
    (changed : Bool) :
    Accounts g (relink g (numbering g.size g.reversePostOrder) (idom, changed) n).1
      (done ++ [n]) k := by
  obtain ⟨q, hq, hedge, hidx⟩ := Graph.exists_pred_before hn hne
  have hlt : numberIn g q < numberIn g n := by
    rw [numberIn_of_reaches hq, numberIn_of_reaches hn]
    omega
  obtain ⟨c, hcand, hc⟩ := h.exists_candidate hedge (hacc.linked q hq (.inl (hbefore q hq hlt)))
  have hset := hacc.set_candidate h hn hne hbefore hc
  unfold DominatorTree.relink
  simp only [hcand]
  split
  next hsame => rwa [set_of_linkOf_eq hsame] at hset
  next => exact hset

/-- A pass accounts for the paths to all nodes. -/
theorem pass (h : Links g idom) (hacc : Accounts g idom done k)
    (horder : g.reversePostOrder = done ++ rest) (hrest : ∀ n ∈ rest, g.entry ≠ some n)
    (changed : Bool) :
    Accounts g (rest.foldl (DominatorTree.relink g (numbering g.size g.reversePostOrder))
      (idom, changed)).1 g.reversePostOrder k := by
  induction rest generalizing done idom changed with
  | nil =>
    rw [List.append_nil] at horder
    exact horder ▸ hacc
  | cons n rest ih =>
    have hn : g.Reaches n := by
      rw [← Graph.mem_reversePostOrder, horder]
      exact List.mem_append_right _ (List.mem_cons_self ..)
    have hne := hrest n (List.mem_cons_self ..)
    have hbefore : ∀ q, g.Reaches q → numberIn g q < numberIn g n → q ∈ done := by
      intro q hq hlt
      rw [numberIn_of_reaches hq, numberIn_of_reaches hn, horder] at hlt
      exact Adjacency.mem_of_idxOf_lt (Nat.lt_of_succ_lt_succ hlt)
    have hlinks := (h.relink hn hne
      (fun q hq hlt => hacc.linked q hq (.inl (hbefore q hq hlt))) changed).1
    have horder' : g.reversePostOrder = (done ++ [n]) ++ rest := by
      rw [horder, List.append_cons]
    exact ih hlinks (hacc.relink h hn hne hbefore changed) horder'
      (fun m hm => hrest m (List.mem_cons_of_mem _ hm)) _

/-- Before the next pass, nothing is known of the paths that go back once more, but at the entry. -/
theorem next {e : Nat} (he : g.entry = some e) (h : Links g idom)
    (hacc : Accounts g idom g.reversePostOrder k) : Accounts g idom [e] (k + 1) where
  linked n hn _ := hacc.linked n hn (.inl (Graph.mem_reversePostOrder.2 hn))
  lies_on n j l hl hj a ha := by
    have hn : n ∈ g.reversePostOrder := Graph.mem_reversePostOrder.2 ⟨l, hl.entryPath⟩
    rcases hj with hj | ⟨-, hne⟩
    · have hjk := (Nat.lt_or_eq_of_le (Nat.le_of_lt_succ hj)).imp_right fun hjk => And.intro hjk hn
      exact hacc.lies_on n j l hl hjk a ha
    · obtain rfl : n = e := List.mem_singleton.1 hne
      rw [h.ancestor_entry he ha]
      exact List.mem_append_right _ (List.mem_singleton_self n)

/-- Before the first pass, only the entry has a link. -/
theorem start {e : Nat} (he : g.entry = some e) (h : Links g idom) : Accounts g idom [e] 0 where
  linked n _ hn := by
    rcases hn with hn | hlt
    · rw [List.mem_singleton.1 hn]
      exact ⟨e, h.entry_link e he⟩
    · omega
  lies_on n j l _ hj a ha := by
    rcases hj with hj | ⟨-, hne⟩
    · omega
    · obtain rfl : n = e := List.mem_singleton.1 hne
      rw [h.ancestor_entry he ha]
      exact List.mem_append_right _ (List.mem_singleton_self n)

/-- When all paths are accounted for that pass no node twice, ancestors are dominators. -/
theorem dominates {e : Nat} (h : Links g idom) (hacc : Accounts g idom [e] k)
    (hk : g.reachableNodes.length ≤ k + 1) (ha : Ancestor idom a n) : g.Dominates a n := by
  intro l hl
  by_cases hne : g.entry = some n
  · rw [h.ancestor_entry hne ha]
    exact List.mem_append_right _ (List.mem_singleton_self n)
  · obtain ⟨m, hm, hnodup, hsub⟩ := hl.exists_nodup_path
    have hlt := hm.length_lt hnodup
    have hpos : 0 < m.length := by
      apply List.length_pos_of_ne_nil
      intro hnil
      obtain ⟨e', he', hw⟩ := hm
      cases hw with
      | nil => exact hne he'
      | snoc => simp at hnil
    exact hsub (hacc.lies_on n _ m (goesBack_of_nodup hm hnodup) (.inl (by omega)) a ha)

end Accounts

/-! ## The last pass -/

/-- Where ancestors are dominators, the predecessors of a node meet at its link. -/
theorem Links.relink_eq_self (h : Links g idom) (hall : ∀ n, g.Reaches n → Linked idom n)
    (hdom : ∀ a n, Ancestor idom a n → g.Dominates a n) (hn : g.Reaches n)
    (hne : g.entry ≠ some n) (changed : Bool) :
    DominatorTree.relink g (numbering g.size g.reversePostOrder) (idom, changed) n =
      (idom, changed) := by
  obtain ⟨u, hu⟩ := hall n hn
  obtain ⟨q, hq, hedge, hidx⟩ := Graph.exists_pred_before hn hne
  obtain ⟨c, hcand, hc⟩ := h.exists_candidate hedge (hall q hq)
  have hun : u ≠ n := by
    intro hun
    have hlt := h.number_lt n u hu hne
    rw [hun] at hlt
    omega
  have hcn : c ≠ n := by
    intro hcn
    have hle := h.numberIn_le (hc.ancestor q ⟨hedge, hall q hq⟩)
    rw [hcn, numberIn_of_reaches hn, numberIn_of_reaches hq] at hle
    omega
  have hcdom : g.Dominates c n := by
    intro l hl
    obtain ⟨e, he, hw⟩ := hl
    cases hw with
    | nil => exact absurd he hne
    | @snoc l r _ hw hr =>
      have hcr := hdom c r (hc.ancestor r ⟨hr, hall r ⟨l, e, he, hw⟩⟩)
      exact List.mem_append_left _ (hcr l ⟨e, he, hw⟩)
  have hcu : g.Dominates c u := h.keeps n u hu c hcn hcdom
  have huc : g.Dominates u c := by
    apply hc.dominates u
    intro r hr
    have hpred := Graph.mem_reachablePred.2 ⟨hr.1, h.reaches_of_linked hr.2⟩
    exact (hdom u n (.up hu .refl)).pred hun hpred
  have hlink : linkOf idom n = some c := huc.antisymm hcu (hcdom.reaches hn) ▸ hu
  unfold DominatorTree.relink
  simp only [hcand]
  rw [if_pos hlink]

theorem Links.foldl_relink_eq_self (h : Links g idom) (hall : ∀ n, g.Reaches n → Linked idom n)
    (hdom : ∀ a n, Ancestor idom a n → g.Dominates a n) {nodes : List Nat}
    (hnodes : ∀ n ∈ nodes, g.Reaches n ∧ g.entry ≠ some n) (changed : Bool) :
    nodes.foldl (DominatorTree.relink g (numbering g.size g.reversePostOrder)) (idom, changed) =
      (idom, changed) := by
  induction nodes with
  | nil => rfl
  | cons n nodes ih =>
    obtain ⟨⟨hn, hne⟩, hnodes⟩ := List.forall_mem_cons.1 hnodes
    rw [List.foldl_cons, h.relink_eq_self hall hdom hn hne changed, ih hnodes]

/-- Passes settle, and there are no more of them than nodes that control can get to. -/
theorem Links.exists_settle (h : Links g idom) {e : Nat} {nodes : List Nat}
    (horder : g.reversePostOrder = e :: nodes) (hacc : Accounts g idom [e] k)
    (hk : k < g.reachableNodes.length) {limit fuel : Nat} (hlimit : limit = k + fuel)
    (hle : g.reachableNodes.length ≤ limit) :
    ∃ settled passes,
      DominatorTree.settle g (numbering g.size g.reversePostOrder) nodes limit fuel idom =
        .ok (settled, passes) ∧ passes ≤ g.reachableNodes.length := by
  have he : g.entry = some e := by rw [← g.head?_reversePostOrder, horder, List.head?_cons]
  have hnodes : ∀ n ∈ nodes, g.Reaches n ∧ g.entry ≠ some n := by
    intro n hn
    refine ⟨?_, ne_entry_of_mem_tail horder hn⟩
    rw [← Graph.mem_reversePostOrder, horder]
    exact List.mem_cons_of_mem e hn
  have horder' : g.reversePostOrder = [e] ++ nodes := horder
  have hlength := g.length_reversePostOrder
  rw [horder, List.length_cons] at hlength
  induction fuel generalizing idom k with
  | zero => omega
  | succ fuel ih =>
    have hrest := fun n hn => (hnodes n hn).2
    have hlinked : ∀ n ∈ [e], Linked idom n := by
      intro n hn
      apply hacc.linked n ?_ (.inl hn)
      exact List.mem_singleton.1 hn ▸ Graph.reaches_entry he
    obtain ⟨hlinks, -⟩ := h.pass horder' hrest hlinked false
    have hnext := (hacc.pass h horder' hrest false).next he hlinks
    unfold DominatorTree.settle
    generalize hpass : nodes.foldl _ (idom, false) = pass at hlinks hnext
    obtain ⟨linked, changed⟩ := pass
    cases changed with
    | false => exact ⟨linked, limit - fuel, rfl, by omega⟩
    | true =>
      refine ih hlinks hnext ?_ (by omega)
      -- Otherwise the pass would have changed nothing.
      by_contra hlast
      have hall : ∀ n, g.Reaches n → Linked idom n := by
        intro n hn
        apply hacc.linked n hn
        by_cases hk0 : k = 0
        · -- There is no node but the entry.
          have hnil : nodes = [] := List.length_eq_zero_iff.1 (by omega)
          left
          rwa [← Graph.mem_reversePostOrder, horder, hnil] at hn
        · exact .inr (Nat.pos_of_ne_zero hk0)
      have hsame := h.foldl_relink_eq_self hall
        (fun a n => hacc.dominates h (by omega)) hnodes false
      rw [hpass] at hsame
      cases hsame

/-! ## Finding a tree -/

/-- A tree is read off the links that passes settle on. -/
theorem build_eq_map {e : Nat} {nodes : List Nat} (horder : g.reversePostOrder = e :: nodes)
    (limit : Nat) :
    build g limit = (settle g (numbering g.size g.reversePostOrder) nodes limit limit
      ((Array.replicate g.size none).setIfInBounds e (some e))).map fun found =>
        (⟨found.1.setIfInBounds e none, numbering g.size g.reversePostOrder, g.reversePostOrder⟩,
          found.2) := by
  unfold build
  simp only [horder]
  cases settle g (numbering g.size (e :: nodes)) nodes limit limit
    ((Array.replicate g.size none).setIfInBounds e (some e)) <;> rfl

/-- A tree is found within as many passes as there are nodes that control can get to. -/
theorem exists_build {limit : Nat} (hlimit : g.reachableNodes.length ≤ limit) :
    ∃ t passes, build g limit = .ok (t, passes) ∧ passes ≤ g.reachableNodes.length := by
  cases horder : g.reversePostOrder with
  | nil =>
    unfold build
    rw [horder]
    exact ⟨_, 0, rfl, Nat.zero_le _⟩
  | cons e nodes =>
    have he : g.entry = some e := by rw [← g.head?_reversePostOrder, horder, List.head?_cons]
    have hlength := g.length_reversePostOrder
    rw [horder, List.length_cons] at hlength
    have hlinks := links_start he
    obtain ⟨settled, passes, hok, hle⟩ := hlinks.exists_settle horder (.start he hlinks)
      (by omega) (Nat.zero_add limit).symm hlimit
    rw [build_eq_map horder, hok]
    exact ⟨_, passes, rfl, hle⟩

/-- Passes that do not settle have been as many as they may be. -/
theorem eq_divergence_of_settle {number : Array Nat} {nodes : List Nat} {limit fuel : Nat}
    {e : AnalysisError} (herror : settle g number nodes limit fuel idom = .error e) :
    e = .divergence limit limit := by
  induction fuel generalizing idom with
  | zero => exact (Except.error.inj herror).symm
  | succ fuel ih =>
    unfold settle at herror
    dsimp only at herror
    split at herror
    next => exact ih herror
    next => cases herror

theorem eq_divergence_of_ofGraph {limit : Nat} {e : AnalysisError}
    (herror : ofGraph g limit = .error e) : e = .divergence limit limit := by
  have hbuild : build g limit = .error e := Flow.eq_error_of_map herror
  cases horder : g.reversePostOrder with
  | nil =>
    unfold build at hbuild
    rw [horder] at hbuild
    cases hbuild
  | cons entry nodes =>
    rw [build_eq_map horder] at hbuild
    exact eq_divergence_of_settle (Flow.eq_error_of_map hbuild)

end DefiniteAssignment.DominatorTree
