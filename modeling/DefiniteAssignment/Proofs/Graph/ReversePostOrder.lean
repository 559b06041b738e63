import DefiniteAssignment.Proofs.Graph.Walk
/-!
# Reverse post order

The depth-first search keeps a stack of visits that have begun and a list of those that are over.
`Searching` says what is true of a search at every step: the marked nodes are those of the stack and
the list, each once; a visit was begun from the one below it; and a node whose visit is over was
begun from a node whose visit ended later or goes on still. Each of the three ways in which
`finishVisits` goes on keeps this (`Searching.finish`, `.enter`, `.pass`).

In the end no visit goes on. So the order lists every node that control can get to exactly once
(`mem_reversePostOrder`, `nodup_reversePostOrder`), begins with the entry
(`head?_reversePostOrder`), and puts before every other node one of its predecessors
(`exists_pred_before`). From the last it follows that every node has a path that goes forward in the
order (`exists_forward_path`).
-/

namespace DefiniteAssignment

namespace Adjacency

/-- Each visit of a stack was begun from the one below it, and the lowest one at `e`. -/
def BegunFrom (a : Adjacency) (e : Nat) : List (Nat × List Nat) → Prop
  | [] => True
  | [(u, _)] => u = e
  | (v, _) :: (u, later) :: below => v ∈ a.next u ∧ BegunFrom a e ((u, later) :: below)

/-- What holds of a depth-first search from `e` between two steps. -/
structure Searching (a : Adjacency) (e : Nat) (visited : Array Bool)
    (stack : List (Nat × List Nat)) (finished : List Nat) : Prop where
  size_visited : visited.size = a.size
  marked_iff : ∀ n, Marked visited n ↔ n ∈ stack.map Prod.fst ++ finished
  nodup : (stack.map Prod.fst ++ finished).Nodup
  begun : BegunFrom a e stack
  /-- The visit of `e` is the last to end. -/
  head : stack = [] → finished.head? = some e
  later_sub : ∀ visit ∈ stack, visit.2 ⊆ a.next visit.1
  /-- A visit has marked all targets but those it has still to look at. -/
  seen : ∀ visit ∈ stack, ∀ v ∈ a.next visit.1, v ∈ visit.2 ∨ Marked visited v
  closed : ∀ u ∈ finished, ∀ v ∈ a.next u, Marked visited v
  /-- The node that a visit was begun from goes on, or ended after it. -/
  parent : ∀ v ∈ finished, v ≠ e → ∃ u, v ∈ a.next u ∧
    (u ∈ stack.map Prod.fst ∨ finished.idxOf u < finished.idxOf v)
  reached : ∀ n, Marked visited n → ∃ l, a.Walk e l n

variable {a : Adjacency} {e : Nat} {visited : Array Bool} {below : List (Nat × List Nat)}
  {finished : List Nat} {u v : Nat} {later : List Nat}

theorem idxOf_cons_of_ne {x y : Nat} (l : List Nat) (h : x ≠ y) :
    (x :: l).idxOf y = l.idxOf y + 1 := by
  rw [List.idxOf_cons, beq_false_of_ne h]
  rfl

/-- What comes before `n` in a list stands in the part before any `n`. -/
theorem mem_of_idxOf_lt {done rest : List Nat} {q n : Nat}
    (h : (done ++ n :: rest).idxOf q < (done ++ n :: rest).idxOf n) : q ∈ done := by
  rw [List.idxOf_append, List.idxOf_append, List.idxOf_cons_self] at h
  by_cases hq : q ∈ done
  · exact hq
  · rw [if_neg hq] at h
    split at h
    next hn =>
      have := List.idxOf_lt_length_of_mem hn
      omega
    next => omega

theorem BegunFrom.drop_target (h : BegunFrom a e ((u, v :: later) :: below)) :
    BegunFrom a e ((u, later) :: below) := by
  cases below with
  | nil => exact h
  | cons visit below => exact h

theorem Searching.start (he : e < a.size) :
    Searching a e ((Array.replicate a.size false).setIfInBounds e true) [(e, a.next e)] [] where
  size_visited := by simp
  marked_iff n := by
    rw [marked_set (by simpa using he)]
    simp [not_marked_replicate]
  nodup := by simp
  begun := rfl
  head h := by simp at h
  later_sub visit h := by
    rw [List.mem_singleton.1 h]
    exact List.Subset.refl _
  seen visit h v hv := by
    rw [List.mem_singleton.1 h] at hv ⊢
    exact .inl hv
  closed u h := by simp at h
  parent v h := by simp at h
  reached n h := by
    rcases (marked_set (by simpa using he) n).1 h with rfl | h
    · exact ⟨[], .nil⟩
    · exact absurd h (not_marked_replicate _ n)

/-- A visit without further targets ends. -/
theorem Searching.finish (h : Searching a e visited ((u, []) :: below) finished) :
    Searching a e visited below (u :: finished) where
  size_visited := h.size_visited
  marked_iff n := by
    rw [h.marked_iff n]
    exact List.perm_middle.symm.mem_iff
  nodup := List.perm_middle.nodup_iff.2 h.nodup
  begun := by
    have hbegun := h.begun
    cases below with
    | nil => trivial
    | cons visit below => exact hbegun.2
  head hnil := by
    have hbegun := h.begun
    rw [hnil] at hbegun
    exact congrArg some hbegun
  later_sub visit hv := h.later_sub visit (List.mem_cons_of_mem _ hv)
  seen visit hv := h.seen visit (List.mem_cons_of_mem _ hv)
  closed w hw v hv := by
    rcases List.mem_cons.1 hw with rfl | hw
    · exact (h.seen _ (List.mem_cons_self ..) v hv).resolve_left (by simp)
    · exact h.closed w hw v hv
  parent v hv hne := by
    have hbegun := h.begun
    have hnodup := h.nodup
    rcases List.mem_cons.1 hv with rfl | hv
    -- The node was begun from the visit below, which goes on.
    · cases below with
      | nil => exact absurd hbegun hne
      | cons visit below => exact ⟨visit.1, hbegun.1, .inl (by simp)⟩
    · have hvu : u ≠ v := by
        intro hvu
        subst hvu
        simp [hv] at hnodup
      rw [idxOf_cons_of_ne _ hvu]
      obtain ⟨w, hw, hmem | hlt⟩ := h.parent v hv hne
      · rcases List.mem_cons.1 hmem with rfl | hmem
        · exact ⟨w, hw, .inr (by simp)⟩
        · exact ⟨w, hw, .inl hmem⟩
      · by_cases hwu : u = w
        · exact ⟨w, hw, .inr (by simp [hwu])⟩
        · refine ⟨w, hw, .inr ?_⟩
          rw [idxOf_cons_of_ne _ hwu]
          omega
  reached := h.reached

/-- A visit begins at a target that is not marked yet. -/
theorem Searching.enter
    (h : Searching a e visited ((u, v :: later) :: below) finished)
    (hv : visited[v]? = some false) :
    Searching a e (visited.setIfInBounds v true) ((v, a.next v) :: (u, later) :: below)
      finished := by
  have hlt : v < visited.size := (Array.getElem?_eq_some_iff.1 hv).1
  have hnot : ¬Marked visited v := by
    unfold Marked
    rw [hv]
    simp
  have hedge : v ∈ a.next u := h.later_sub _ (List.mem_cons_self ..) (List.mem_cons_self ..)
  have hstay : ∀ n, Marked visited n → Marked (visited.setIfInBounds v true) n :=
    fun n hn => (marked_set hlt n).2 (.inr hn)
  refine
    { size_visited := by rw [Array.size_setIfInBounds, h.size_visited]
      marked_iff := ?_
      nodup := List.nodup_cons.2 ⟨fun hmem => hnot ((h.marked_iff v).2 hmem), h.nodup⟩
      begun := ⟨hedge, h.begun.drop_target⟩
      head := fun hnil => by simp at hnil
      later_sub := ?_
      seen := ?_
      closed := fun w hw x hx => hstay x (h.closed w hw x hx)
      parent := ?_
      reached := ?_ }
  · -- marked_iff
    intro n
    rw [marked_set hlt, h.marked_iff]
    exact List.mem_cons.symm
  · -- later_sub
    intro visit hvisit
    rcases List.mem_cons.1 hvisit with rfl | hvisit
    · exact List.Subset.refl _
    · rcases List.mem_cons.1 hvisit with rfl | hvisit
      · exact fun x hx => h.later_sub _ (List.mem_cons_self ..) (List.mem_cons_of_mem _ hx)
      · exact h.later_sub visit (List.mem_cons_of_mem _ hvisit)
  · -- seen
    intro visit hvisit w hw
    rcases List.mem_cons.1 hvisit with rfl | hvisit
    · exact .inl hw
    · rcases List.mem_cons.1 hvisit with rfl | hvisit
      · rcases h.seen _ (List.mem_cons_self ..) w hw with hmem | hmarked
        · rcases List.mem_cons.1 hmem with rfl | hmem
          · exact .inr ((marked_set hlt w).2 (.inl rfl))
          · exact .inl hmem
        · exact .inr (hstay w hmarked)
      · exact (h.seen visit (List.mem_cons_of_mem _ hvisit) w hw).imp_right (hstay w)
  · -- parent
    intro w hw hne
    obtain ⟨x, hx, hmem | hidx⟩ := h.parent w hw hne
    · exact ⟨x, hx, .inl (List.mem_cons_of_mem _ hmem)⟩
    · exact ⟨x, hx, .inr hidx⟩
  · -- reached
    intro n hn
    rcases (marked_set hlt n).1 hn with rfl | hn
    · obtain ⟨l, hl⟩ := h.reached u ((h.marked_iff u).2 (by simp))
      exact ⟨l ++ [u], hl.snoc hedge⟩
    · exact h.reached n hn

/-- A visit passes over a target that is marked. -/
theorem Searching.pass (ha : ∀ u, ∀ v ∈ a.next u, v < a.size)
    (h : Searching a e visited ((u, v :: later) :: below) finished)
    (hv : ¬visited[v]? = some false) :
    Searching a e visited ((u, later) :: below) finished := by
  have hedge : v ∈ a.next u := h.later_sub _ (List.mem_cons_self ..) (List.mem_cons_self ..)
  have hmarked : Marked visited v := marked_of_ne_some_false (h.size_visited ▸ ha u v hedge) hv
  refine
    { size_visited := h.size_visited
      marked_iff := h.marked_iff
      nodup := h.nodup
      begun := h.begun.drop_target
      head := fun hnil => by simp at hnil
      later_sub := ?_
      seen := ?_
      closed := h.closed
      parent := h.parent
      reached := h.reached }
  · -- later_sub
    intro visit hvisit
    rcases List.mem_cons.1 hvisit with rfl | hvisit
    · exact fun x hx => h.later_sub _ (List.mem_cons_self ..) (List.mem_cons_of_mem _ hx)
    · exact h.later_sub visit (List.mem_cons_of_mem _ hvisit)
  · -- seen
    intro visit hvisit w hw
    rcases List.mem_cons.1 hvisit with rfl | hvisit
    · rcases h.seen _ (List.mem_cons_self ..) w hw with hmem | hseen
      · rcases List.mem_cons.1 hmem with rfl | hmem
        · exact .inr hmarked
        · exact .inl hmem
      · exact .inr hseen
    · exact h.seen visit (List.mem_cons_of_mem _ hvisit) w hw

/-- A search goes on until no visit does. -/
theorem Searching.finishVisits (ha : ∀ u, ∀ v ∈ a.next u, v < a.size)
    {stack : List (Nat × List Nat)} (h : Searching a e visited stack finished) :
    ∃ visited', Searching a e visited' [] (a.finishVisits visited stack finished) := by
  fun_induction Adjacency.finishVisits a visited stack finished with
  | case1 visited finished => exact ⟨visited, h⟩
  | case2 visited finished u below ih => exact ih h.finish
  | case3 visited finished u v later below hv ih => exact ih (h.enter hv)
  | case4 visited finished u v later below hv ih => exact ih (h.pass ha hv)

end Adjacency

namespace Graph

variable {g : Graph}

/-- The order is what a search from the entry leaves when it is over. -/
theorem exists_searching {e : Nat} (he : g.entry = some e) :
    ∃ visited, Adjacency.Searching g.successors e visited [] g.reversePostOrder := by
  have hlt : e < g.successors.size := g.size_successors.symm ▸ g.entry_lt e he
  rw [reversePostOrder, he]
  exact (Adjacency.Searching.start hlt).finishVisits fun u v hv => g.succ_lt hv

/-- The order holds the nodes that control can get to. -/
theorem mem_reversePostOrder {n : Nat} : n ∈ g.reversePostOrder ↔ g.Reaches n := by
  cases he : g.entry with
  | none =>
    rw [reversePostOrder, he]
    refine ⟨fun h => by simp [Adjacency.reversePostOrderFrom] at h, ?_⟩
    intro hn
    obtain ⟨l, e, he', -⟩ := hn
    rw [he] at he'
    cases he'
  | some e =>
    obtain ⟨visited, h⟩ := exists_searching he
    have hmarked : ∀ m, Adjacency.Marked visited m ↔ m ∈ g.reversePostOrder := h.marked_iff
    constructor
    · intro hn
      obtain ⟨l, hl⟩ := h.reached n ((hmarked n).2 hn)
      exact ⟨l, e, he, hl⟩
    · intro hn
      obtain ⟨l, e', he', hl⟩ := hn
      obtain rfl : e = e' := Option.some.inj (he ▸ he')
      rw [← hmarked]
      induction hl with
      | nil => exact (hmarked e).2 (List.mem_of_mem_head? (h.head rfl))
      | @snoc l v w _ hw ih => exact h.closed v ((hmarked v).1 ih) w hw

theorem nodup_reversePostOrder (g : Graph) : g.reversePostOrder.Nodup := by
  cases he : g.entry with
  | none =>
    rw [reversePostOrder, he]
    exact List.nodup_nil
  | some e =>
    obtain ⟨visited, h⟩ := exists_searching he
    exact h.nodup

theorem head?_reversePostOrder (g : Graph) : g.reversePostOrder.head? = g.entry := by
  cases he : g.entry with
  | none =>
    rw [reversePostOrder, he]
    rfl
  | some e =>
    obtain ⟨visited, h⟩ := exists_searching he
    exact h.head rfl

/-- Every node of the order but the entry comes after one of its predecessors. -/
theorem exists_pred_before {n : Nat} (hn : g.Reaches n) (hne : g.entry ≠ some n) :
    ∃ u, g.Reaches u ∧ n ∈ g.succ u ∧
      g.reversePostOrder.idxOf u < g.reversePostOrder.idxOf n := by
  obtain ⟨l, e, he, hl⟩ := hn
  have hn : n ∈ g.reversePostOrder := mem_reversePostOrder.2 ⟨l, e, he, hl⟩
  obtain ⟨visited, h⟩ := exists_searching he
  have hne' : n ≠ e := fun heq => hne (heq ▸ he)
  obtain ⟨u, hu, hmem | hidx⟩ := h.parent n hn hne'
  · simp at hmem
  · have humem : u ∈ g.reversePostOrder := by
      rw [← List.idxOf_lt_length_iff]
      exact Nat.lt_trans hidx (List.idxOf_lt_length_of_mem hn)
    exact ⟨u, mem_reversePostOrder.1 humem, hu, hidx⟩

/-- Where the order is cut, a node has one of its predecessors before the cut. -/
theorem exists_pred_mem_done {done todo : List Nat} {n : Nat}
    (horder : g.reversePostOrder = done ++ n :: todo) :
    g.entry = some n ∨ ∃ q ∈ g.reachablePred n, q ∈ done := by
  have hn : g.Reaches n := by
    rw [← mem_reversePostOrder, horder]
    exact List.mem_append_right _ (List.mem_cons_self ..)
  by_cases he : g.entry = some n
  · exact .inl he
  · obtain ⟨q, hq, hedge, hlt⟩ := exists_pred_before hn he
    rw [horder] at hlt
    exact .inr ⟨q, mem_reachablePred.2 ⟨hedge, hq⟩, Adjacency.mem_of_idxOf_lt hlt⟩

/-- Every node that control can get to has a path that only passes nodes before it in the order. -/
theorem exists_forward_path {n : Nat} (hn : g.Reaches n) :
    ∃ l, g.EntryPath l n ∧
      ∀ d ∈ l, g.reversePostOrder.idxOf d < g.reversePostOrder.idxOf n := by
  -- The induction is on the place of the node in the order.
  induction hk : g.reversePostOrder.idxOf n using Nat.strongRecOn generalizing n with
  | _ k ih =>
    by_cases he : g.entry = some n
    · exact ⟨[], ⟨n, he, .nil⟩, by simp⟩
    · obtain ⟨u, hu, hedge, hlt⟩ := exists_pred_before hn he
      obtain ⟨l, hl, hbefore⟩ := ih _ (hk ▸ hlt) hu rfl
      refine ⟨l ++ [u], hl.snoc hedge, ?_⟩
      intro d hd
      rcases List.mem_append.1 hd with hd | hd
      · exact hk ▸ Nat.lt_trans (hbefore d hd) hlt
      · rw [List.mem_singleton.1 hd, ← hk]
        exact hlt

end Graph

end DefiniteAssignment
