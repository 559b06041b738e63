import DefiniteAssignment.Graph.Basic
/-!
# Walks

A walk follows edges from node to node and may pass a node any number of times. `Walk a u l v` says
that `l` holds the nodes of a walk from `u` to `v` in order, all but the last one; so the nodes that
a walk passes strictly before it ends are those of `l`, and all its nodes are those of `l ++ [v]`.

The nodes that a graph has marked are compared with them here: they are the ends of the walks from
the entry (`isReachable_iff`).
-/

namespace DefiniteAssignment

namespace Adjacency

/-- The nodes of `l`, followed by `v`, are those of a walk from `u`. -/
inductive Walk (a : Adjacency) (u : Nat) : List Nat → Nat → Prop
  | nil : Walk a u [] u
  | snoc {l : List Nat} {v w : Nat} : Walk a u l v → w ∈ a.next v → Walk a u (l ++ [v]) w

namespace Walk

variable {a : Adjacency} {u v w : Nat} {l m : List Nat}

/-- Walks are put together where one ends and the other begins. -/
theorem append (h₁ : a.Walk u l v) (h₂ : a.Walk v m w) : a.Walk u (l ++ m) w := by
  induction h₂ with
  | nil => rwa [List.append_nil]
  | snoc _ hedge ih =>
    rw [← List.append_assoc]
    exact ih.snoc hedge

/-- A walk that passes a node begins with a walk to it. -/
theorem exists_walk_of_mem (h : a.Walk u l v) (hw : w ∈ l) :
    ∃ m, a.Walk u m w ∧ m ++ [w] <+: l := by
  induction h with
  | nil => simp at hw
  | @snoc l v _ hl _ ih =>
    rcases List.mem_append.1 hw with hw | hw
    · obtain ⟨m, hm, hpre⟩ := ih hw
      exact ⟨m, hm, hpre.trans (List.prefix_append l [v])⟩
    · rw [List.mem_singleton.1 hw]
      exact ⟨l, hl, List.prefix_refl _⟩

/-- What is between two visits of a node can be left out of a walk. -/
theorem exists_nodup_walk (h : a.Walk u l v) :
    ∃ m, a.Walk u m v ∧ (m ++ [v]).Nodup ∧ m ++ [v] ⊆ l ++ [v] := by
  induction h with
  | nil => exact ⟨[], .nil, List.pairwise_singleton .., List.Subset.refl _⟩
  | @snoc l v w _ hw ih =>
    obtain ⟨m, hm, hnodup, hsub⟩ := ih
    have hsub' : m ++ [v] ⊆ l ++ [v] ++ [w] := List.subset_append_of_subset_left _ hsub
    by_cases hwm : w ∈ m ++ [v]
    · rcases List.mem_append.1 hwm with hwm | hwv
      · obtain ⟨k, hk, hpre⟩ := hm.exists_walk_of_mem hwm
        have hprefix : k ++ [w] <+: m ++ [v] := hpre.trans (List.prefix_append m [v])
        exact ⟨k, hk, hprefix.sublist.nodup hnodup, List.Subset.trans hprefix.subset hsub'⟩
      · rw [List.mem_singleton.1 hwv] at hsub' ⊢
        exact ⟨m, hm, hnodup, hsub'⟩
    · refine ⟨m ++ [v], hm.snoc hw,
        List.nodup_append.2 ⟨hnodup, List.pairwise_singleton .., ?_⟩, ?_⟩
      · intro x hx y hy
        rw [List.mem_singleton.1 hy]
        exact fun hxw => hwm (hxw ▸ hx)
      · exact List.append_subset.2 ⟨hsub', List.subset_append_right _ _⟩

end Walk

/-! ## Marks -/

/-- Whether a node is marked. -/
def Marked (visited : Array Bool) (n : Nat) : Prop :=
  visited[n]? = some true

/-- At first no node is marked. -/
theorem not_marked_replicate (size n : Nat) : ¬Marked (Array.replicate size false) n := by
  unfold Marked
  rw [Array.getElem?_replicate]
  split <;> simp

/-- Marking a node marks it and no other. -/
theorem marked_set {visited : Array Bool} {u : Nat} (hu : u < visited.size) (n : Nat) :
    Marked (visited.setIfInBounds u true) n ↔ n = u ∨ Marked visited n := by
  unfold Marked
  rw [Array.getElem?_setIfInBounds]
  by_cases hn : u = n
  · simp [hn ▸ hu, hn]
  · simp [hn, Ne.symm hn]

/-- What is neither marked nor unmarked is no node. -/
theorem marked_of_ne_some_false {visited : Array Bool} {u : Nat} (hu : u < visited.size)
    (h : ¬visited[u]? = some false) : Marked visited u := by
  unfold Marked
  rw [Array.getElem?_eq_getElem hu] at h ⊢
  simpa using h

section Reachable

variable {a : Adjacency}

/-- Only ends of walks from the work list are marked. -/
theorem exists_walk_of_marked {visited : Array Bool} {work : List Nat} {n : Nat}
    (h : Marked (a.markReachable visited work) n) :
    Marked visited n ∨ ∃ w ∈ work, ∃ l, a.Walk w l n := by
  fun_induction markReachable a visited work with
  | case1 => exact .inl h
  | case2 visited u rest hu ih =>
    have hlt := (Array.getElem?_eq_some_iff.1 hu).1
    rcases ih h with hmarked | ⟨w, hw, l, hl⟩
    · rcases (marked_set hlt n).1 hmarked with rfl | hmarked
      · exact .inr ⟨n, List.mem_cons_self .., [], .nil⟩
      · exact .inl hmarked
    · rcases List.mem_append.1 hw with hw | hw
      · exact .inr ⟨u, List.mem_cons_self .., [u] ++ l, (Walk.nil.snoc hw).append hl⟩
      · exact .inr ⟨w, List.mem_cons_of_mem _ hw, l, hl⟩
  | case3 visited u rest hu ih =>
    rcases ih h with hmarked | ⟨w, hw, l, hl⟩
    · exact .inl hmarked
    · exact .inr ⟨w, List.mem_cons_of_mem _ hw, l, hl⟩

/-- Marks stay, and the nodes of the work list get them. -/
theorem marked_markReachable {visited : Array Bool} {work : List Nat} {n : Nat}
    (h : Marked visited n ∨ n ∈ work ∧ n < visited.size) :
    Marked (a.markReachable visited work) n := by
  fun_induction markReachable a visited work with
  | case1 visited => simpa using h
  | case2 visited u rest hu ih =>
    have hlt := (Array.getElem?_eq_some_iff.1 hu).1
    refine ih ?_
    rw [marked_set hlt, List.mem_append, Array.size_setIfInBounds]
    rcases h with h | ⟨h, hn⟩
    · exact .inl (.inr h)
    · rcases List.mem_cons.1 h with rfl | h
      · exact .inl (.inl rfl)
      · exact .inr ⟨.inr h, hn⟩
  | case3 visited u rest hu ih =>
    refine ih ?_
    rcases h with h | ⟨h, hn⟩
    · exact .inl h
    · rcases List.mem_cons.1 h with rfl | h
      · exact .inl (marked_of_ne_some_false hn hu)
      · exact .inr ⟨h, hn⟩

/-- If the targets of marked nodes are marked or wait to be, all of them are marked in the end. -/
theorem marked_next {visited : Array Bool} {work : List Nat} {u v : Nat}
    (hinv : ∀ u v, Marked visited u → v ∈ a.next u → v < visited.size →
      Marked visited v ∨ v ∈ work)
    (hu : Marked (a.markReachable visited work) u) (hv : v ∈ a.next u) (hlt : v < visited.size) :
    Marked (a.markReachable visited work) v := by
  fun_induction markReachable a visited work with
  | case1 visited => exact (hinv u v hu hv hlt).resolve_right (by simp)
  | case2 visited w rest hw ih =>
    have hwlt := (Array.getElem?_eq_some_iff.1 hw).1
    rw [Array.size_setIfInBounds] at ih
    refine ih ?_ hu hlt
    intro x y hx hy hylt
    rw [marked_set hwlt, List.mem_append]
    rcases (marked_set hwlt x).1 hx with rfl | hx
    · exact .inr (.inl hy)
    · rcases hinv x y hx hy hylt with h | h
      · exact .inl (.inr h)
      · rcases List.mem_cons.1 h with rfl | h
        · exact .inl (.inl rfl)
        · exact .inr (.inr h)
  | case3 visited w rest hw ih =>
    refine ih ?_ hu hlt
    intro x y hx hy hylt
    rcases hinv x y hx hy hylt with h | h
    · exact .inl h
    · rcases List.mem_cons.1 h with rfl | h
      · exact .inl (marked_of_ne_some_false hylt hw)
      · exact .inr h

/-- In a graph without dangling edges, the marks stand at the ends of the walks from the entry. -/
theorem marked_reachableFrom_iff (ha : ∀ u, ∀ v ∈ a.next u, v < a.size) {e : Nat} (he : e < a.size)
    (n : Nat) : Marked (a.reachableFrom (some e)) n ↔ ∃ l, a.Walk e l n := by
  unfold reachableFrom
  rw [Option.toList_some]
  constructor
  · intro h
    rcases exists_walk_of_marked h with h | ⟨w, hw, l, hl⟩
    · exact absurd h (not_marked_replicate _ n)
    · exact ⟨l, List.mem_singleton.1 hw ▸ hl⟩
  · intro hwalk
    obtain ⟨l, hl⟩ := hwalk
    induction hl with
    | nil => exact marked_markReachable (.inr ⟨List.mem_cons_self .., by simpa using he⟩)
    | @snoc l v w _ hw ih =>
      refine marked_next ?_ ih hw (by simpa using ha v w hw)
      intro u _ hu
      exact absurd hu (not_marked_replicate _ u)

end Reachable

/-! ## Ends of edges -/

section Ends

variable {a : Adjacency}

/-- No edge leaves a number that is no node. -/
theorem next_of_size_le {u : Nat} (h : a.size ≤ u) : a.next u = [] := by
  rw [next, Array.getElem?_eq_none h]
  rfl

/-- What an edge leaves is a node. -/
theorem lt_size_of_mem_next {u v : Nat} (h : v ∈ a.next u) : u < a.size := by
  rcases Nat.lt_or_ge u a.size with hlt | hge
  · exact hlt
  · rw [next_of_size_le hge] at h
    exact absurd h (by simp)

end Ends

end Adjacency

/-! ## Paths of a graph -/

namespace Graph

variable {g : Graph}

/-- The nodes of `l`, followed by `n`, are those of a path from the entry. -/
def EntryPath (g : Graph) (l : List Nat) (n : Nat) : Prop :=
  ∃ e, g.entry = some e ∧ g.successors.Walk e l n

/-- Control can get from the entry to a node. -/
def Reaches (g : Graph) (n : Nat) : Prop :=
  ∃ l, g.EntryPath l n

/-- A successor is a node of the graph. -/
theorem succ_lt (g : Graph) {u v : Nat} (h : v ∈ g.succ u) : v < g.successors.size :=
  g.size_successors.symm ▸ g.successor_lt u v h

/-- A path from the entry goes on along any edge. -/
theorem EntryPath.snoc {l : List Nat} {u v : Nat} (h : g.EntryPath l u) (huv : v ∈ g.succ u) :
    g.EntryPath (l ++ [u]) v := by
  obtain ⟨e, he, hw⟩ := h
  exact ⟨e, he, hw.snoc huv⟩

/-- A path from the entry ends at a node of the graph. -/
theorem EntryPath.lt_size {l : List Nat} {n : Nat} (h : g.EntryPath l n) : n < g.size := by
  obtain ⟨e, he, hw⟩ := h
  cases hw with
  | nil => exact g.entry_lt _ he
  | snoc _ hedge => exact g.successor_lt _ _ hedge

theorem Reaches.lt_size {n : Nat} (h : g.Reaches n) : n < g.size := by
  obtain ⟨l, hl⟩ := h
  exact hl.lt_size

theorem reaches_entry {e : Nat} (h : g.entry = some e) : g.Reaches e :=
  ⟨[], e, h, .nil⟩

/-- Control gets to the successors of a node that it gets to. -/
theorem Reaches.succ {u v : Nat} (h : g.Reaches u) (huv : v ∈ g.succ u) : g.Reaches v := by
  obtain ⟨l, hl⟩ := h
  exact ⟨_, hl.snoc huv⟩

/-- Every node of a path is the end of a path that passes no other nodes. -/
theorem EntryPath.exists_path_of_mem {l : List Nat} {n d : Nat} (h : g.EntryPath l n)
    (hd : d ∈ l) : ∃ m, g.EntryPath m d ∧ m ++ [d] ⊆ l := by
  obtain ⟨e, he, hw⟩ := h
  obtain ⟨m, hm, hpre⟩ := hw.exists_walk_of_mem hd
  exact ⟨m, ⟨e, he, hm⟩, hpre.subset⟩

/-- A path can do without passing a node twice. -/
theorem EntryPath.exists_nodup_path {l : List Nat} {n : Nat} (h : g.EntryPath l n) :
    ∃ m, g.EntryPath m n ∧ (m ++ [n]).Nodup ∧ m ++ [n] ⊆ l ++ [n] := by
  obtain ⟨e, he, hw⟩ := h
  obtain ⟨m, hm, hnodup, hsub⟩ := hw.exists_nodup_walk
  exact ⟨m, ⟨e, he, hm⟩, hnodup, hsub⟩

/-- The nodes marked as reachable are those that control can get to. -/
theorem isReachable_iff {n : Nat} : g.isReachable n = true ↔ g.Reaches n := by
  have hmarks : g.reachable = g.successors.reachableFrom g.entry := g.reachable_eq
  rw [isReachable, beq_iff_eq, hmarks]
  cases he : g.entry with
  | some e =>
    have hlt : e < g.successors.size := g.size_successors.symm ▸ g.entry_lt e he
    rw [← Adjacency.Marked, Adjacency.marked_reachableFrom_iff (fun u v hv => g.succ_lt hv) hlt]
    constructor
    · intro hwalk
      obtain ⟨l, hl⟩ := hwalk
      exact ⟨l, e, he, hl⟩
    · intro hn
      obtain ⟨l, e', he', hl⟩ := hn
      rw [he] at he'
      exact ⟨l, Option.some.inj he' ▸ hl⟩
  -- Only the graph without nodes has no entry.
  | none =>
    rw [Adjacency.reachableFrom, Option.toList_none, Adjacency.markReachable, ← Adjacency.Marked]
    refine ⟨fun h => absurd h (Adjacency.not_marked_replicate _ _), ?_⟩
    intro hn
    obtain ⟨l, e, he', -⟩ := hn
    rw [he] at he'
    cases he'

/-- The predecessors that count are those that control can get to. -/
theorem mem_reachablePred {u v : Nat} : u ∈ g.reachablePred v ↔ v ∈ g.succ u ∧ g.Reaches u := by
  rw [reachablePred, List.mem_filter, mem_pred, isReachable_iff]

/-- The predecessors that count are ascending. -/
theorem pairwise_reachablePred (n : Nat) : (g.reachablePred n).Pairwise (· < ·) :=
  (pairwise_pred n).filter _

/-- A node other than the entry that control can get to has a predecessor that it can get to. -/
theorem Reaches.reachablePred_ne_nil {n : Nat} (h : g.Reaches n) (hne : g.entry ≠ some n) :
    g.reachablePred n ≠ [] := by
  obtain ⟨l, e, he, hw⟩ := h
  cases hw with
  | nil => exact absurd he hne
  | @snoc l u _ hl hedge => exact List.ne_nil_of_mem (mem_reachablePred.2 ⟨hedge, l, e, he, hl⟩)

/-- A graph to try things on: a loop of two nodes that control can enter and leave at both, a way
back from behind it to the entry, and a node that control cannot get to with an edge into it. -/
def sample : Graph :=
  let builder : Builder :=
    { nodes := #[⟨"", none, [.loc "a"], []⟩, ⟨"", none, [.loc "b"], [.loc "a"]⟩,
        ⟨"", none, [.loc "b", .glob "g"], []⟩, ⟨"", none, [.loc "c"], [.loc "d"]⟩,
        ⟨"", none, [.loc "d"], []⟩]
      edges := #[(0, 1), (0, 2), (1, 2), (2, 1), (1, 3), (2, 3), (3, 0), (4, 1)]
      entry := some 0 }
  match builder.build with
  | .ok g => g
  | .error _ => .empty

end Graph

end DefiniteAssignment
