import Mathlib.Data.List.Permutation
import Mathlib.Data.List.Sort
import DefiniteAssignment.Proofs.Graph.Walk
/-!
# What builders build

A builder takes nodes, edges and entries in any order and looks at none of them before the graph is
built. What comes of them then depends on the nodes and the edges in the order in which they came,
and on the last entry (`Builder.Outcome`): nothing can be wrong with a graph without nodes; of what
is wrong with others a missing entry is reported first, an entry that is no node next, and then the
first edge with an end that is no node.

A graph keeps its edges in an order of its own and each of them once, so that it is the same
whatever the order of the edges was and however often each of them came
(`Graph.eq_of_mem_succ_iff`):

> `Builder.outcome_build_ofCalls`
-/

namespace DefiniteAssignment

/-! ## Graphs with the same edges -/

/-- Two tables with the same lists are the same. -/
theorem Adjacency.ext_next {a b : Adjacency} (hsize : a.size = b.size)
    (hnext : ∀ u, a.next u = b.next u) : a = b := by
  refine Array.ext hsize fun u hu hu' => ?_
  have h := hnext u
  rwa [next, next, Array.getElem?_eq_getElem hu, Array.getElem?_eq_getElem hu'] at h

/-- The tables are determined by which edges there are. -/
theorem EdgeTables.eq_of_mem_successors_iff {n : Nat} {t t' : EdgeTables n}
    (h : ∀ u v, v ∈ t.successors.next u ↔ v ∈ t'.successors.next u) : t = t' := by
  have hsuccessors : t.successors = t'.successors := by
    refine Adjacency.ext_next (t.size_successors.trans t'.size_successors.symm) fun u => ?_
    exact (t.pairwise_successors u).eq_of_mem_iff (t'.pairwise_successors u) (h u)
  have hpredecessors : t.predecessors = t'.predecessors := by
    refine Adjacency.ext_next (t.size_predecessors.trans t'.size_predecessors.symm) fun v => ?_
    refine (t.pairwise_predecessors v).eq_of_mem_iff (t'.pairwise_predecessors v) fun u => ?_
    rw [t.mem_predecessors, t'.mem_predecessors, h]
  obtain ⟨successors, predecessors⟩ := t
  obtain ⟨successors', predecessors'⟩ := t'
  obtain rfl : successors = successors' := hsuccessors
  obtain rfl : predecessors = predecessors' := hpredecessors
  rfl

namespace Graph

variable {g g' : Graph}

/-- A graph is determined by its nodes, its entry and which edges it has. -/
theorem eq_of_mem_succ_iff (hnodes : g.nodes = g'.nodes) (hentry : g.entry = g'.entry)
    (hsucc : ∀ u v, v ∈ g.succ u ↔ v ∈ g'.succ u) : g = g' := by
  obtain ⟨nodes, edges, entry, reachable, _, _, hreachable⟩ := g
  obtain ⟨nodes', edges', entry', reachable', _, _, hreachable'⟩ := g'
  obtain rfl : nodes = nodes' := hnodes
  obtain rfl : entry = entry' := hentry
  obtain rfl : edges = edges' := EdgeTables.eq_of_mem_successors_iff hsucc
  obtain rfl : reachable = reachable' := hreachable.trans hreachable'.symm
  rfl

/-- An exit is a node without successors. -/
theorem mem_exits {n : Nat} : n ∈ g.exits ↔ n < g.size ∧ ∀ v, v ∉ g.succ n := by
  rw [exits, List.mem_filter, List.mem_range, List.isEmpty_iff, List.eq_nil_iff_forall_not_mem]

/-- Exits are listed ascending. -/
theorem pairwise_exits (g : Graph) : g.exits.Pairwise (· < ·) :=
  List.pairwise_lt_range.filter _

end Graph

namespace Builder

variable {b : Builder}

/-! ## What comes of nodes, edges and an entry -/

/-- Both ends of an edge are among the first `size` numbers. -/
def InRange (size : Nat) (edge : Nat × Nat) : Prop :=
  edge.1 < size ∧ edge.2 < size

/-- The graph with given nodes, edges and entry. -/
structure Holds (nodes : List Node) (edges : List (Nat × Nat)) (entry : Nat) (g : Graph) :
    Prop where
  nodes_eq : g.nodes.toList = nodes
  entry_eq : g.entry = some entry
  mem_succ : ∀ u v, v ∈ g.succ u ↔ (u, v) ∈ edges
  mem_pred : ∀ u v, u ∈ g.pred v ↔ (u, v) ∈ edges
  pairwise_exits : g.exits.Pairwise (· < ·)
  mem_exits : ∀ n, n ∈ g.exits ↔ n < nodes.length ∧ ∀ v, (n, v) ∉ edges

/-- What is to come of nodes, edges and an entry that may be missing. -/
inductive Outcome (nodes : List Node) (edges : List (Nat × Nat)) :
    Option Nat → Except GraphError Graph → Prop
  | noNodes {entry : Option Nat} : nodes = [] → Outcome nodes edges entry (.ok .empty)
  | noEntry : nodes ≠ [] → Outcome nodes edges none (.error .noEntry)
  | unknownEntry {entry : Nat} : nodes ≠ [] → nodes.length ≤ entry →
      Outcome nodes edges (some entry) (.error (.unknownNode entry entry nodes.length))
  | unknownEnd {entry source target : Nat} {before after : List (Nat × Nat)} : nodes ≠ [] →
      entry < nodes.length → edges = before ++ (source, target) :: after →
      (∀ edge ∈ before, InRange nodes.length edge) → ¬InRange nodes.length (source, target) →
      Outcome nodes edges (some entry) (.error (.unknownNode source target nodes.length))
  | graph {entry : Nat} {g : Graph} : nodes ≠ [] → entry < nodes.length →
      (∀ edge ∈ edges, InRange nodes.length edge) → Holds nodes edges entry g →
      Outcome nodes edges (some entry) (.ok g)

/-- A graph with the nodes, the entry and the successors that were recorded holds all of it, since
the predecessors are those of the same edges. -/
theorem holds_of_mem_succ_iff {g : Graph} {nodes : Array Node} {edges : List (Nat × Nat)} {e : Nat}
    (hnodes : g.nodes = nodes) (he : g.entry = some e)
    (hsucc : ∀ u v, v ∈ g.succ u ↔ (u, v) ∈ edges) : Holds nodes.toList edges e g where
  nodes_eq := congrArg Array.toList hnodes
  entry_eq := he
  mem_succ := hsucc
  mem_pred _ _ := Graph.mem_pred.trans (hsucc _ _)
  pairwise_exits := g.pairwise_exits
  mem_exits n := by
    rw [Graph.mem_exits, Graph.size, hnodes, Array.length_toList]
    exact and_congr_right fun _ => forall_congr' fun v => not_congr (hsucc n v)

section Enter

variable {n : Nat} {t t' : EdgeTables n} {edge : Nat × Nat} {edges : List (Nat × Nat)}

/-- An edge between nodes is added. -/
theorem enter_eq_ok (h : InRange n edge) : enter t edge = .ok (t.insert h.1 h.2) :=
  dif_pos h

/-- Any other edge is refused. -/
theorem enter_eq_error (h : ¬InRange n edge) :
    enter t edge = .error (.unknownNode edge.1 edge.2 n) :=
  dif_neg h

/-- If no edge is refused, all of them are between nodes, and they are added to the edges that are
there. -/
theorem mem_successors_of_foldlM_enter (h : edges.foldlM enter t = .ok t') :
    (∀ edge ∈ edges, InRange n edge) ∧
      ∀ u v, v ∈ t'.successors.next u ↔ v ∈ t.successors.next u ∨ (u, v) ∈ edges := by
  induction edges generalizing t with
  | nil =>
    obtain rfl : t = t' := Except.ok.inj h
    simp
  | cons edge edges ih =>
    rw [List.foldlM_cons] at h
    by_cases hrange : InRange n edge
    · rw [enter_eq_ok hrange] at h
      obtain ⟨hall, hmem⟩ := ih h
      refine ⟨List.forall_mem_cons.2 ⟨hrange, hall⟩, ?_⟩
      intro u v
      obtain ⟨source, target⟩ := edge
      rw [hmem, EdgeTables.mem_successors_insert, List.mem_cons, or_assoc, Prod.mk.injEq,
        @eq_comm _ u, @eq_comm _ v]
    · rw [enter_eq_error hrange] at h
      cases h

/-- Otherwise the first edge that is refused is reported. -/
theorem exists_of_foldlM_enter_eq_error {e : GraphError} (h : edges.foldlM enter t = .error e) :
    ∃ before edge after, edges = before ++ edge :: after ∧ (∀ x ∈ before, InRange n x) ∧
      ¬InRange n edge ∧ e = .unknownNode edge.1 edge.2 n := by
  induction edges generalizing t with
  | nil => cases h
  | cons edge edges ih =>
    rw [List.foldlM_cons] at h
    by_cases hrange : InRange n edge
    · rw [enter_eq_ok hrange] at h
      obtain ⟨before, bad, after, rfl, hbefore, hbad, he⟩ := ih h
      exact ⟨edge :: before, bad, after, rfl, List.forall_mem_cons.2 ⟨hrange, hbefore⟩, hbad, he⟩
    · rw [enter_eq_error hrange] at h
      exact ⟨[], edge, edges, rfl, by simp, hrange, (Except.error.inj h).symm⟩

end Enter

/-- Building comes to the outcome that the nodes, the edges and the entry are to have. -/
theorem outcome_build (b : Builder) : Outcome b.nodes.toList b.edges.toList b.entry b.build := by
  unfold build
  split
  next hempty => exact .noNodes (by simpa using hempty)
  next hne =>
    have hnodes : b.nodes.toList ≠ [] := by simpa using hne
    split
    next he =>
      rw [he]
      exact .noEntry hnodes
    next entry he =>
      rw [he]
      split
      next hlt =>
        cases hedges : b.edges.toList.foldlM enter (EdgeTables.empty b.nodes.size) with
        | error e =>
          obtain ⟨before, edge, after, heq, hbefore, hnot, rfl⟩ :=
            exists_of_foldlM_enter_eq_error hedges
          exact .unknownEnd hnodes hlt heq hbefore hnot
        | ok edges =>
          obtain ⟨hrange, hmem⟩ := mem_successors_of_foldlM_enter hedges
          refine .graph hnodes hlt hrange (holds_of_mem_succ_iff rfl rfl fun u v => ?_)
          exact (hmem u v).trans (or_iff_right (by simp))
      next hlt => exact .unknownEntry hnodes (Nat.le_of_not_lt hlt)

/-- If nothing is wrong with nodes, edges and an entry, their graph comes of them. -/
theorem Outcome.exists_holds {nodes : List Node} {edges : List (Nat × Nat)} {entry : Nat}
    {outcome : Except GraphError Graph} (h : Outcome nodes edges (some entry) outcome)
    (hlt : entry < nodes.length) (hrange : ∀ edge ∈ edges, InRange nodes.length edge) :
    ∃ g, outcome = .ok g ∧ Holds nodes edges entry g := by
  cases h with
  | noNodes hnil =>
    rw [hnil] at hlt
    exact absurd hlt (Nat.not_lt_zero entry)
  | unknownEntry _ hle => exact absurd hlt (Nat.not_lt_of_le hle)
  | unknownEnd _ _ heq _ hnot =>
    have hmem := heq ▸ List.mem_append_right _ (List.mem_cons_self ..)
    exact absurd (hrange _ hmem) hnot
  | graph _ _ _ hholds => exact ⟨_, rfl, hholds⟩

/-- There is one graph with given nodes, edges and entry. -/
theorem Holds.eq {nodes : List Node} {edges edges' : List (Nat × Nat)} {e : Nat} {g g' : Graph}
    (h : Holds nodes edges e g) (h' : Holds nodes edges' e g')
    (hedges : ∀ edge, edge ∈ edges' ↔ edge ∈ edges) : g' = g := by
  refine Graph.eq_of_mem_succ_iff ?_ (h'.entry_eq.trans h.entry_eq.symm) fun u v => ?_
  · exact Array.toList_inj.1 (h'.nodes_eq.trans h.nodes_eq.symm)
  · rw [h'.mem_succ, h.mem_succ, hedges]

/-- If a graph comes of some edges, the same graph comes of them in any order. -/
theorem Outcome.eq_ok {nodes : List Node} {edges edges' : List (Nat × Nat)} {entry : Option Nat}
    {g : Graph} {outcome : Except GraphError Graph} (h : Outcome nodes edges entry (.ok g))
    (h' : Outcome nodes edges' entry outcome) (hedges : ∀ edge, edge ∈ edges' ↔ edge ∈ edges) :
    outcome = .ok g := by
  cases h with
  | noNodes hnil =>
    cases h' with
    | noNodes _ => rfl
    | noEntry hne => exact absurd hnil hne
    | unknownEntry hne _ => exact absurd hnil hne
    | unknownEnd hne _ _ _ _ => exact absurd hnil hne
    | graph hne _ _ _ => exact absurd hnil hne
  | graph _ hlt hrange hholds =>
    have hrange' : ∀ edge ∈ edges', InRange nodes.length edge := by
      intro edge hmem
      exact hrange edge ((hedges edge).1 hmem)
    obtain ⟨g', rfl, hholds'⟩ := h'.exists_holds hlt hrange'
    exact congrArg Except.ok (hholds.eq hholds' hedges)

/-- A builder with an entry and without dangling edges builds the graph of its nodes and edges. -/
theorem exists_build {e : Nat} (he : b.entry = some e) (hlt : e < b.nodes.size)
    (hedges : ∀ edge ∈ b.edges.toList, InRange b.nodes.size edge) :
    ∃ g, b.build = .ok g ∧ g.nodes = b.nodes ∧ g.entry = some e ∧
      ∀ u v, v ∈ g.succ u ↔ (u, v) ∈ b.edges.toList := by
  have houtcome := b.outcome_build
  rw [he] at houtcome
  obtain ⟨g, hg, hholds⟩ := houtcome.exists_holds hlt hedges
  exact ⟨g, hg, Array.toList_inj.1 hholds.nodes_eq, hholds.entry_eq, hholds.mem_succ⟩

/-! ## Sequences of calls -/

/-- A call to a builder. -/
inductive Call where
  | addNode (node : Node)
  | addEdge (source target : Nat)
  | setEntry (entry : Nat)

namespace Call

/-- What a call does to a builder. -/
def apply (b : Builder) : Call → Builder
  | addNode node => b.addNode node
  | addEdge source target => b.addEdge source target
  | setEntry entry => b.setEntry entry

/-- The node that a call adds. -/
def node? : Call → Option Node
  | addNode node => some node
  | addEdge _ _ | setEntry _ => none

/-- The edge that a call adds. -/
def edge? : Call → Option (Nat × Nat)
  | addEdge source target => some (source, target)
  | addNode _ | setEntry _ => none

/-- The entry that a call sets. -/
def entry? : Call → Option Nat
  | setEntry entry => some entry
  | addNode _ | addEdge _ _ => none

end Call

/-- The builder after some calls. -/
def ofCalls (calls : List Call) : Builder :=
  calls.foldl Call.apply {}

/-- The nodes that calls add, in order. -/
def addedNodes (calls : List Call) : List Node :=
  calls.filterMap Call.node?

/-- The edges that calls add, in order. -/
def addedEdges (calls : List Call) : List (Nat × Nat) :=
  calls.filterMap Call.edge?

/-- The node that the last of the calls that set an entry makes the entry. -/
def entryAfter (calls : List Call) : Option Nat :=
  (calls.filterMap Call.entry?).getLast?

variable {calls calls' : List Call}

/-- Each call adds to what was recorded, and a later entry takes the place of an earlier one. -/
theorem foldl_apply (calls : List Call) (b : Builder) :
    (calls.foldl Call.apply b).nodes.toList = b.nodes.toList ++ addedNodes calls ∧
      (calls.foldl Call.apply b).edges.toList = b.edges.toList ++ addedEdges calls ∧
      (calls.foldl Call.apply b).entry = (entryAfter calls).or b.entry := by
  induction calls generalizing b with
  | nil => simp [addedNodes, addedEdges, entryAfter]
  | cons call calls ih =>
    obtain ⟨hnodes, hedges, hentry⟩ := ih (Call.apply b call)
    rw [List.foldl_cons, hnodes, hedges, hentry]
    unfold addedNodes addedEdges entryAfter
    simp only [List.filterMap_cons]
    cases call with
    | addNode node => simp [Call.apply, addNode, Call.node?, Call.edge?, Call.entry?]
    | addEdge source target => simp [Call.apply, addEdge, Call.node?, Call.edge?, Call.entry?]
    | setEntry entry =>
      simp [Call.apply, setEntry, Call.node?, Call.edge?, Call.entry?, List.getLast?_cons]

theorem nodes_ofCalls (calls : List Call) : (ofCalls calls).nodes.toList = addedNodes calls :=
  (foldl_apply calls {}).1

theorem edges_ofCalls (calls : List Call) : (ofCalls calls).edges.toList = addedEdges calls :=
  (foldl_apply calls {}).2.1

theorem entry_ofCalls (calls : List Call) : (ofCalls calls).entry = entryAfter calls :=
  (foldl_apply calls {}).2.2.trans Option.or_none

/-- The same calls, but for those that add edges: they may stand elsewhere, in another order, and
each of them once or more often. -/
structure Rearranges (calls calls' : List Call) : Prop where
  others_eq : calls'.filter (·.edge?.isNone) = calls.filter (·.edge?.isNone)
  mem_addedEdges : ∀ edge, edge ∈ addedEdges calls' ↔ edge ∈ addedEdges calls

namespace Rearranges

/-- What other calls than those that add edges record does not depend on these. -/
theorem filterMap_eq {α : Type} {f : Call → Option α} (h : Rearranges calls calls')
    (hf : ∀ call, call.edge?.isSome → f call = none) : calls'.filterMap f = calls.filterMap f := by
  have hothers : ∀ calls : List Call,
      (calls.filter (·.edge?.isNone)).filterMap f = calls.filterMap f := by
    intro calls
    rw [List.filterMap_filter]
    refine List.filterMap_congr fun call _ => ?_
    split
    next => rfl
    next hedge => exact (hf call (by simpa [Option.isSome_iff_ne_none] using hedge)).symm
  rw [← hothers calls', h.others_eq, hothers calls]

/-- Edges may be moved among the calls without changing the nodes. -/
theorem addedNodes_eq (h : Rearranges calls calls') : addedNodes calls' = addedNodes calls := by
  refine h.filterMap_eq fun call hedge => ?_
  cases call with
  | addEdge source target => rfl
  | addNode node => cases hedge
  | setEntry entry => cases hedge

/-- Edges may be moved among the calls without changing the entry. -/
theorem entryAfter_eq (h : Rearranges calls calls') : entryAfter calls' = entryAfter calls := by
  refine congrArg List.getLast? (h.filterMap_eq fun call hedge => ?_)
  cases call with
  | addEdge source target => rfl
  | addNode node => cases hedge
  | setEntry entry => cases hedge

end Rearranges

/-- Building comes to the outcome that the added nodes, the added edges and the last entry are to
have. If it comes to a graph, it comes to the same graph when the calls that add edges stand
elsewhere, in another order, or are repeated. -/
theorem outcome_build_ofCalls (calls : List Call) :
    Outcome (addedNodes calls) (addedEdges calls) (entryAfter calls) (ofCalls calls).build ∧
      ∀ calls' g, Rearranges calls calls' → (ofCalls calls).build = .ok g →
        (ofCalls calls').build = .ok g := by
  have houtcome : ∀ calls, Outcome (addedNodes calls) (addedEdges calls) (entryAfter calls)
      (ofCalls calls).build := by
    intro calls
    rw [← nodes_ofCalls, ← edges_ofCalls, ← entry_ofCalls]
    exact outcome_build _
  refine ⟨houtcome calls, ?_⟩
  intro calls' g h hok
  have h' := houtcome calls'
  rw [h.addedNodes_eq, h.entryAfter_eq] at h'
  exact (hok ▸ houtcome calls).eq_ok h' h.mem_addedEdges

/-- An edge that is added before its ends are, an entry that is set to no node and then to one, and
an edge that is added twice. -/
theorem outcome_build_ofCalls_sample :
    let node : Node := ⟨"", none, [], []⟩
    let calls : List Call := [.addEdge 1 0, .setEntry 7, .addNode node, .addEdge 0 1, .setEntry 0,
      .addNode node, .addEdge 1 0]
    let calls' : List Call := [.setEntry 7, .addEdge 0 1, .addNode node, .addEdge 1 0, .setEntry 0,
      .addEdge 0 1, .addNode node]
    ∃ g, (ofCalls calls).build = .ok g ∧ (ofCalls calls').build = .ok g ∧
      g.succ 0 = [1] ∧ g.pred 0 = [1] := by
  intro node calls calls'
  have hlists : (ofCalls calls).build.map (fun g => (g.succ 0, g.pred 0)) = .ok ([1], [1]) := by cbv
  have hedges : ∀ edge, edge ∈ addedEdges calls' ↔ edge ∈ addedEdges calls := by
    intro edge
    show edge ∈ [(0, 1), (1, 0), (0, 1)] ↔ edge ∈ [(1, 0), (0, 1), (1, 0)]
    simp only [List.mem_cons, List.not_mem_nil, or_false]
    exact ⟨by tauto, by tauto⟩
  cases hok : (ofCalls calls).build with
  | error e =>
    rw [hok] at hlists
    cases hlists
  | ok g =>
    rw [hok] at hlists
    obtain ⟨hsucc, hpred⟩ := Prod.mk.inj (Except.ok.inj hlists)
    exact ⟨g, rfl, (outcome_build_ofCalls calls).2 calls' g ⟨rfl, hedges⟩ hok, hsucc, hpred⟩

end Builder

end DefiniteAssignment
