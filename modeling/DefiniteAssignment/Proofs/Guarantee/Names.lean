import DefiniteAssignment.Guarantee.Analysis
import DefiniteAssignment.Proofs.BitSet.Listing
/-!
# Names and sets of places

The analysis of guaranteed definitions works on sets of places in the list of all locals. The list
is strictly ascending, so that each name has one place in it; hence the set of the places of some
names holds the places of exactly those names (`contains_indexSet`), and reading a set back gives
the names at its places in ascending order (`mem_namesOf`, `pairwise_namesOf`).
-/

namespace DefiniteAssignment

namespace Ascending

variable {κ : Type} [LT κ] [DecidableLT κ] [Trans (α := κ) (· < ·) (· < ·) (· < ·)]
  [Std.Trichotomous (α := κ) (· < ·)]

/-- Inserting one after another keeps a list ascending and adds exactly what is inserted. -/
theorem foldl_insert {l set : List κ} (hset : set.Pairwise (· < ·)) :
    (l.foldl (fun set x => insert x set) set).Pairwise (· < ·) ∧
      ∀ z, z ∈ l.foldl (fun set x => insert x set) set ↔ z ∈ l ∨ z ∈ set := by
  induction l generalizing set with
  | nil => exact ⟨hset, fun z => by simp⟩
  | cons x l ih =>
    obtain ⟨hpairwise, hmem⟩ := ih (pairwise_insert (x := x) hset)
    refine ⟨hpairwise, ?_⟩
    intro z
    rw [List.foldl_cons, hmem, mem_insert, List.mem_cons, or_left_comm, or_assoc]

/-- The list made of some names is ascending, so it has each name once. -/
theorem pairwise_ofList (l : List κ) : (ofList l).Pairwise (· < ·) :=
  (foldl_insert List.Pairwise.nil).1

theorem mem_ofList {l : List κ} {z : κ} : z ∈ ofList l ↔ z ∈ l :=
  ((foldl_insert List.Pairwise.nil).2 z).trans (or_iff_left (by simp))

end Ascending

theorem Place.local?_eq_some {p : Place} {v : String} : p.local? = some v ↔ p = .loc v := by
  cases p <;> simp [Place.local?]

/-- The locals that a node defines are those among the places that it writes. -/
theorem Node.mem_localDefs {node : Node} {v : String} :
    v ∈ node.localDefs ↔ Place.loc v ∈ node.defs := by
  simp [Node.localDefs, Place.local?_eq_some]

/-- The locals that a node uses are those among the places that it reads. -/
theorem Node.mem_localUses {node : Node} {v : String} :
    v ∈ node.localUses ↔ Place.loc v ∈ node.uses := by
  simp [Node.localUses, Place.local?_eq_some]

namespace Graph

variable {g : Graph} {v : String}

/-- Node `d` writes the local `v`. -/
def Defines (g : Graph) (d : Nat) (v : String) : Prop :=
  ∃ node, g.nodes[d]? = some node ∧ Place.loc v ∈ node.defs

/-- Some node writes or reads the local `v`. -/
def Mentions (g : Graph) (v : String) : Prop :=
  ∃ node ∈ g.nodes, Place.loc v ∈ node.defs ∨ Place.loc v ∈ node.uses

/-- What a node defines is mentioned in the graph. -/
theorem Defines.mentions {d : Nat} (h : g.Defines d v) : g.Mentions v := by
  obtain ⟨node, hnode, hv⟩ := h
  exact ⟨node, Array.mem_of_getElem? hnode, .inl hv⟩

/-- The locals of a graph are ascending. -/
theorem pairwise_locals (g : Graph) : g.locals.Pairwise (· < ·) :=
  Ascending.pairwise_ofList _

theorem nodup_locals (g : Graph) : g.locals.Nodup :=
  g.pairwise_locals.imp Std.ne_of_lt

/-- The locals of a graph are the names mentioned in it. -/
theorem mem_locals : v ∈ g.locals ↔ g.Mentions v := by
  rw [locals, Ascending.mem_ofList, List.mem_flatMap]
  simp only [Mentions, List.mem_append, Node.mem_localDefs, Node.mem_localUses,
    Array.mem_toList_iff]

end Graph

namespace Guarantees

variable {names locals : List String} {set : BitSet} {v : String}

/-- Adds the place of a name to a set. -/
def place (locals : List String) (set : BitSet) (name : String) : BitSet :=
  match locals.idxOf? name with
  | some i => set.insert i
  | none => set

theorem indexSet_eq (locals names : List String) :
    indexSet locals names = names.foldl (place locals) (BitSet.empty locals.length) := rfl

section Places

variable (hnodup : locals.Nodup)
include hnodup

/-- A name has at most one place. -/
theorem place_spec (hset : BitSet.Over locals.length set) (name : String) :
    BitSet.Over locals.length (place locals set name) ∧ ∀ i,
      (place locals set name).contains i = true ↔
        locals[i]? = some name ∨ set.contains i = true := by
  unfold place
  cases hidx : locals.idxOf? name with
  | none =>
    refine ⟨hset, ?_⟩
    intro i
    have hnot : locals[i]? ≠ some name := by
      intro hi
      exact List.idxOf?_eq_none_iff.1 hidx (List.mem_of_getElem? hi)
    exact (or_iff_right hnot).symm
  | some k =>
    obtain ⟨hk, rfl, -⟩ := List.idxOf?_eq_some_iff.1 hidx
    refine ⟨BitSet.over_insert hset k, ?_⟩
    intro i
    rw [BitSet.contains_insert_iff hset hk, ← List.getElem?_eq_getElem hk]
    have hplace : i = k ↔ locals[i]? = locals[k]? := by
      rw [eq_comm, ← List.getElem?_inj hk hnodup]
      exact eq_comm
    exact or_congr_left hplace

/-- Placing names one after another adds the indices that they have among the locals. -/
theorem foldl_place (hset : BitSet.Over locals.length set) :
    BitSet.Over locals.length (names.foldl (place locals) set) ∧ ∀ i,
      (names.foldl (place locals) set).contains i = true ↔
        (∃ v ∈ names, locals[i]? = some v) ∨ set.contains i = true := by
  induction names generalizing set with
  | nil => exact ⟨hset, by simp⟩
  | cons name names ih =>
    obtain ⟨hone, hmem⟩ := place_spec hnodup hset name
    obtain ⟨hover, hall⟩ := ih hone
    refine ⟨hover, ?_⟩
    intro i
    rw [List.foldl_cons, hall, hmem]
    simp only [List.mem_cons, or_and_right, exists_or, exists_eq_left]
    rw [or_left_comm, or_assoc]

/-- A set of indices has the locals for its capacity. -/
theorem over_indexSet (names : List String) :
    BitSet.Over locals.length (indexSet locals names) :=
  (foldl_place hnodup (BitSet.over_empty _)).1

/-- The set of the places of some names holds no place of another name. -/
theorem contains_indexSet {i : Nat} (hi : locals[i]? = some v) :
    (indexSet locals names).contains i = true ↔ v ∈ names := by
  rw [indexSet_eq, (foldl_place hnodup (BitSet.over_empty _)).2, BitSet.contains_empty, hi]
  simp

end Places

/-- The names of a set are the locals at its members. -/
theorem mem_namesOf (hset : BitSet.Over locals.length set) :
    v ∈ namesOf locals.toArray set ↔ ∃ i, locals[i]? = some v ∧ set.contains i = true := by
  simp only [namesOf, List.mem_filterMap, hset.mem_toList, List.getElem?_toArray]
  exact exists_congr fun i => And.comm

/-- Names are read back in the order of the list. -/
theorem pairwise_namesOf (hlocals : locals.Pairwise (· < ·)) (set : BitSet) :
    (namesOf locals.toArray set).Pairwise (· < ·) := by
  rw [namesOf, List.pairwise_filterMap]
  refine (BitSet.pairwise_toList set).imp ?_
  intro i j hij v hv w hw
  rw [List.getElem?_toArray] at hv hw
  obtain ⟨hi, rfl⟩ := List.getElem?_eq_some_iff.1 hv
  obtain ⟨hj, rfl⟩ := List.getElem?_eq_some_iff.1 hw
  exact List.pairwise_iff_getElem.1 hlocals i j hi hj hij

end Guarantees

end DefiniteAssignment
