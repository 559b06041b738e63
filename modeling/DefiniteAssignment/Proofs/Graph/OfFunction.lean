import DefiniteAssignment.Proofs.Graph.Edges
/-!
# The graph of a function follows its control

The nodes of the graph of a function are its instructions in the order of the text, its edges are
the control steps between their points, and so the paths from its entry are the control traces of
the function (`Graph.Follows`). A function has a graph unless something is missing that control
could go to: blocks at all, an instruction in a block, or the block that a branch leads to. Of
several such faults the first is reported (`Function.FirstFault`):

> `ofFunction_follows`
-/

namespace DefiniteAssignment

namespace Function

variable {f : Function} {p q : Point} {inst : Inst} {m n : Nat}

/-! ## The first fault -/

/-- The edges out of a node, given the instruction it holds and the point of that. -/
def edgesFrom (f : Function) (node : (Point × Inst) × Nat) : Except GraphError (List (Nat × Nat)) :=
  (f.targetsOf node.2 node.1.1.block node.1.2).map fun targets => targets.map (node.2, ·)

/-- The edges out of an instruction lead to its targets. -/
theorem edgesFrom_eq_ok_iff {edges : List (Nat × Nat)} :
    f.edgesFrom ((p, inst), n) = .ok edges ↔
      ∃ targets, f.targetsOf n p.block inst = .ok targets ∧ targets.map (n, ·) = edges := by
  simp only [edgesFrom]
  cases f.targetsOf n p.block inst <;> simp [Except.map]

/-- An instruction has no edges only if one of its targets is missing. -/
theorem edgesFrom_eq_error_iff {e : GraphError} :
    f.edgesFrom ((p, inst), n) = .error e ↔ f.targetsOf n p.block inst = .error e := by
  simp only [edgesFrom]
  cases f.targetsOf n p.block inst <;> simp [Except.map]

/-- Nothing is missing that control could go to. -/
structure Complete (f : Function) : Prop where
  blocks_ne_nil : f.blocks ≠ []
  nil_notMem_blocks : [] ∉ f.blocks
  leads : ∀ p inst, f.inst? p = some inst → f.Leads inst

/-- The first thing that is missing. -/
inductive FirstFault (f : Function) : GraphError → Prop
  | noBlocks : f.blocks = [] → FirstFault f .noEntry
  | emptyBlock {i : Nat} : f.blocks[i]? = some [] → (∀ j < i, f.blocks[j]? ≠ some []) →
      FirstFault f (.emptyBlock i)
  | missingBlock {before after : List (Point × Inst)} {p : Point} {inst : Inst}
      {found rest : List UInt32} {t : UInt32} : f.blocks ≠ [] → [] ∉ f.blocks →
      f.listing = before ++ (p, inst) :: after → (∀ x ∈ before, f.Leads x.2) →
      inst.targets = found ++ t :: rest → (∀ x ∈ found, x.toNat < f.blocks.length) →
      ¬t.toNat < f.blocks.length → FirstFault f (.unknownBlock p.block t)

/-- Where there is a fault, the function is not complete. -/
theorem FirstFault.not_complete {e : GraphError} (h : f.FirstFault e) : ¬f.Complete := by
  intro hcomplete
  cases h with
  | noBlocks hnil => exact hcomplete.blocks_ne_nil hnil
  | emptyBlock hempty _ => exact hcomplete.nil_notMem_blocks (List.mem_of_getElem? hempty)
  | @missingBlock _ _ p inst _ _ t _ _ hlisting _ htargets _ hnot =>
    have hmem : (p, inst) ∈ f.listing := hlisting ▸ List.mem_append_right _ (List.mem_cons_self ..)
    refine hnot (hcomplete.leads p inst (mem_listing_iff.1 hmem) t ?_)
    exact htargets ▸ List.mem_append_right _ (List.mem_cons_self ..)

/-- The edges of all instructions fail with the first thing that is missing. -/
theorem mapM_edgesFrom_eq_error_iff {e : GraphError} (hblocks : f.blocks ≠ [])
    (hne : [] ∉ f.blocks) : f.listing.zipIdx.mapM f.edgesFrom = .error e ↔ f.FirstFault e := by
  rw [mapM_eq_error_iff]
  constructor
  · rintro ⟨before, ⟨⟨p, inst⟩, n⟩, after, heq, hbefore, herror⟩
    obtain ⟨found, t, rest, htargets, hfound, hnot, rfl⟩ :=
      targetsOf_eq_error_iff.1 (edgesFrom_eq_error_iff.1 herror)
    have hlisting : f.listing = before.map Prod.fst ++ (p, inst) :: after.map Prod.fst := by
      rw [← List.zipIdx_map_fst 0 f.listing, heq, List.map_append, List.map_cons]
    refine .missingBlock hblocks hne hlisting ?_ htargets hfound hnot
    intro x hx
    obtain ⟨⟨⟨q, later⟩, m⟩, hy, rfl⟩ := List.mem_map.1 hx
    obtain ⟨edges, hedges⟩ := hbefore _ hy
    obtain ⟨targets, hok, -⟩ := edgesFrom_eq_ok_iff.1 hedges
    exact exists_targetsOf_iff.1 ⟨targets, hok⟩
  · intro hfault
    cases hfault with
    | noBlocks hnil => exact absurd hnil hblocks
    | emptyBlock hempty _ => exact absurd (List.mem_of_getElem? hempty) hne
    | @missingBlock before after p inst found rest t _ _ hlisting hbefore htargets hfound hnot =>
      refine ⟨before.zipIdx, ((p, inst), before.length), after.zipIdx (before.length + 1),
        ?_, ?_, ?_⟩
      · rw [hlisting, List.zipIdx_append, List.zipIdx_cons, Nat.zero_add]
      · rintro ⟨⟨q, later⟩, m⟩ hmem
        have hq : (q, later) ∈ before := List.fst_mem_of_mem_zipIdx hmem
        obtain ⟨targets, hok⟩ := exists_targetsOf_iff.2 (hbefore _ hq)
        exact ⟨_, edgesFrom_eq_ok_iff.2 ⟨targets, hok, rfl⟩⟩
      · exact edgesFrom_eq_error_iff.2
          (targetsOf_eq_error_iff.2 ⟨found, t, rest, htargets, hfound, hnot, rfl⟩)

/-- The edges of all nodes together. -/
theorem mem_flatten_of_mapM {edges : List (List (Nat × Nat))}
    (h : f.listing.zipIdx.mapM f.edgesFrom = .ok edges) (m n : Nat) :
    (m, n) ∈ edges.flatten ↔ ∃ p inst, f.listing[m]? = some (p, inst) ∧ f.GoesTo m inst n := by
  rw [List.mem_flatten]
  constructor
  · rintro ⟨out, hout, hmem⟩
    obtain ⟨⟨⟨p, inst⟩, k⟩, hnode, hfrom⟩ := ((mapM_eq_ok h).2 out).1 hout
    obtain ⟨targets, htargets, rfl⟩ := edgesFrom_eq_ok_iff.1 hfrom
    obtain ⟨n', hn', heq⟩ := List.mem_map.1 hmem
    obtain ⟨rfl, rfl⟩ := Prod.mk.inj heq
    exact ⟨p, inst, List.mem_zipIdx_iff_getElem?.1 hnode, ((targetsOf_eq_ok htargets).2 n').1 hn'⟩
  · rintro ⟨p, inst, hnode, hgoes⟩
    have hmem : ((p, inst), m) ∈ f.listing.zipIdx := List.mem_zipIdx_iff_getElem?.2 hnode
    obtain ⟨out, hout⟩ := (mapM_eq_ok h).1 _ hmem
    obtain ⟨targets, htargets, rfl⟩ := edgesFrom_eq_ok_iff.1 hout
    refine ⟨_, ((mapM_eq_ok h).2 _).2 ⟨_, hmem, hout⟩, ?_⟩
    exact List.mem_map.2 ⟨n, ((targetsOf_eq_ok htargets).2 n).2 hgoes, rfl⟩

/-- If nothing is missing, there is no first thing that is. -/
theorem complete_or_firstFault (f : Function) : f.Complete ∨ ∃ e, f.FirstFault e := by
  by_cases hblocks : f.blocks = []
  · exact .inr ⟨_, .noBlocks hblocks⟩
  by_cases hne : [] ∈ f.blocks
  · have hempty := List.mem_iff_getElem?.1 hne
    exact .inr ⟨_, .emptyBlock (Nat.find_spec hempty) fun j hj => Nat.find_min hempty hj⟩
  cases hmapM : f.listing.zipIdx.mapM f.edgesFrom with
  | error e => exact .inr ⟨e, (mapM_edgesFrom_eq_error_iff hblocks hne).1 hmapM⟩
  | ok edges =>
    refine .inl ⟨hblocks, hne, ?_⟩
    intro p inst h
    have hmem : ((p, inst), f.position p) ∈ f.listing.zipIdx :=
      List.mem_zipIdx_iff_getElem?.2 (getElem?_listing_iff.2 ⟨h, rfl⟩)
    obtain ⟨out, hout⟩ := (mapM_eq_ok hmapM).1 _ hmem
    obtain ⟨targets, htargets, -⟩ := edgesFrom_eq_ok_iff.1 hout
    exact exists_targetsOf_iff.1 ⟨targets, htargets⟩

end Function

namespace Graph

variable {f : Function}

/-- The builder with a node for each instruction and the edges that were computed. -/
def builderOf (f : Function) (edges : List (List (Nat × Nat))) : Builder :=
  ⟨(f.points.map fun (block, inst) => { Node.ofInst inst with block := some block }).toArray,
    edges.flatten.toArray, some 0⟩

/-- Every instruction is given a node. -/
theorem size_builderOf {edges : List (List (Nat × Nat))} :
    (builderOf f edges).nodes.size = f.instCount := by
  simp [builderOf, Function.points_eq_map_listing, Function.length_listing]

/-- The node of an instruction tells its text, its block and the places that it writes and reads. -/
theorem node_builderOf {edges : List (List (Nat × Nat))} {n : Nat} {p : Point} {inst : Inst}
    (h : f.listing[n]? = some (p, inst)) : (builderOf f edges).nodes[n]? =
      some ⟨inst.toString, some p.block, inst.defs, inst.uses⟩ := by
  simp [builderOf, Function.points_eq_map_listing, h, Node.ofInst]

/-- No edge leads out of the graph if nothing is missing. -/
theorem inRange_builderOf (h : f.Complete) {edges : List (List (Nat × Nat))}
    (hedges : f.listing.zipIdx.mapM f.edgesFrom = .ok edges) :
    ∀ edge ∈ (builderOf f edges).edges.toList,
      Builder.InRange (builderOf f edges).nodes.size edge := by
  rintro ⟨m, n⟩ hedge
  obtain ⟨p, inst, hinst, hgoes⟩ := (Function.mem_flatten_of_mapM hedges m n).1 hedge
  have hleads := h.leads p inst (Function.getElem?_listing_iff.1 hinst).1
  have hm := Function.lt_instCount hinst
  have hn := hgoes.lt_instCount h.nil_notMem_blocks hleads
  rw [Builder.InRange, size_builderOf]
  exact ⟨hm, hn⟩

/-- What is done once it is known that there are blocks and that none of them is empty. -/
theorem ofFunction_eq (hblocks : f.blocks ≠ []) (hne : [] ∉ f.blocks) :
    ofFunction f =
      (f.listing.zipIdx.mapM f.edgesFrom).bind fun edges => (builderOf f edges).build := by
  have hnil : f.blocks.isEmpty = false := by simpa using hblocks
  have hfind : f.blocks.findIdx? List.isEmpty = none := by
    rw [List.findIdx?_eq_none_iff]
    intro block hblock
    rw [List.isEmpty_eq_false_iff]
    exact fun hempty => hne (hempty ▸ hblock)
  -- only the edges go through the listing; the nodes of `builderOf` are read off `points` too
  have hmapM : ∀ visit : (Nat × Inst) × Nat → Except GraphError (List (Nat × Nat)),
      f.points.zipIdx.mapM visit =
        f.listing.zipIdx.mapM (visit ∘ Prod.map (fun node => (node.1.block, node.2)) id) := by
    intro visit
    rw [Function.points_eq_map_listing, List.zipIdx_map, List.mapM_map]
  unfold ofFunction
  rw [hnil, hfind, hmapM]
  rfl

/-- A function with a fault has no graph, and the error is its first fault. -/
theorem ofFunction_of_firstFault {e : GraphError} (h : f.FirstFault e) :
    ofFunction f = .error e := by
  cases h with
  | noBlocks hnil =>
    unfold ofFunction
    rw [hnil]
    rfl
  | @emptyBlock i hempty hfirst =>
    obtain ⟨hi, hblock⟩ := List.getElem?_eq_some_iff.1 hempty
    have hnil : f.blocks.isEmpty = false := by
      rw [List.isEmpty_eq_false_iff_exists_mem]
      exact ⟨[], List.mem_of_getElem? hempty⟩
    have hfind : f.blocks.findIdx? List.isEmpty = some i := by
      rw [List.findIdx?_eq_some_iff_getElem]
      refine ⟨hi, by rw [hblock]; rfl, ?_⟩
      intro j hj hjempty
      apply hfirst j hj
      rw [List.getElem?_eq_getElem (Nat.lt_trans hj hi), List.isEmpty_iff.1 hjempty]
    unfold ofFunction
    rw [hnil, hfind]
    rfl
  | missingBlock hblocks hne hlisting hbefore htargets hfound hnot =>
    have herror := (Function.mapM_edgesFrom_eq_error_iff hblocks hne).2
      (.missingBlock hblocks hne hlisting hbefore htargets hfound hnot)
    rw [ofFunction_eq hblocks hne, herror]
    rfl

/-- The nodes of `g` stand for the points of `f`, and its edges for the control steps. -/
structure Follows (g : Graph) (f : Function) : Prop where
  lt_size_iff : ∀ n, n < g.size ↔ ∃ p, f.StandsFor n p
  /-- Each point at which an instruction stands has a node. -/
  exists_node : ∀ p inst, f.inst? p = some inst → ∃ n, f.StandsFor n p
  node_eq : ∀ n p, f.StandsFor n p → ∃ inst, f.inst? p = some inst ∧
    g.nodes[n]? = some ⟨inst.toString, some p.block, inst.defs, inst.uses⟩
  /-- Nodes are in the order of the text. -/
  lt_iff : ∀ m n p q, f.StandsFor m p → f.StandsFor n q → (m < n ↔ p.Before q)
  entry_eq : g.entry = some 0
  standsFor_entry : f.StandsFor 0 ⟨0, 0⟩
  mem_succ_iff : ∀ m n p q, f.StandsFor m p → f.StandsFor n q →
    (n ∈ g.succ m ↔ f.ControlStep p q)
  path : ∀ l n, g.EntryPath l n →
    ∃ t p, f.ControlTrace t p ∧ List.Forall₂ f.StandsFor l t ∧ f.StandsFor n p
  trace : ∀ t p, f.ControlTrace t p →
    ∃ l n, g.EntryPath l n ∧ List.Forall₂ f.StandsFor l t ∧ f.StandsFor n p

section Follows

variable {g : Graph} (h : f.Complete)
  (hsucc : ∀ m n, n ∈ g.succ m ↔ ∃ p inst, f.listing[m]? = some (p, inst) ∧ f.GoesTo m inst n)
include h hsucc

/-- The edges of the graph are the steps of control. -/
theorem mem_succ_iff_controlStep {m n : Nat} {p q : Point} (hm : f.StandsFor m p)
    (hn : f.StandsFor n q) : n ∈ g.succ m ↔ f.ControlStep p q := by
  obtain ⟨inst, hinst⟩ := hm
  obtain ⟨later, hlater⟩ := hn
  have hleads := h.leads p inst (Function.getElem?_listing_iff.1 hinst).1
  rw [← Function.goesTo_iff_controlStep h.nil_notMem_blocks hleads hinst hlater, hsucc]
  constructor
  · rintro ⟨p', inst', hinst', hgoes⟩
    obtain ⟨rfl, rfl⟩ := Prod.mk.inj (Option.some.inj (hinst.symm.trans hinst'))
    exact hgoes
  · exact fun hgoes => ⟨p, inst, hinst, hgoes⟩

/-- Paths follow traces. -/
theorem exists_trace_of_walk {l : List Nat} {n : Nat} (hentry : f.StandsFor 0 ⟨0, 0⟩)
    (hw : g.successors.Walk 0 l n) :
    ∃ t p, f.ControlTrace t p ∧ List.Forall₂ f.StandsFor l t ∧ f.StandsFor n p := by
  induction hw with
  | nil => exact ⟨[], ⟨0, 0⟩, .start, .nil, hentry⟩
  | @snoc l m n _ hedge ih =>
    obtain ⟨t, p, ht, hl, hm⟩ := ih
    obtain ⟨p', inst, hinst, hgoes⟩ := (hsucc m n).1 hedge
    have hleads := h.leads p' inst (Function.getElem?_listing_iff.1 hinst).1
    have hlt := hgoes.lt_instCount h.nil_notMem_blocks hleads
    rw [← Function.length_listing] at hlt
    have hn : f.StandsFor n f.listing[n].1 := ⟨_, List.getElem?_eq_getElem hlt⟩
    refine ⟨t ++ [p], _, ht.snoc ((mem_succ_iff_controlStep h hsucc hm hn).1 hedge), ?_, hn⟩
    exact List.rel_append hl (.cons hm .nil)

/-- Traces follow paths. -/
theorem exists_path_of_trace {t : List Point} {p : Point} (hzero : g.entry = some 0)
    (hentry : f.StandsFor 0 ⟨0, 0⟩) (ht : f.ControlTrace t p) :
    ∃ l n, g.EntryPath l n ∧ List.Forall₂ f.StandsFor l t ∧ f.StandsFor n p := by
  induction ht with
  | start => exact ⟨[], 0, ⟨0, hzero, .nil⟩, .nil, hentry⟩
  | @snoc t p q _ hstep ih =>
    obtain ⟨l, m, hl, hforall, hm⟩ := ih
    obtain ⟨later, hlater⟩ := hstep.exists_inst? h.nil_notMem_blocks fun inst => h.leads p inst
    have hn : f.StandsFor (f.position q) q := Function.standsFor_iff.2 ⟨later, hlater, rfl⟩
    exact ⟨l ++ [m], _, hl.snoc ((mem_succ_iff_controlStep h hsucc hm hn).2 hstep),
      List.rel_append hforall (.cons hm .nil), hn⟩

end Follows

/-- A complete function has a graph that follows it. -/
theorem exists_of_complete (h : f.Complete) : ∃ g, ofFunction f = .ok g ∧ g.Follows f := by
  cases hmapM : f.listing.zipIdx.mapM f.edgesFrom with
  | error e =>
    have hfault : f.FirstFault e :=
      (Function.mapM_edgesFrom_eq_error_iff h.blocks_ne_nil h.nil_notMem_blocks).1 hmapM
    exact absurd h hfault.not_complete
  | ok edges =>
    have hnonempty : 0 < f.blocks.length := List.length_pos_of_ne_nil h.blocks_ne_nil
    obtain ⟨first, hfirst⟩ := Function.exists_inst?_zero h.nil_notMem_blocks hnonempty
    have hentry : f.StandsFor 0 ⟨0, 0⟩ := Function.standsFor_iff.2 ⟨first, hfirst, by rfl⟩
    have hzero : 0 < (builderOf f edges).nodes.size :=
      size_builderOf ▸ Function.lt_instCount hentry.choose_spec
    obtain ⟨g, hbuild, hnodes, hentry_eq, hedges⟩ :=
      (builderOf f edges).exists_build rfl hzero (inRange_builderOf h hmapM)
    have hsucc : ∀ m n, n ∈ g.succ m ↔
        ∃ p inst, f.listing[m]? = some (p, inst) ∧ f.GoesTo m inst n :=
      fun m n => (hedges m n).trans (Function.mem_flatten_of_mapM hmapM m n)
    have hok : ofFunction f = .ok g := by
      rw [ofFunction_eq h.blocks_ne_nil h.nil_notMem_blocks, hmapM]
      exact hbuild
    refine ⟨g, hok, ?_⟩
    constructor
    case lt_size_iff =>
      intro n
      rw [Graph.size, hnodes, size_builderOf, ← Function.length_listing]
      constructor
      · exact fun hn => ⟨_, _, List.getElem?_eq_getElem hn⟩
      · rintro ⟨p, inst, hinst⟩
        exact (List.getElem?_eq_some_iff.1 hinst).1
    case exists_node =>
      intro p inst hinst
      exact ⟨_, Function.standsFor_iff.2 ⟨inst, hinst, rfl⟩⟩
    case node_eq =>
      rintro n p ⟨inst, hinst⟩
      refine ⟨inst, (Function.getElem?_listing_iff.1 hinst).1, ?_⟩
      rw [hnodes]
      exact node_builderOf hinst
    case lt_iff => exact fun m n p q => Function.StandsFor.lt_iff
    case entry_eq => exact hentry_eq
    case standsFor_entry => exact hentry
    case mem_succ_iff => exact fun m n p q => mem_succ_iff_controlStep h hsucc
    case path =>
      rintro l n ⟨e, he, hw⟩
      obtain rfl : e = 0 := Option.some.inj (he.symm.trans hentry_eq)
      exact exists_trace_of_walk h hsucc hentry hw
    case trace => exact fun t p ht => exists_path_of_trace h hsucc hentry_eq hentry ht

/-- A graph that a function has follows it. -/
theorem follows_of_ofFunction {g : Graph} (h : ofFunction f = .ok g) : g.Follows f := by
  rcases f.complete_or_firstFault with hcomplete | ⟨e, hfault⟩
  · obtain ⟨g', hok, hfollows⟩ := exists_of_complete hcomplete
    exact Except.ok.inj (hok.symm.trans h) ▸ hfollows
  · cases h.symm.trans (ofFunction_of_firstFault hfault)

end Graph

end DefiniteAssignment
