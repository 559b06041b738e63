import DefiniteAssignment.Proofs.Graph.Dump
import DefiniteAssignment.Proofs.Guarantee.AllPaths
/-!
# What a compact report says

The compact report of a graph has a line for each node, and what is reported for the node can be
read off the line. Two results have the same report exactly if they are for as many nodes and report
the same for each of them:

> `compactReport_decodes`

Lines can be told apart because no name has a line feed in it, and since every line ends in a
bracket or in a letter, nothing of it is taken for a part of the line end. In a line the names stand
in brackets (`Report.nameList_inj`), which a node without an answer does not have, whatever the
variables are called. All this asks something of the names (`Report.IsReportable`), which are those
of the graph: a result that was worked out for it reports no others (`ResultOf.mentions`).
-/

namespace DefiniteAssignment

namespace Report

variable {r r' : Guarantees} {g : Graph} {n : Nat}

/-- A name that can be told from what surrounds it in a report. -/
structure IsReportable (name : String) : Prop extends IsListable name where
  lineFeed : '\n' ∉ name.toList

/-- Identifiers are among the names that a report can be read back with. -/
theorem isReportable_of_isIdentifier {name : String} (h : isIdentifier name) :
    IsReportable name where
  ne_nil := by
    obtain ⟨c, cs, hname, -⟩ := isIdentifier_iff.1 h
    simp [hname]
  notMem hmem := by cases isIdentChar_of_isIdentifier h _ hmem
  lineFeed hmem := by cases isIdentChar_of_isIdentifier h _ hmem

section Answers

/-- A node that is left out is never reported like one with names. -/
theorem guaranteed_none_ne (names : List String) : guaranteed none ≠ guaranteed (some names) := by
  intro heq
  obtain ⟨mid, hlist⟩ := exists_toList_nameList names
  rw [← String.toList_inj, guaranteed, guaranteed, hlist] at heq
  cases heq

/-- The first characters tell whether there is an answer, and the names tell which. -/
theorem guaranteed_inj {defined defined' : Option (List String)}
    (h : ∀ names ∈ defined, ∀ name ∈ names, IsListable name)
    (h' : ∀ names ∈ defined', ∀ name ∈ names, IsListable name) :
    guaranteed defined = guaranteed defined' ↔ defined = defined' := by
  refine ⟨fun heq => ?_, congrArg guaranteed⟩
  cases defined with
  | none =>
    cases defined' with
    | none => rfl
    | some names => exact absurd heq (guaranteed_none_ne names)
  | some names =>
    cases defined' with
    | none => exact absurd heq.symm (guaranteed_none_ne names)
    | some names' => exact congrArg some ((nameList_inj (h names rfl) (h' names' rfl)).1 heq)

/-- Without line feeds in its names, an answer stands on one line. -/
theorem lineFeed_notMem_guaranteed {defined : Option (List String)}
    (h : ∀ names ∈ defined, ∀ name ∈ names, '\n' ∉ name.toList) :
    '\n' ∉ (guaranteed defined).toList := by
  cases defined with
  | none => decide
  | some names =>
    have hall : ∀ c ∈ (nameList names).toList, c ≠ '\n' :=
      forall_mem_nameList (by simp) fun name hname c hc heq => h names rfl name hname (heq ▸ hc)
    exact fun hmem => hall '\n' hmem rfl

/-- An answer ends in a letter or a bracket, so in nothing that is trimmed. -/
theorem getLast?_guaranteed (defined : Option (List String)) :
    (guaranteed defined).toList.getLast? = some 'e' ∨
      (guaranteed defined).toList.getLast? = some ']' := by
  cases defined with
  | none => exact .inl (by decide)
  | some names =>
    obtain ⟨mid, hlist⟩ := exists_toList_nameList names
    refine .inr ?_
    rw [guaranteed, hlist, ← List.cons_append, List.getLast?_concat]

end Answers

section Lines

/-- The line of a node in the compact layout, without its end. -/
def compactLine (r : Guarantees) (n : Nat) : String :=
  nodeName n ++ ": " ++ guaranteed (r.definedAt? n)

/-- A compact report is a line for each node, with a line feed behind it. -/
theorem toList_render_compact (g : Graph) (r : Guarantees) :
    (render g r .compact).toList =
      ((List.range g.size).map fun n => (compactLine r n).toList).flatMap (· ++ ['\n']) := by
  have hrange : g.nodes.toList.zipIdx.map Prod.snd = List.range g.size := by
    rw [List.zipIdx_map_snd, Array.length_toList, List.range_eq_range']
    rfl
  have hentries : g.nodes.toList.zipIdx.map (fun entry => compactEntry r entry.2) =
      (List.range g.size).map (compactEntry r) := by
    rw [← hrange, List.map_map]
    rfl
  show (String.join (g.nodes.toList.zipIdx.map fun entry => compactEntry r entry.2)).toList = _
  rw [hentries]
  simp [String.toList_join, List.flatMap_map, compactEntry, compactLine]

/-- What is reported of a node is one line. -/
theorem isLine_compactLine (h : ∀ names ∈ r.definedAt? n, ∀ name ∈ names, '\n' ∉ name.toList) :
    Text.IsLine (compactLine r n).toList where
  notMem := by
    have hname : '\n' ∉ (nodeName n).toList := fun hmem => by
      cases isIdentChar_of_mem_nodeName _ hmem
    simp [compactLine, hname, lineFeed_notMem_guaranteed h]
  getLast?_ne := by
    rw [compactLine, String.toList_append, List.getLast?_append]
    rcases getLast?_guaranteed (r.definedAt? n) with hlast | hlast <;> simp [hlast]

/-- Lines for the same node differ exactly if their answers do. -/
theorem compactLine_inj (h : ∀ names ∈ r.definedAt? n, ∀ name ∈ names, IsListable name)
    (h' : ∀ names ∈ r'.definedAt? n, ∀ name ∈ names, IsListable name) :
    compactLine r n = compactLine r' n ↔ r.definedAt? n = r'.definedAt? n := by
  rw [compactLine, compactLine, String.append_right_inj, guaranteed_inj h h']

end Lines

end Report

namespace Guarantees

open Report

variable {g g' : Graph} {r r' : Guarantees} {config : Config}

/-- A result of the analysis of a graph, with dominators that were found for it or with others. -/
def ResultOf (g : Graph) (r : Guarantees) : Prop :=
  ∃ config, (compute g config).value = .ok r ∨ ∃ d, (withDominators g d config).value = .ok r

/-- A result is what some solution says under some policy. -/
theorem ResultOf.exists_solution (h : ResultOf g r) :
    ∃ policy generate solution, r = ofSolution g policy generate solution := by
  obtain ⟨config, h | ⟨d, h⟩⟩ := h
  · obtain ⟨d, solution, -, -, hr⟩ := Guarantees.exists_solution h
    exact ⟨_, _, solution, hr⟩
  · by_cases hsize : d.size = g.size
    · obtain ⟨solution, -, hr⟩ :=
        Flow.map_eq_ok_iff.1 ((value_withDominators hsize config).symm.trans h)
      exact ⟨_, _, solution, hr.symm⟩
    · rw [withDominators, if_pos hsize] at h
      cases h

/-- A result answers for each node of its graph. -/
theorem ResultOf.size_eq (h : ResultOf g r) : r.size = g.size := by
  obtain ⟨policy, generate, solution, rfl⟩ := h.exists_solution
  simp [size, ofSolution]

/-- Only variables of the graph are reported. -/
theorem ResultOf.mentions (h : ResultOf g r) {n : Nat} {names : List String} {v : String}
    (hnames : r.definedAt? n = some names) (hv : v ∈ names) : g.Mentions v := by
  obtain ⟨policy, generate, solution, rfl⟩ := h.exists_solution
  have hlt : n < g.size := by
    by_contra hge
    simp [ofSolution, definedAt?, hge] at hnames
  rw [definedAt?_ofSolution hlt] at hnames
  rw [← Graph.mem_locals]
  by_cases hn : g.Reaches n
  · rw [resultAt_of_reaches hn] at hnames
    obtain ⟨set, -, rfl⟩ := Option.map_eq_some_iff.1 hnames
    obtain ⟨i, -, hi⟩ := List.mem_filterMap.1 hv
    exact List.mem_of_getElem? (List.getElem?_toArray ▸ hi)
  · cases policy with
    | exclude => cases (resultAt_exclude hn _ _).symm.trans hnames
    | top =>
      obtain rfl := Option.some.inj ((resultAt_top hn _ _).symm.trans hnames)
      exact hv

/-- The lines of a compact report, in the order of the nodes. -/
theorem lines_render_compact (h : ResultOf g r) (hnames : ∀ v, g.Mentions v → IsReportable v) :
    Text.lines (render g r .compact).toList =
      (List.range g.size).map fun n => (compactLine r n).toList := by
  rw [toList_render_compact]
  refine Text.lines_flatMap fun line hline => ?_
  obtain ⟨n, -, rfl⟩ := List.mem_map.1 hline
  exact isLine_compactLine fun names hn v hv => (hnames v (h.mentions hn hv)).lineFeed

/-- Beyond the nodes of the graph there is no answer. -/
theorem ResultOf.definedAt?_eq_none (h : ResultOf g r) {n : Nat} (hn : g.size ≤ n) :
    r.definedAt? n = none := by
  rw [← h.size_eq, size] at hn
  rw [definedAt?, Array.getElem?_eq_none hn]
  rfl

/-- What is reported can be read off the lines. -/
theorem render_compact_inj (hr : ResultOf g r) (hr' : ResultOf g' r')
    (hnames : ∀ v, g.Mentions v → IsReportable v)
    (hnames' : ∀ v, g'.Mentions v → IsReportable v) :
    render g r .compact = render g' r' .compact ↔
      r.size = r'.size ∧ ∀ n, r.definedAt? n = r'.definedAt? n := by
  rw [hr.size_eq, hr'.size_eq]
  constructor
  · intro heq
    have hlines := lines_render_compact hr hnames
    rw [heq, lines_render_compact hr' hnames'] at hlines
    have hsize : g.size = g'.size := by simpa using (congrArg List.length hlines).symm
    refine ⟨hsize, fun n => ?_⟩
    by_cases hn : n < g.size
    · have hline : (compactLine r' n).toList = (compactLine r n).toList := by
        simpa [hn, hsize ▸ hn] using congrArg (·[n]?) hlines
      refine (compactLine_inj ?_ ?_).1 (String.toList_inj.1 hline.symm)
      · exact fun names hdefined v hv => (hnames v (hr.mentions hdefined hv)).toIsListable
      · exact fun names hdefined v hv => (hnames' v (hr'.mentions hdefined hv)).toIsListable
    · rw [hr.definedAt?_eq_none (Nat.le_of_not_lt hn),
        hr'.definedAt?_eq_none (hsize ▸ Nat.le_of_not_lt hn)]
  · rintro ⟨hsize, hdefined⟩
    have hline : compactLine r = compactLine r' := by
      funext n
      rw [compactLine, compactLine, hdefined]
    rw [← String.toList_inj, toList_render_compact, toList_render_compact, hsize, hline]

/-- A compact report has a line for each node, which begins with the node's number. The reports of
two results are the same exactly if the results are for as many nodes and tell the same of each of
them. Nothing told, nothing defined, and a variable by the name of what stands for nothing told are
three different answers. All names of variables that can be written are names for a report. -/
theorem compactReport_decodes (hr : ResultOf g r) (hr' : ResultOf g' r')
    (hnames : ∀ v, g.Mentions v → IsReportable v)
    (hnames' : ∀ v, g'.Mentions v → IsReportable v) :
    ((Text.lines (render g r .compact).toList).length = g.size ∧
      ∀ n < g.size, ∃ answer, (Text.lines (render g r .compact).toList)[n]? =
        some (("inst" ++ toString n ++ ": ").toList ++ answer)) ∧
    (render g r .compact = render g' r' .compact ↔
      r.size = r'.size ∧ ∀ n, r.definedAt? n = r'.definedAt? n) ∧
    (∀ names, (∀ v ∈ names, IsReportable v) → "unreachable" ∈ names →
      [guaranteed none, guaranteed (some []), guaranteed (some names)].Nodup) ∧
    ∀ v, isIdentifier v → IsReportable v := by
  refine ⟨⟨?_, fun n hn => ?_⟩, render_compact_inj hr hr' hnames hnames', ?_,
    fun v => isReportable_of_isIdentifier⟩
  · simp [lines_render_compact hr hnames]
  · refine ⟨(guaranteed (r.definedAt? n)).toList, ?_⟩
    rw [lines_render_compact hr hnames, List.getElem?_map, List.getElem?_range hn, Option.map_some,
      compactLine, nodeName, String.toList_append]
  · intro names hlist hmem
    have hlistable : ∀ v ∈ names, IsListable v := fun v hv => (hlist v hv).toIsListable
    have hempty : guaranteed (some []) ≠ guaranteed (some names) := fun heq => by
      obtain rfl : [] = names :=
        Option.some.inj ((guaranteed_inj (by simp) (by simpa using hlistable)).1 heq)
      cases hmem
    simp [hempty, guaranteed_none_ne]

/-- The policy decides about the last node of the sample, which control cannot get to. A result that
reports all variables there has another report than one that reports none. -/
theorem compactReport_decodes_sample :
    let top : Guarantees :=
      ⟨["a", "b", "c", "d"], #[["a"], ["a", "b"], ["a", "b"], ["a", "c"], ["d"]],
        #[some [], some ["a"], some ["a"], some ["a", "b"], some ["a", "b", "c", "d"]], 6⟩
    let exclude : Guarantees := { top with results := top.results.setIfInBounds 4 none }
    ResultOf .sample top ∧ ResultOf .sample exclude ∧
      (∀ v, Graph.sample.Mentions v → IsReportable v) ∧
      (Text.lines (render .sample top .compact).toList).length = 5 ∧
      render .sample top .compact ≠ render .sample exclude .compact ∧
      [guaranteed none, guaranteed (some []), guaranteed (some ["unreachable"])].Nodup := by
  intro top exclude
  have htop : ResultOf .sample top := ⟨⟨100, .top, .cooper⟩, .inl (by cbv)⟩
  have hexclude : ResultOf .sample exclude := ⟨⟨100, .exclude, .cooper⟩, .inl (by cbv)⟩
  have hlocals : Graph.sample.locals = ["a", "b", "c", "d"] := by cbv
  have hsize : Graph.sample.size = 5 := by cbv
  have hnames : ∀ v, Graph.sample.Mentions v → IsReportable v := by
    intro v hv
    have hident : ∀ v ∈ Graph.sample.locals, isIdentifier v := by
      rw [hlocals]
      decide
    exact isReportable_of_isIdentifier (hident v (Graph.mem_locals.2 hv))
  obtain ⟨⟨hlength, -⟩, hsame, hanswers, hident⟩ :=
    compactReport_decodes htop hexclude hnames hnames
  refine ⟨htop, hexclude, hnames, hlength.trans hsize, fun heq => ?_,
    hanswers ["unreachable"] ?_ (by decide)⟩
  · cases (hsame.1 heq).2 4
  · exact List.forall_mem_singleton.2 (hident "unreachable" (by decide))

end Guarantees

end DefiniteAssignment
