import Mathlib.Data.List.Sort
import DefiniteAssignment.Graph.Dump
import DefiniteAssignment.Proofs.Grammar.Printed
import DefiniteAssignment.Proofs.Text.Lines
/-!
# What a dump says of a graph

A dump can be read as the graph it is made from, as far as nodes and edges go. Two graphs with the
same entry have the same dump exactly if they have as many nodes and each node has the same
successors:

> `Graph.dump_eq_iff : g.dump = g'.dump ↔ g.SameEdges g'`

The edges are read off the section between two headings, which no line of any section repeats, so
the section can be cut out without knowing how long the others are. A line of it is read off from
the brackets: names without a comma in them can be told apart by the commas between them
(`Report.nameList_inj`). Conversely all other sections are worked out from the edges and the entry.
-/

namespace DefiniteAssignment

open Grammar (Stops stops_cons takeWhile_append_of_stops dropWhile_append_of_stops
  digits_toString isIdentChar_of_isDigit)
open Text (isIdentChar)

namespace Report

section NameLists

/-- What stands behind the first name of a list, up to the bracket that closes it. -/
def laterNames (names : List String) : List Char :=
  names.flatMap fun name => ',' :: ' ' :: name.toList

theorem toList_nameList_nil : (nameList []).toList = ['[', ']'] := rfl

/-- A list of names is its first name and the later ones, between brackets. -/
theorem toList_nameList_cons (name : String) (names : List String) :
    (nameList (name :: names)).toList = '[' :: (name.toList ++ laterNames names ++ [']']) := by
  have hlater :
      ", ".intercalate (name :: names) = String.ofList (name.toList ++ laterNames names) := by
    induction names generalizing name with
    | nil => simp [laterNames]
    | cons next names ih =>
      rw [String.intercalate_cons_cons, ih]
      simp [laterNames, ← String.toList_inj]
  simp [nameList, hlater]

/-- A name that can be told from what surrounds it in a list. -/
structure IsListable (name : String) : Prop where
  ne_nil : name.toList ≠ []
  notMem : ',' ∉ name.toList

/-- A name ends where the first comma stands. -/
theorem append_laterNames_inj {name name' : String} {names names' : List String}
    (hname : IsListable name) (hname' : IsListable name')
    (h : name.toList ++ laterNames names = name'.toList ++ laterNames names') :
    name = name' ∧ laterNames names = laterNames names' := by
  have hrun {name : String} (hname : IsListable name) : ∀ c ∈ name.toList, (c != ',') = true := by
    intro c hc
    simpa using ne_of_mem_of_not_mem hc hname.notMem
  have hstops (names : List String) : Stops (· != ',') (laterNames names) := by
    cases names <;> simp [laterNames]
  constructor
  · rw [← String.toList_inj, ← takeWhile_append_of_stops (hrun hname) (hstops names), h,
      takeWhile_append_of_stops (hrun hname') (hstops names')]
  · rw [← dropWhile_append_of_stops (hrun hname) (hstops names), h,
      dropWhile_append_of_stops (hrun hname') (hstops names')]

/-- The names behind the first one can be told apart. -/
theorem laterNames_inj {names names' : List String} (hnames : ∀ name ∈ names, IsListable name)
    (hnames' : ∀ name ∈ names', IsListable name) (h : laterNames names = laterNames names') :
    names = names' := by
  induction names generalizing names' with
  | nil =>
    cases names' with
    | nil => rfl
    | cons name' names' => cases h
  | cons name names ih =>
    cases names' with
    | nil => cases h
    | cons name' names' =>
      obtain ⟨hname, hlater⟩ := List.forall_mem_cons.1 hnames
      obtain ⟨hname', hlater'⟩ := List.forall_mem_cons.1 hnames'
      obtain ⟨rfl, heq⟩ : name = name' ∧ laterNames names = laterNames names' :=
        append_laterNames_inj hname hname' (by simpa [laterNames] using h)
      rw [ih hlater hlater' heq]

/-- The names in brackets can be read back. -/
theorem nameList_inj {names names' : List String} (hnames : ∀ name ∈ names, IsListable name)
    (hnames' : ∀ name ∈ names', IsListable name) :
    nameList names = nameList names' ↔ names = names' := by
  refine ⟨fun h => ?_, congrArg nameList⟩
  have hne {name : String} (names : List String) (hname : IsListable name) :
      nameList [] ≠ nameList (name :: names) := by
    intro heq
    rw [← String.toList_inj, toList_nameList_nil, toList_nameList_cons] at heq
    have hnil : [] = name.toList ++ laterNames names :=
      List.append_cancel_right (List.cons.inj heq).2
    exact hname.ne_nil (List.append_eq_nil_iff.1 hnil.symm).1
  cases names with
  | nil =>
    cases names' with
    | nil => rfl
    | cons name' names' => exact absurd h (hne names' (List.forall_mem_cons.1 hnames').1)
  | cons name names =>
    cases names' with
    | nil => exact absurd h.symm (hne names (List.forall_mem_cons.1 hnames).1)
    | cons name' names' =>
      obtain ⟨hname, hlater⟩ := List.forall_mem_cons.1 hnames
      obtain ⟨hname', hlater'⟩ := List.forall_mem_cons.1 hnames'
      rw [← String.toList_inj, toList_nameList_cons, toList_nameList_cons] at h
      obtain ⟨rfl, heq⟩ :=
        append_laterNames_inj hname hname' (List.append_cancel_right (List.cons.inj h).2)
      rw [laterNames_inj hlater hlater' heq]

/-- What holds of the characters of all names and of the signs around them holds of a list. -/
theorem forall_mem_nameList {p : Char → Prop} {names : List String}
    (hsigns : ∀ c ∈ ['[', ',', ' ', ']'], p c) (hnames : ∀ name ∈ names, ∀ c ∈ name.toList, p c) :
    ∀ c ∈ (nameList names).toList, p c := by
  cases names with
  | nil => simp_all [toList_nameList_nil]
  | cons name names =>
    simp only [toList_nameList_cons, laterNames, List.mem_cons, List.mem_append, List.mem_flatMap]
    grind

/-- Every list of names stands between brackets. -/
theorem exists_toList_nameList (names : List String) :
    ∃ mid, (nameList names).toList = '[' :: (mid ++ [']']) :=
  ⟨(", ".intercalate names).toList, by simp [nameList]⟩

end NameLists

section NodeNames

theorem toList_nodeName (n : Nat) :
    (nodeName n).toList = 'i' :: 'n' :: 's' :: 't' :: (toString n).toList := by
  simp [nodeName]

/-- The name of a node consists of the characters of identifiers. -/
theorem isIdentChar_of_mem_nodeName {n : Nat} : ∀ c ∈ (nodeName n).toList, isIdentChar c := by
  simp only [toList_nodeName, List.forall_mem_cons]
  exact ⟨rfl, rfl, rfl, rfl, fun c hc => isIdentChar_of_isDigit ((digits_toString n).isDigit c hc)⟩

/-- The name of a node may stand in a list. -/
theorem isListable_nodeName (n : Nat) : IsListable (nodeName n) where
  ne_nil := by simp [toList_nodeName]
  notMem h := by cases isIdentChar_of_mem_nodeName _ h

/-- A node can be told from its name, since a number can be read off its digits. -/
theorem nodeName_inj {m n : Nat} : nodeName m = nodeName n ↔ m = n := by
  refine ⟨fun h => ?_, congrArg nodeName⟩
  rw [nodeName, nodeName, String.append_right_inj] at h
  calc m = Nat.ofDigitChars 10 (toString m).toList 0 := (digits_toString m).value.symm
    _ = Nat.ofDigitChars 10 (toString n).toList 0 := by rw [h]
    _ = n := (digits_toString n).value

/-- Lists of nodes are told apart by the texts they are printed as. -/
theorem nodeList_inj {ms ns : List Nat} : nodeList ms = nodeList ns ↔ ms = ns := by
  have hlistable (ns : List Nat) : ∀ name ∈ ns.map nodeName, IsListable name :=
    List.forall_mem_map.2 fun n _ => isListable_nodeName n
  rw [nodeList, nodeList, nameList_inj (hlistable ms) (hlistable ns)]
  exact (List.map_injective_iff.2 fun m n => nodeName_inj.1).eq_iff

end NodeNames

end Report

namespace Graph

open Report
open Text (IsNormal isTrimmed isTrimmed_of_forall isTrimmed_append isWhiteSpace
  isWhiteSpace_eq_false_of_isIdentChar)

variable {g g' : Graph}

/-- Two graphs have the same number of nodes, and each node has the same successors in both. -/
def SameEdges (g g' : Graph) : Prop :=
  g.size = g'.size ∧ ∀ n m, m ∈ g.succ n ↔ m ∈ g'.succ n

/-- The line of a dump that tells the successors of a node. -/
def edgeLine (g : Graph) (n : Nat) : String :=
  nodeName n ++ " -> " ++ nodeList (g.succ n)

/-- The lines of a dump behind those that tell the successors. -/
def laterLines (g : Graph) : List String :=
  (List.range g.size).map (fun n => nodeName n ++ ": " ++ nodeList (g.pred n)) ++
    ["exits: " ++ nodeList g.exits]

/-- The sections of a dump, with the headings between them. -/
theorem dump_eq (g : Graph) :
    g.dump = "cfg_postorder:" :: (g.reversePostOrder.reverse.map nodeName ++
      "edges:" :: ((List.range g.size).map g.edgeLine ++ "predecessors:" :: g.laterLines)) := by
  simp [dump, edgeLine, laterLines]

theorem dump_ne_nil (g : Graph) : g.dump ≠ [] := by
  simp [dump_eq]

/-- The lines that a dump can have. -/
inductive DumpLine : String → Prop where
  | heading {text : String} (mem : text ∈ ["cfg_postorder:", "edges:", "predecessors:"]) :
      DumpLine text
  | node (n : Nat) : DumpLine (nodeName n)
  | successors (n : Nat) (targets : List Nat) :
      DumpLine (nodeName n ++ " -> " ++ nodeList targets)
  | predecessors (n : Nat) (sources : List Nat) :
      DumpLine (nodeName n ++ ": " ++ nodeList sources)
  | exits (nodes : List Nat) : DumpLine ("exits: " ++ nodeList nodes)

/-- Every line of a dump has one of the forms that such lines have. -/
theorem dumpLine_of_mem {line : String} (h : line ∈ g.dump) : DumpLine line := by
  simp only [dump_eq, laterLines, List.mem_cons, List.mem_append, List.mem_map,
    List.not_mem_nil, or_false] at h
  rcases h with rfl | ⟨n, -, rfl⟩ | rfl | ⟨n, -, rfl⟩ | rfl | ⟨n, -, rfl⟩ | rfl
  · exact .heading (by simp)
  · exact .node n
  · exact .heading (by simp)
  · exact .successors n _
  · exact .heading (by simp)
  · exact .predecessors n _
  · exact .exits _

section Headings

variable {text : String} (htext : text.toList.head? ≠ some 'i')
include htext

/-- A line that begins with the name of a node is none of the headings. -/
theorem nodeName_append_ne (n : Nat) (rest : String) : nodeName n ++ rest ≠ text := by
  rintro rfl
  simp [toList_nodeName] at htext

/-- The lines of the order begin with the names of nodes. -/
theorem notMem_postOrder (nodes : List Nat) : text ∉ nodes.map nodeName := by
  simp only [List.mem_map, not_exists, not_and]
  intro n _
  simpa using nodeName_append_ne htext n ""

/-- The lines of the successors begin with the names of nodes. -/
theorem notMem_edgeLines (g : Graph) : text ∉ (List.range g.size).map g.edgeLine := by
  simp only [List.mem_map, not_exists, not_and, edgeLine, String.append_assoc]
  exact fun n _ => nodeName_append_ne htext n _

/-- The lines behind the successors begin with the names of nodes, but for the last one. -/
theorem notMem_laterLines (g : Graph) (hexits : ∀ nodes, "exits: " ++ nodeList nodes ≠ text) :
    text ∉ g.laterLines := by
  simp only [laterLines, List.mem_append, List.mem_map, List.mem_singleton, not_or, not_exists,
    not_and, String.append_assoc]
  exact ⟨fun n _ => nodeName_append_ne htext n _, (hexits g.exits).symm⟩

end Headings

/-- The section between the second heading and the third is the same in equal dumps. -/
theorem edgeLines_eq_of_dump_eq (h : g.dump = g'.dump) :
    (List.range g.size).map g.edgeLine = (List.range g'.size).map g'.edgeLine := by
  have hedges :
      "edges:" ∉ (List.range g.size).map g.edgeLine ++ "predecessors:" :: g.laterLines := by
    simp only [List.mem_append, List.mem_cons, not_or]
    refine ⟨notMem_edgeLines (by decide) g, by decide, notMem_laterLines (by decide) g ?_⟩
    intro nodes
    simp [← String.toList_inj]
  have hpredecessors : "predecessors:" ∉ g.laterLines := by
    refine notMem_laterLines (by decide) g fun nodes => ?_
    simp [← String.toList_inj]
  rw [dump_eq, dump_eq] at h
  obtain ⟨-, -, hsections⟩ := (List.append_cons_inj_of_notMem
    (notMem_postOrder (by decide) _) hedges).1 (List.cons.inj h).2
  exact ((List.append_cons_inj_of_notMem
    (notMem_edgeLines (by decide) g) hpredecessors).1 hsections).1

/-- The edges and the entry are all that a dump is made from. -/
theorem dump_congr (hentry : g.entry = g'.entry) (hsuccessors : g.successors = g'.successors) :
    g.dump = g'.dump := by
  have hsize : g.size = g'.size := by
    rw [size, size, ← g.size_successors, ← g'.size_successors, hsuccessors]
  have hsucc : g.succ = g'.succ := funext fun n => by rw [succ, succ, hsuccessors]
  have hpred : g.pred = g'.pred := by
    funext n
    refine (pairwise_pred n).eq_of_mem_iff (pairwise_pred n) fun u => ?_
    rw [mem_pred, mem_pred, hsucc]
  simp only [dump, exits, reversePostOrder, hsize, hsucc, hpred, hentry, hsuccessors]

/-- Tables of successors are equal if they have the same edges, since their rows are ascending. -/
theorem successors_eq_iff : g.successors = g'.successors ↔ g.SameEdges g' := by
  constructor
  · intro h
    refine ⟨?_, fun n m => by rw [succ, succ, h]⟩
    rw [size, size, ← g.size_successors, ← g'.size_successors, h]
  · rintro ⟨hsize, hmem⟩
    have hsucc (n : Nat) : g.succ n = g'.succ n :=
      (g.pairwise_successors n).eq_of_mem_iff (g'.pairwise_successors n) (hmem n)
    refine Array.ext (by rw [g.size_successors, g'.size_successors]; exact hsize) fun n hn hn' => ?_
    simpa [succ, Adjacency.next, hn, hn'] using hsucc n

/-- The number of nodes and the edges can be read off a dump. -/
theorem successors_eq_of_dump_eq (h : g.dump = g'.dump) : g.successors = g'.successors := by
  have hlines := edgeLines_eq_of_dump_eq h
  have hsize : g.size = g'.size := by simpa using congrArg List.length hlines
  rw [← hsize] at hlines
  refine successors_eq_iff.2 ⟨hsize, fun n m => ?_⟩
  by_cases hn : n < g.size
  · have hline := List.map_inj_left.1 hlines n (List.mem_range.2 hn)
    rw [edgeLine, edgeLine, String.append_right_inj, nodeList_inj] at hline
    rw [hline]
  · have hnone (g : Graph) (hn : ¬ n < g.size) : g.succ n = [] := by
      have : ¬ n < g.successors.size := g.size_successors ▸ hn
      simp [succ, Adjacency.next, this]
    rw [hnone g hn, hnone g' (hsize ▸ hn)]

/-- Two graphs with the same entry have the same dump exactly if they have the same nodes and
edges. -/
theorem dump_eq_iff (hentry : g.entry = g'.entry) :
    g.dump = g'.dump ↔ g.SameEdges g' :=
  ⟨fun h => successors_eq_iff.1 (successors_eq_of_dump_eq h),
    fun h => dump_congr hentry (successors_eq_iff.2 h)⟩

section Normal

/-- The name of a node is a normal line. -/
theorem isNormal_nodeName (n : Nat) : IsNormal (nodeName n).toList where
  ne_nil := by simp [toList_nodeName]
  trimmed := isTrimmed_of_forall fun c hc =>
    isWhiteSpace_eq_false_of_isIdentChar (isIdentChar_of_mem_nodeName c hc)
  notMem h := by cases isIdentChar_of_mem_nodeName _ h

/-- A list of nodes stands on one line. -/
theorem lineFeed_notMem_nodeList (nodes : List Nat) : '\n' ∉ (nodeList nodes).toList := by
  intro hmem
  refine forall_mem_nameList (p := (· ≠ '\n')) (by simp) (List.forall_mem_map.2 fun n _ => ?_)
    '\n' hmem rfl
  exact fun c hc => ne_of_mem_of_not_mem hc (isNormal_nodeName n).notMem

/-- A line with a list of nodes at its end ends in a bracket. -/
theorem isNormal_append_nodeList {front : String} (hne : front.toList ≠ [])
    (hstops : Stops isWhiteSpace front.toList) (hfront : '\n' ∉ front.toList) (nodes : List Nat) :
    IsNormal (front ++ nodeList nodes).toList := by
  obtain ⟨mid, hlist⟩ := exists_toList_nameList (nodes.map nodeName)
  rw [String.toList_append]
  refine ⟨by simp [hne], (isTrimmed_append hne ?_).2 ⟨hstops, ?_⟩, ?_⟩
  · simp [nodeList, hlist]
  · simp only [nodeList, hlist, List.reverse_cons, List.reverse_append, List.reverse_nil,
      List.nil_append, List.cons_append, stops_cons]
    rfl
  · simp [hfront, lineFeed_notMem_nodeList]

/-- Each form of line is normal: it has no line feed, and no white space at its end. -/
theorem DumpLine.isNormal {line : String} (h : DumpLine line) : IsNormal line.toList := by
  cases h with
  | heading mem =>
    have hall : ∀ text ∈ ["cfg_postorder:", "edges:", "predecessors:"],
        text.toList ≠ [] ∧ isTrimmed text.toList ∧ '\n' ∉ text.toList := by decide
    obtain ⟨hne, htrimmed, hnotMem⟩ := hall line mem
    exact ⟨hne, htrimmed, hnotMem⟩
  | node n => exact isNormal_nodeName n
  | successors n | predecessors n =>
    refine isNormal_append_nodeList ?_ ?_ ?_ _
    · simp [toList_nodeName]
    · simp only [String.toList_append, toList_nodeName, List.cons_append, stops_cons]
      rfl
    · simp [(isNormal_nodeName n).notMem]
  | exits nodes => exact isNormal_append_nodeList (by decide) (by simp; rfl) (by decide) nodes

/-- All lines of a dump are normal. -/
theorem isNormal_of_mem_dump (g : Graph) : ∀ line ∈ g.dump.map String.toList, IsNormal line :=
  List.forall_mem_map.2 fun _ hline => (dumpLine_of_mem hline).isNormal

end Normal

end Graph

end DefiniteAssignment
