import DefiniteAssignment.Proofs.Graph.Dump
import DefiniteAssignment.Proofs.Graph.OfFunction
import DefiniteAssignment.Proofs.TestFile.FunctionLines
import DefiniteAssignment.TestFile.Run
/-!
# Functions held to a whole dump

A test may give the whole dump of a graph as what is expected of a function. Of all functions that
can be written and have a graph, those pass whose graph has the nodes and edges that the dump tells
of, and the others fail:

> `run_wholeDumpTest_iff : (run (wholeDumpTest f g'.dump ++ ending)).value = .ok 1 ↔ g.SameEdges g'`

Nothing is lost on the way to the comparison. The printed function is found again between the
command and the marks of the dump (`parse_wholeDumpTest`), and reading it gives back the function
and so its graph (`graph_of_toString`). The lines of a dump are as they were once the marks are
taken off, and none of them begins with a keyword, so the expectation is never mistaken for
directives (`hasDirectives_dump`) and the two dumps are compared line by line
(`runPrintCfg_of_dump`). That equal dumps mean equal edges is `Graph.dump_eq_iff`.
-/

namespace DefiniteAssignment

open Text (trim trim_of_isTrimmed isWhiteSpace IsNormal normalizedLines_joinLines
  lines_joinLines_of_isNormal)

namespace Graph

/-- No line of a dump begins with the keyword of a directive. -/
theorem DumpLine.isPrefixOf_eq_false {line : String} (h : DumpLine line)
    (keyword : Expectation.Keyword) :
    keyword.text.toList.isPrefixOf (Text.trimStart line.toList) = false := by
  cases h with
  | heading mem =>
    have hall : ∀ text ∈ ["cfg_postorder:", "edges:", "predecessors:"],
        keyword.text.toList.isPrefixOf (Text.trimStart text.toList) = false := by
      cases keyword <;> decide
    exact hall line mem
  | node n =>
    rw [Report.toList_nodeName]
    cases keyword <;> rfl
  | successors n | predecessors n =>
    simp only [String.toList_append, Report.toList_nodeName, List.cons_append]
    cases keyword <;> rfl
  | exits nodes =>
    rw [String.toList_append]
    cases keyword <;> rfl

theorem hasDirectives_dump (g : Graph) :
    Expectation.hasDirectives ("\n".intercalate g.dump) = false := by
  have hlines : Text.lines ("\n".intercalate g.dump).toList = g.dump.map String.toList := by
    rw [String.toList_intercalate]
    exact lines_joinLines_of_isNormal g.isNormal_of_mem_dump (by simpa using g.dump_ne_nil)
  rw [Expectation.hasDirectives, hlines, List.any_eq_false]
  refine List.forall_mem_map.2 fun line hline => ?_
  rw [Bool.not_eq_true, List.any_eq_false]
  intro keyword _
  rw [Bool.not_eq_true]
  exact (dumpLine_of_mem hline).isPrefixOf_eq_false keyword

theorem normalizedLines_dump (g : Graph) :
    Text.normalizedLines ("\n".intercalate g.dump).toList = g.dump.map String.toList := by
  rw [String.toList_intercalate]
  exact normalizedLines_joinLines g.isNormal_of_mem_dump (by simpa using g.dump_ne_nil)

end Graph

namespace TestFile

/-- A test file that holds a function to the lines of a dump. -/
def wholeDumpTest (f : Function) (dump : List String) : String :=
  "\n".intercalate ("test print-cfg" :: f.toString :: dump.map ("; " ++ ·))

/-- The lines of a dump can be expected as they are. -/
theorem isExpectation_of_isNormal {line : String} (h : IsNormal line.toList) : IsExpectation line :=
  ⟨h.notMem, h.stops⟩

/-- The file holds one case, with the text of the function and the lines of the dump. -/
theorem parse_wholeDumpTest {f : Function} (hf : f.Writable) {dump : List String}
    (hdump : ∀ line ∈ dump.map String.toList, IsNormal line) {ending : String}
    (hending : ending = "" ∨ ending = "\n") :
    parse (wholeDumpTest f dump ++ ending) =
      [⟨f.toString, "\n".intercalate dump, "test print-cfg"⟩] := by
  have hcommand : IsCommand "test print-cfg" :=
    ⟨"print-cfg", by decide, by decide, by decide, by simp [Text.isWhiteSpace]⟩
  have hwritten : wholeDumpTest f dump = written "test print-cfg" [(f.toString, dump)] := by
    simp [wholeDumpTest, written]
  have hexpectations : ∀ line ∈ dump, IsExpectation line := by
    intro line hline
    exact isExpectation_of_isNormal (List.forall_mem_map.1 hdump line hline)
  rw [hwritten]
  exact parse_written_append hcommand (by simpa using f.isFunctionText_toString hf)
    (by simpa using hexpectations) hending

end TestFile

namespace TestCase

/-- The graph of a printed function is the graph of the function. -/
theorem graph_of_toString {f : Function} {g : Graph} (hf : f.Writable)
    (hg : Graph.ofFunction f = .ok g) {c : TestCase} (hc : c.functionText = f.toString) :
    c.graph = .ok g := by
  have htext : String.ofList (trim c.functionText.toList) = f.toString := by
    rw [hc, trim_of_isTrimmed f.isTrimmed_toString, String.ofList_toList]
  simp only [graph, htext, Function.parse_toString hf]
  show (Graph.ofFunction f).mapError TestFailure.building = .ok g
  rw [hg]
  rfl

/-- A dump that is expected is held to the dump of the graph. -/
theorem runPrintCfg_of_dump {g g' : Graph} {c : TestCase} (hgraph : c.graph = .ok g)
    (hexpected : c.expected = "\n".intercalate g'.dump) :
    c.runPrintCfg =
      if g.dump = g'.dump then .ok () else .error (.otherDump ("\n".intercalate g.dump)) := by
  have hinj : g.dump.map String.toList = g'.dump.map String.toList ↔ g.dump = g'.dump :=
    (List.map_injective_iff.2 fun _ _ => String.toList_inj.1).eq_iff
  rw [runPrintCfg, hgraph]
  show (if Expectation.hasDirectives c.expected then _
    else if Text.normalizedLines ("\n".intercalate g.dump).toList =
      Text.normalizedLines c.expected.toList then _ else _) = _
  rw [hexpected, g'.hasDirectives_dump, g.normalizedLines_dump, g'.normalizedLines_dump]
  simp only [hinj, Bool.false_eq_true, if_false]
  rfl

theorem commandName_printCfg {c : TestCase} (hc : c.command = "test print-cfg") :
    c.commandName = "print-cfg" := by
  have hnone : "print-cfg".toList.all (! isWhiteSpace ·) := rfl
  have hwords : Text.words "print-cfg".toList = ["print-cfg".toList] :=
    Text.words_of_forall (by decide) fun d hd => by simpa using List.all_eq_true.1 hnone d hd
  rw [commandName, hc]
  show String.ofList ((Text.words "print-cfg".toList).headD []) = "print-cfg"
  rw [hwords]
  rfl

end TestCase

namespace TestFile

/-- A file with one case for `print-cfg` is run as this case is. -/
theorem value_run_of_parse {content : String} {c : TestCase} (hparse : parse content = [c])
    (hc : c.command = "test print-cfg") :
    (run content).value = (c.runPrintCfg.map fun _ => 1).mapError (·.message c) := by
  have hcase : c.run = pure c.runPrintCfg := by
    rw [TestCase.run, c.commandName_printCfg hc]
    rfl
  rw [run, hparse]
  simp only [runAll, hcase, Logged.value_bind, Logged.value_pure]
  cases c.runPrintCfg with
  | error e => rfl
  | ok u => rfl

/-- A function that has a graph passes with a whole dump exactly if the dump tells of the same nodes
and edges; otherwise it fails. A line feed at the end of the file makes no difference. -/
theorem run_wholeDumpTest_iff {f f' : Function} {g g' : Graph} (hf : f.Writable)
    (hg : Graph.ofFunction f = .ok g) (hg' : Graph.ofFunction f' = .ok g') {ending : String}
    (hending : ending = "" ∨ ending = "\n") :
    ((run (wholeDumpTest f g'.dump ++ ending)).value = .ok 1 ↔ g.SameEdges g') ∧
      (¬ g.SameEdges g' → ∃ e, (run (wholeDumpTest f g'.dump ++ ending)).value = .error e) := by
  have hentry : g.entry = g'.entry :=
    (Graph.follows_of_ofFunction hg).entry_eq.trans (Graph.follows_of_ofFunction hg').entry_eq.symm
  have hparse := parse_wholeDumpTest hf g'.isNormal_of_mem_dump hending
  have hrun := value_run_of_parse hparse rfl
  rw [TestCase.runPrintCfg_of_dump (TestCase.graph_of_toString hf hg rfl) rfl] at hrun
  rw [hrun, ← Graph.dump_eq_iff hentry]
  by_cases hsame : g.dump = g'.dump
  · rw [if_pos hsame]
    exact ⟨iff_of_true rfl hsame, absurd hsame⟩
  · rw [if_neg hsame]
    exact ⟨iff_of_false nofun hsame, fun _ => ⟨_, rfl⟩⟩

/-- A loop of one instruction with a return behind it. -/
def loopSample : Function :=
  ⟨"f", [[.brif (.var "c") 0 1], [.ret none]]⟩

/-- Two instructions in a row. -/
def straightSample : Function :=
  ⟨"g", [[.nop, .ret none]]⟩

/-- The loop passes with its own dump, and fails with that of another graph of the same size. -/
theorem run_wholeDumpTest_sample : ∃ g g', Graph.ofFunction loopSample = .ok g ∧
    Graph.ofFunction straightSample = .ok g' ∧ loopSample.Writable ∧ g.size = g'.size ∧
    (run (wholeDumpTest loopSample g.dump ++ "\n")).value = .ok 1 ∧
    ∃ e, (run (wholeDumpTest loopSample g'.dump ++ "")).value = .error e := by
  have hwritable : loopSample.Writable := ⟨by decide, by decide, by decide, by decide⟩
  obtain ⟨g, hg, hsize, hsucc⟩ :
      ∃ g, Graph.ofFunction loopSample = .ok g ∧ g.size = 2 ∧ g.succ 0 = [0, 1] :=
    ⟨_, rfl, rfl, rfl⟩
  obtain ⟨g', hg', hsize', hsucc'⟩ :
      ∃ g, Graph.ofFunction straightSample = .ok g ∧ g.size = 2 ∧ g.succ 0 = [1] :=
    ⟨_, rfl, rfl, rfl⟩
  have hother : ¬ g.SameEdges g' := by
    intro hsame
    have hloop := (hsame.2 0 0).1 (by simp [hsucc])
    simp [hsucc'] at hloop
  refine ⟨g, g', hg, hg', hwritable, hsize.trans hsize'.symm, ?_, ?_⟩
  · exact (run_wholeDumpTest_iff hwritable hg hg (.inr rfl)).1.2 ⟨rfl, fun _ _ => Iff.rfl⟩
  · exact (run_wholeDumpTest_iff hwritable hg hg' (.inl rfl)).2 hother

end TestFile

end DefiniteAssignment
