import DefiniteAssignment.Proofs.Grammar.Collecting
/-!
# Modules as read and as printed

Neither the optional entry nor the repeated functions of a module can make reading fail by
themselves: where they cannot be read, nothing is taken, and the brace behind them is missed. So a
module that is read accounts for its whole text (`module_sound`), and its table holds every function
of the text once (`Module.exists_written_of_parse`). `Module.parse_holds_written` is the summary:
the modules that can be written are read back from their printed form, nothing else is ever read,
and a fault beyond the grammar makes reading fail as a whole.
-/

namespace DefiniteAssignment

open Grammar
open Text (isFunctionNameChar)

namespace Module

/-- The module as it is printed: its functions in the order of their names. -/
def written (m : Module) : ModuleText :=
  ⟨m.entry, m.functions.values.map Function.written⟩

/-- The entry is the name of a function, so it can be written. -/
theorem Writable.entry_name {m : Module} (h : m.Writable) {name : String}
    (hname : m.entry = some name) : isFunctionName name := by
  have hmem := NameTable.contains_iff.1 (h.entry name hname)
  rw [names_eq h.keyed] at hmem
  obtain ⟨f, hf, rfl⟩ := List.mem_map.1 hmem
  exact (h.functions f hf).name

/-- What is printed of a module is consistent, and the module holds it. -/
theorem Writable.check_written {m : Module} (h : m.Writable) : m.written.check = .ok m := by
  have hnames : m.written.functions.map (·.name) = m.functions.names := by
    rw [names_eq h.keyed, written, List.map_map]
    rfl
  refine ModuleText.check_eq_ok_iff.2 ⟨⟨?_, ?_, ?_⟩, h.keyed, rfl, ?_⟩
  · intro f hf
    obtain ⟨g, hg, rfl⟩ := List.mem_map.1 hf
    exact inSequence_written (h.functions g hg).length_le
  · rw [hnames]
    exact m.functions.pairwise_names.imp fun hlt => (String.ne_of_lt hlt)
  · intro name hname
    rw [hnames]
    exact NameTable.contains_iff.1 (h.entry name hname)
  · rw [written, List.map_map]
    simp [Function.comp_def, function_written]

end Module

namespace Grammar

variable {cs mid rest : List Char}

section Spelled

/-- The line of the entry and the blanks behind it, if there is an entry. The name is written up to
where it ends. -/
def EntrySpelled : Option String → List Char → List Char → Prop
  | none, cs, rest => cs = rest
  | some name, cs, rest => ∃ mid,
    Written [.word "entry", .blanks, .word ":", .blanks, .word "%", .functionName name] cs mid ∧
      Stops isFunctionNameChar mid ∧ Blank mid rest

/-- A module with the blanks behind it: what stands in front of its functions, the functions, and
the brace that closes it. -/
def ModuleText.Spelled (w : ModuleText) (cs rest : List Char) : Prop :=
  ∃ mid₁ mid₂ mid₃, Written [.word "module", .blanks, .word "\x7b", .blanks] cs mid₁ ∧
    EntrySpelled w.entry mid₁ mid₂ ∧ Chained FunctionText.Spelled w.functions mid₂ mid₃ ∧
    Written [.word "\x7d", .blanks] mid₃ rest

theorem entryPieces_some (ending : Piece) (name : String) :
    entryPieces ending (some name) =
      [.word "entry", .blanks, .word ":", .blanks, .word "%", .functionName name] ++ [ending] := rfl

/-- An entry that ends its line is written up to where its name ends. -/
theorem EntrySpelled.of_written {entry : Option String}
    (h : Written (entryPieces .lineEnd entry) cs rest) : EntrySpelled entry cs rest := by
  cases entry with
  | none => exact h
  | some name =>
    rw [entryPieces_some] at h
    obtain ⟨mid, hfront, last, ⟨hend, hblank⟩, rfl⟩ := chained_append.1 h
    exact ⟨mid, hfront, (WordEnds.of_lineEnd hend).functionName, hblank⟩

/-- Forgetting where the name ends leaves a spelling of the pieces of an entry. -/
theorem EntrySpelled.written {entry : Option String} (h : EntrySpelled entry cs rest) :
    Written (entryPieces .blanks entry) cs rest := by
  cases entry with
  | none => exact h
  | some name =>
    obtain ⟨mid, hfront, -, hblank⟩ := h
    rw [entryPieces_some]
    exact chained_append.2 ⟨mid, hfront, rest, hblank, rfl⟩

/-- A module spelled line by line is spelled, if each of its functions has a block. -/
theorem ModuleText.Spelled.of_written {w : ModuleText} (hfs : ∀ f ∈ w.functions, f.blocks ≠ [])
    (h : Written (w.pieces .lineEnd) cs rest) : w.Spelled cs rest := by
  obtain ⟨mid₃, hfront, hclose⟩ := chained_append.1 h
  obtain ⟨mid₂, hhead, hfunctions⟩ := chained_append.1 hfront
  obtain ⟨mid₁, hopen, hentry⟩ := chained_append.1 hhead
  have hspelled : Chained FunctionText.Spelled w.functions mid₂ mid₃ :=
    (chained_flatMap.1 hfunctions).imp fun f hf _ _ => .of_written (hfs f hf)
  exact ⟨mid₁, mid₂, mid₃, hopen, .of_written hentry, hspelled, hclose⟩

/-- Forgetting where names and instructions end leaves a spelling of the pieces of a module. -/
theorem ModuleText.Spelled.written {w : ModuleText} (h : w.Spelled cs rest) :
    Written (w.pieces .blanks) cs rest := by
  obtain ⟨mid₁, mid₂, mid₃, hopen, hentry, hfunctions, hclose⟩ := h
  have hwritten : Written (w.functions.flatMap (FunctionText.pieces .blanks)) mid₂ mid₃ :=
    chained_flatMap.2 (hfunctions.imp fun _ _ _ _ => FunctionText.Spelled.written)
  have hhead := chained_append.2 ⟨mid₁, hopen, hentry.written⟩
  have hfront := chained_append.2 ⟨mid₂, hhead, hwritten⟩
  exact chained_append.2 ⟨mid₃, hfront, hclose⟩

/-- An entry begins with its keyword. -/
theorem EntrySpelled.visible {name : String} (h : EntrySpelled (some name) cs rest) :
    Visible cs :=
  Written.visible h.written (by decide)

/-- A module begins with its keyword. -/
theorem ModuleText.Spelled.visible {w : ModuleText} (h : w.Spelled cs rest) : Visible cs :=
  Written.visible h.written (by decide)

/-- A function without blocks is never spelled. -/
theorem ModuleText.Spelled.ne_nil {w : ModuleText} (h : w.Spelled cs rest) :
    ∀ f ∈ w.functions, f.blocks ≠ [] := by
  obtain ⟨_, _, _, -, -, hfunctions, -⟩ := h
  intro f hf
  obtain ⟨_, _, hspelled⟩ := hfunctions.exists_of_mem hf
  exact hspelled.ne_nil

end Spelled

section Entry

/-- What is read as an entry spells it, and no blank is left behind it. -/
theorem entryLine_sound {name : String} (h : entryLine cs = some (name, rest)) :
    EntrySpelled (some name) cs rest ∧ skipBlanks rest = rest := by
  simp only [entryLine, functionName, Reader.bind_eq_some_iff, blanks_eq_some_iff,
    Reader.literal_eq_some_iff, bareFunctionName_eq_some_iff, Reader.pure_apply] at h
  obtain ⟨-, mid₁, hword, -, _, rfl, -, mid₂, hcolon, -, _, rfl, _, mid₃,
    ⟨-, mid₄, hmark, hname, hends⟩, -, _, rfl, ⟨⟩⟩ := h
  have hnamed : Written [.word "%", .functionName name] (skipBlanks mid₂) mid₃ :=
    ⟨mid₄, hmark, mid₃, hname, rfl⟩
  have hline : Written
      [.word "entry", .blanks, .word ":", .blanks, .word "%", .functionName name] cs mid₃ :=
    ⟨mid₁, hword, _, blank_skipBlanks mid₁, mid₂, hcolon, _, blank_skipBlanks mid₂, hnamed⟩
  exact ⟨⟨mid₃, hline, hends, blank_skipBlanks mid₃⟩, skipBlanks_skipBlanks mid₃⟩

/-- An entry is read wherever it is spelled and something visible comes next. -/
theorem entryLine_complete {name : String} (h : EntrySpelled (some name) cs rest)
    (hrest : Visible rest) : entryLine cs = some (name, rest) := by
  obtain ⟨_, ⟨mid₁, hword, mid₂, hblank₁, mid₃, hcolon, mid₄, hblank₂, mid₅, hmark, mid₆, hname,
    rfl⟩, hends, hblank₃⟩ := h
  have hmid₂ : skipBlanks mid₁ = mid₂ :=
    Blank.skipBlanks_of_visible hblank₁ (hcolon.visible rfl)
  have hmid₄ : skipBlanks mid₃ = mid₄ :=
    Blank.skipBlanks_of_visible hblank₂ (hmark.visible rfl)
  have hlast : skipBlanks mid₆ = rest := Blank.skipBlanks_of_visible hblank₃ hrest
  have hkeyword : Reader.literal "entry" cs = some ((), mid₁) := Reader.literal_eq_some_iff.2 hword
  have hsign : Reader.literal ":" mid₂ = some ((), mid₃) := Reader.literal_eq_some_iff.2 hcolon
  have hpercent : Reader.literal "%" mid₄ = some ((), mid₅) := Reader.literal_eq_some_iff.2 hmark
  have hread : functionName mid₄ = some (name, mid₆) := by
    rw [functionName, Reader.bind_of_eq_some hpercent]
    exact bareFunctionName_eq_some_iff.2 ⟨hname, hends⟩
  rw [entryLine, Reader.bind_of_eq_some hkeyword, Reader.bind_of_eq_some (blanks_of_eq hmid₂),
    Reader.bind_of_eq_some hsign, Reader.bind_of_eq_some (blanks_of_eq hmid₄),
    Reader.bind_of_eq_some hread, Reader.bind_of_eq_some (blanks_of_eq hlast), Reader.pure_apply]

end Entry

section Functions

/-- What is read as a function within a module spells it. -/
theorem innerFunction_sound {w : FunctionText} (hcs : skipBlanks cs = cs)
    (h : innerFunction cs = some (w, rest)) : w.Spelled cs rest ∧ skipBlanks rest = rest := by
  simp only [innerFunction, Reader.bind_eq_some_iff, blanks_eq_some_iff, hcs,
    Rule.toReader_eq_some_iff] at h
  obtain ⟨-, _, rfl, hw⟩ := h
  exact function_sound hw

/-- Functions in front of something visible begin with something visible. -/
theorem visible_of_functions {fs : List FunctionText} (h : Chained FunctionText.Spelled fs cs rest)
    (hrest : Visible rest) : Visible cs := by
  cases fs with
  | nil => exact h ▸ hrest
  | cons f fs =>
    obtain ⟨mid, hf, -⟩ := h
    exact hf.visible

/-- A function within a module is read wherever it is spelled. -/
theorem innerFunction_complete {w : FunctionText} (h : w.Spelled cs rest) (hrest : Visible rest) :
    innerFunction cs = some (w, rest) := by
  have hread : function.toReader cs = some (w, rest) :=
    Rule.toReader_eq_some_iff.2 (function_complete h hrest.skipBlanks)
  rw [innerFunction, Reader.bind_of_eq_some (blanks_of_eq h.visible.skipBlanks), hread]

theorem visible_brace : Visible ('\x7d' :: cs) :=
  ⟨'\x7d', cs, rfl, by decide⟩

/-- The closing brace is no function, so it ends the row of functions. -/
theorem innerFunction_eq_none_of_brace : innerFunction ('\x7d' :: cs) = none := by
  refine Option.eq_none_iff_forall_ne_some.2 fun result hresult => ?_
  obtain ⟨mid, hword, -⟩ := (innerFunction_sound visible_brace.skipBlanks hresult).1.written
  cases (List.cons.inj hword).1

/-- What is read as the functions of a module spells them one after the other. -/
theorem many_innerFunction_sound (hcs : skipBlanks cs = cs) :
    Chained FunctionText.Spelled (innerFunction.many cs).1 cs (innerFunction.many cs).2 :=
  (Reader.chained_of_many (I := fun cs => skipBlanks cs = cs) innerFunction_sound hcs).1

/-- The functions of a module are read one after the other up to the brace that closes it. -/
theorem many_innerFunction_complete {fs : List FunctionText}
    (h : Chained FunctionText.Spelled fs cs ('\x7d' :: rest)) :
    innerFunction.many cs = (fs, '\x7d' :: rest) := by
  refine Reader.many_of_chained (F := Visible) (fun hw hmid => ?_)
    FunctionText.Spelled.visible h visible_brace innerFunction_eq_none_of_brace
  exact ⟨innerFunction_complete hw hmid, Written.length_lt hw.written (by decide)⟩

end Functions

section Whole

/-- What is read as a module spells it, and no blank is left behind it. -/
theorem module_sound {w : ModuleText} (h : module cs = .ok (w, rest)) :
    w.Spelled cs rest ∧ skipBlanks rest = rest := by
  simp only [module, Rule.bind_eq_ok_iff, Rule.lift_eq_ok_iff, blanks_eq_some_iff,
    Reader.literal_eq_some_iff, Reader.optional_eq_some_iff, Rule.ofFunction_apply,
    Rule.pure_apply] at h
  obtain ⟨-, mid₁, hword, -, _, rfl, -, mid₂, hopen, -, _, rfl, entry, mid₃, hentry, functions,
    mid₄, hfunctions, -, mid₅, hclose, -, _, rfl, ⟨⟩⟩ := h
  obtain ⟨rfl, rfl⟩ := Prod.mk.inj (Except.ok.inj hfunctions).symm
  have hsettled := skipBlanks_skipBlanks mid₂
  obtain ⟨hspelled, hmid₃⟩ : EntrySpelled entry (skipBlanks mid₂) mid₃ ∧
      skipBlanks mid₃ = mid₃ := by
    rcases hentry with ⟨name, rfl, hname⟩ | ⟨rfl, rfl, -⟩
    · exact entryLine_sound hname
    · exact ⟨rfl, hsettled⟩
  have hbrace : Written [.word "\x7b", .blanks] (skipBlanks mid₁) (skipBlanks mid₂) :=
    ⟨mid₂, hopen, _, blank_skipBlanks mid₂, rfl⟩
  have hhead : Written [.word "module", .blanks, .word "\x7b", .blanks] cs (skipBlanks mid₂) :=
    ⟨mid₁, hword, _, blank_skipBlanks mid₁, hbrace⟩
  have hend : Written [.word "\x7d", .blanks] (innerFunction.many mid₃).2 (skipBlanks mid₅) :=
    ⟨mid₅, hclose, _, blank_skipBlanks mid₅, rfl⟩
  refine ⟨⟨_, mid₃, _, hhead, hspelled, ?_, hend⟩, skipBlanks_skipBlanks mid₅⟩
  exact many_innerFunction_sound hmid₃

/-- Where the functions of a module begin, no entry is named. -/
theorem entryLine_eq_none_of_functions {fs : List FunctionText}
    (h : Chained FunctionText.Spelled fs cs ('\x7d' :: rest)) : entryLine cs = none := by
  refine Reader.bind_of_eq_none ?_
  cases fs with
  | nil => exact h ▸ rfl
  | cons f fs =>
    obtain ⟨mid, hf, -⟩ := h
    obtain ⟨mid', rfl, -⟩ := hf.written
    rfl

/-- The entry is read up to where the functions begin, and nothing is read if there is none. -/
theorem optional_entryLine_complete {entry : Option String} {fs : List FunctionText}
    {last : List Char} (h : EntrySpelled entry cs rest)
    (hfs : Chained FunctionText.Spelled fs rest ('\x7d' :: last)) :
    Visible cs ∧ entryLine.optional cs = some (entry, rest) := by
  have hrest : Visible rest := visible_of_functions hfs visible_brace
  rw [Reader.optional_eq_some_iff]
  cases entry with
  | none =>
    obtain rfl : cs = rest := h
    exact ⟨hrest, .inr ⟨rfl, rfl, entryLine_eq_none_of_functions hfs⟩⟩
  | some name => exact ⟨h.visible, .inl ⟨name, rfl, entryLine_complete h hrest⟩⟩

/-- A module is read wherever it is spelled, if all blanks behind it belong to it. -/
theorem module_complete {w : ModuleText} (h : w.Spelled cs rest)
    (hrest : skipBlanks rest = rest) : module cs = .ok (w, rest) := by
  obtain ⟨_, mid₅, mid₆, ⟨mid₁, hword, mid₂, hblank₁, mid₃, hopen, mid₄, hblank₂, rfl⟩, hentry,
    hfunctions, mid₇, hclose, last, hblank₃, rfl⟩ := h
  obtain rfl : mid₆ = '\x7d' :: mid₇ := hclose
  obtain ⟨hmid₄, hread⟩ := optional_entryLine_complete hentry hfunctions
  have hafterWord : skipBlanks mid₁ = mid₂ :=
    Blank.skipBlanks_of_visible hblank₁ (hopen.visible rfl)
  have hafterBrace : skipBlanks mid₃ = mid₄ := Blank.skipBlanks_of_visible hblank₂ hmid₄
  have hafterAll : skipBlanks mid₇ = last := (Blank.skipBlanks_eq hblank₃).trans hrest
  have hkeyword : Reader.literal "module" cs = some ((), mid₁) := Reader.literal_eq_some_iff.2 hword
  have hbrace : Reader.literal "\x7b" mid₂ = some ((), mid₃) := Reader.literal_eq_some_iff.2 hopen
  have hmany : Rule.ofFunction innerFunction.many mid₅ = .ok (w.functions, '\x7d' :: mid₇) :=
    congrArg Except.ok (many_innerFunction_complete hfunctions)
  have hend : Reader.literal "\x7d" ('\x7d' :: mid₇) = some ((), mid₇) :=
    Reader.literal_eq_some_iff.2 rfl
  rw [module, Rule.bind_of_eq_some hkeyword, Rule.bind_of_eq_some (blanks_of_eq hafterWord),
    Rule.bind_of_eq_some hbrace, Rule.bind_of_eq_some (blanks_of_eq hafterBrace),
    Rule.bind_of_eq_some hread, Rule.bind_of_eq_ok hmany, Rule.bind_of_eq_some hend,
    Rule.bind_of_eq_some (blanks_of_eq hafterAll), Rule.pure_apply]

/-- A text is read as what it spells, before anything is checked. -/
theorem whole_module_of_written {w : ModuleText} (hfs : ∀ f ∈ w.functions, f.blocks ≠ [])
    (h : Written (.blanks :: w.pieces .lineEnd) cs []) : whole .module module cs = .ok w := by
  obtain ⟨mid, hblank, hmodule⟩ := h
  have hvisible : Visible mid := Written.visible hmodule (by decide)
  rw [whole_eq_ok_iff, Blank.skipBlanks_of_visible hblank hvisible]
  exact module_complete (.of_written hfs hmodule) (by simp [skipBlanks])

/-- Functions are printed each on lines of its own, which spells them one after the other. -/
theorem written_functionTexts {fs : List Function} (h : ∀ f ∈ fs, f.Writable) (rest : List Char) :
    Written ((fs.map Function.written).flatMap (FunctionText.pieces .lineEnd))
      ((String.join (fs.map fun f => f.toString ++ "\n")).toList ++ rest) rest := by
  induction fs with
  | nil => rfl
  | cons f fs ih =>
    obtain ⟨hf, hfs⟩ := List.forall_mem_cons.1 h
    simp only [List.map_cons, String.join_cons, String.toList_append, List.append_assoc,
      List.flatMap_cons]
    have hlineFeed (cs) : Blank ("\n".toList ++ cs) cs := .char rfl (.nothing cs)
    exact chained_append.2 ⟨_, written_functionText hf (hlineFeed _), ih hfs⟩

/-- The printed line of an entry is a spelling of it. -/
theorem written_entryText {name : String} (h : isFunctionName name) (cs : List Char) :
    Written (entryPieces .lineEnd (some name)) (("entry: %" ++ name ++ "\n").toList ++ cs) cs := by
  have hends : Piece.lineEnd.Spans ("\n".toList ++ cs) cs :=
    ⟨⟨'\n', cs, gap_nil _, by decide⟩, .char rfl (.nothing cs)⟩
  have hname : Written [.word "%", .functionName name, .lineEnd]
      ("%".toList ++ (name.toList ++ ("\n".toList ++ cs))) cs :=
    ⟨_, rfl, _, ⟨h, rfl⟩, cs, hends, rfl⟩
  have hspace : Blank (" ".toList ++ ("%".toList ++ (name.toList ++ ("\n".toList ++ cs))))
      ("%".toList ++ (name.toList ++ ("\n".toList ++ cs))) := .char rfl (.nothing _)
  rw [String.toList_append, String.toList_append, List.append_assoc, List.append_assoc]
  exact ⟨_, rfl, _, .nothing _, _, rfl, _, hspace, hname⟩

/-- What stands in front of the entry is printed with a space and the end of a line as its
blanks. -/
theorem written_headText (cs : List Char) :
    Written [.word "module", .blanks, .word "\x7b", .blanks]
      ("module \x7b\n".toList ++ cs) cs := by
  have hspace : Blank (' ' :: '\x7b' :: '\n' :: cs) ('\x7b' :: '\n' :: cs) :=
    .char rfl (.nothing _)
  have hlineFeed : Blank ('\n' :: cs) cs := .char rfl (.nothing cs)
  exact ⟨_, rfl, _, hspace, _, rfl, cs, hlineFeed, rfl⟩

/-- The line of an entry and functions as they are printed, the functions in any order. -/
theorem written_moduleText {entry : Option String} {line : String} {fs : List Function}
    (hline : ∀ cs, Written (entryPieces .lineEnd entry) (line.toList ++ cs) cs)
    (hfs : ∀ f ∈ fs, f.Writable) :
    Written (ModuleText.pieces .lineEnd ⟨entry, fs.map Function.written⟩)
      ("module \x7b\n" ++ line ++ String.join (fs.map fun f => f.toString ++ "\n") ++
        "\x7d").toList [] := by
  have hclose : Written [.word "\x7d", .blanks] "\x7d".toList [] :=
    ⟨[], rfl, [], .nothing [], rfl⟩
  have hfunctions := written_functionTexts hfs "\x7d".toList
  have hentry := hline ((String.join (fs.map fun f => f.toString ++ "\n")).toList ++ "\x7d".toList)
  have hhead := chained_append.2 ⟨_, written_headText _, hentry⟩
  have hfront := chained_append.2 ⟨_, hhead, hfunctions⟩
  simp only [String.toList_append, List.append_assoc]
  exact chained_append.2 ⟨_, hfront, hclose⟩

end Whole

end Grammar

namespace Module

/-- The printed form of a module is a spelling of it. -/
theorem Writable.written_toString {m : Module} (h : m.Writable) :
    Written (m.written.pieces .lineEnd) m.toString.toList [] := by
  refine written_moduleText (fun cs => ?_) h.functions
  cases hm : m.entry with
  | none => rfl
  | some name => exact written_entryText (h.entry_name hm) cs

/-- A text is read as the module it is a spelling of. -/
theorem parse_eq_ok_of_written {m : Module} (h : m.Writable) {text : String}
    (htext : Written (.blanks :: m.written.pieces .lineEnd) text.toList []) :
    parse text = .ok m := by
  have hne : ∀ w ∈ m.written.functions, w.blocks ≠ [] := by
    intro w hw
    obtain ⟨f, hf, rfl⟩ := List.mem_map.1 hw
    simpa [Function.written] using (h.functions f hf).ne_nil
  rw [parse, whole_module_of_written hne htext]
  exact h.check_written

/-- What is read as a module holds exactly what is written in the text. -/
theorem exists_written_of_parse {text : String} {m : Module} (h : parse text = .ok m) :
    m.Writable ∧ ∃ w, whole .module module text.toList = .ok w ∧
      Written (.blanks :: w.pieces .blanks) text.toList [] ∧ w.Consistent ∧ w.HeldBy m := by
  obtain ⟨w, hread, hcheck⟩ := except_bind_eq_ok_iff.1 h
  obtain ⟨hconsistent, hheld⟩ := ModuleText.check_eq_ok_iff.1 hcheck
  obtain ⟨hspelled, -⟩ := module_sound (whole_eq_ok_iff.1 hread)
  have hwritten := hspelled.written
  refine ⟨⟨?_, hheld.keyed, ?_⟩, w, hread, ⟨_, blank_skipBlanks _, hwritten⟩, hconsistent, hheld⟩
  · intro f hf
    obtain ⟨g, hg, rfl⟩ := List.mem_map.1 (hheld.functions.mem_iff.1 hf)
    obtain ⟨mid, hfront, -⟩ := chained_append.1 hwritten
    obtain ⟨mid', -, hfunctions⟩ := chained_append.1 hfront
    obtain ⟨cs, rest, hfunction⟩ := (chained_flatMap.1 hfunctions).exists_of_mem hg
    exact writable_of_written (hconsistent.labels g hg) (hspelled.ne_nil g hg) hfunction
  · intro name hname
    rw [NameTable.contains_iff, names_eq hheld.keyed, (hheld.functions.map (·.name)).mem_iff,
      List.map_map]
    exact hconsistent.entry name (hheld.entry ▸ hname)

/-- The modules whose printed form is read back are those whose functions can be written and are
stored under their own names, with an entry among them. No other module is ever the result of
reading a text, and a module that is read holds the functions that the text was read as, each of
them once. A text with a repeated name, a label out of sequence or an unknown entry gives no
module. -/
theorem parse_holds_written :
    (∀ m : Module, parse m.toString = .ok m ↔ m.Writable) ∧
    (∀ (text : String) (m : Module), parse text = .ok m →
      m.Writable ∧ ∃ w, whole .module module text.toList = .ok w ∧
        Written (.blanks :: w.pieces .blanks) text.toList [] ∧ w.HeldBy m) ∧
    ∀ (text : String) (w : ModuleText), whole .module module text.toList = .ok w →
      ((∃ f ∈ w.functions, ¬f.InSequence) ∨ ¬(w.functions.map (·.name)).Nodup ∨
        ∃ name ∈ w.entry, name ∉ w.functions.map (·.name)) →
      ∃ e, parse text = .error e := by
  refine ⟨fun m => ⟨fun h => (exists_written_of_parse h).1, fun h => ?_⟩, fun text m h => ?_,
    fun text w hread hfault => ?_⟩
  · exact parse_eq_ok_of_written h ⟨_, .nothing _, h.written_toString⟩
  · obtain ⟨hm, w, hread, hwritten, -, hheld⟩ := exists_written_of_parse h
    exact ⟨hm, w, hread, hwritten, hheld⟩
  · cases hparse : parse text with
    | error e => exact ⟨e, rfl⟩
    | ok m =>
      obtain ⟨-, w', hread', -, hconsistent, -⟩ := exists_written_of_parse hparse
      obtain rfl : w = w' := Except.ok.inj (hread.symm.trans hread')
      rcases hfault with ⟨f, hf, hlabels⟩ | hdistinct | ⟨name, hname, hunknown⟩
      · exact absurd (hconsistent.labels f hf) hlabels
      · exact absurd hconsistent.distinct hdistinct
      · exact absurd (hconsistent.entry name hname) hunknown

/-- A function that does nothing but go on. -/
def idleSample (name : String) : Function :=
  ⟨name, [[.nop], [.ret none]]⟩

def entrySample : Module :=
  { (empty.add (idleSample "main")).add (idleSample "helper") with entry := some "main" }

theorem idleSample_writable {name : String} (h : isFunctionName name) :
    (idleSample name).Writable where
  name := h
  ne_nil := by simp [idleSample]
  length_le := by simp [idleSample, UInt32.size]
  insts := by simp [idleSample, Inst.isWritable, Inst.defs, Inst.uses, Inst.operands, Inst.callee?]

theorem entrySample_writable : entrySample.Writable where
  functions := by
    have hvalues : entrySample.functions.values = [idleSample "helper", idleSample "main"] := by
      decide
    rw [hvalues]
    have hhelper : (idleSample "helper").Writable := idleSample_writable (by decide)
    have hmain : (idleSample "main").Writable := idleSample_writable (by decide)
    exact List.forall_mem_cons.2 ⟨hhelper, List.forall_mem_singleton.2 hmain⟩
  keyed := (keyedByName_empty.add _).add _
  entry := by decide

/-- Two functions of one name. -/
def twiceSample : List Function :=
  [idleSample "main", idleSample "main"]

theorem parse_holds_written_samples :
    (parse entrySample.toString = .ok entrySample ∧ entrySample.Writable ∧
      ∃ w, whole .module module entrySample.toString.toList = .ok w ∧
        Written (.blanks :: w.pieces .blanks) entrySample.toString.toList [] ∧
        w.HeldBy entrySample) ∧
    ∃ e, parse ("module \x7b\n" ++ "" ++
      String.join (twiceSample.map fun f => f.toString ++ "\n") ++ "\x7d") = .error e := by
  have hread := (parse_holds_written.1 entrySample).2 entrySample_writable
  have hmain : (idleSample "main").Writable := idleSample_writable (by decide)
  have htwice : Written (ModuleText.pieces .lineEnd ⟨none, twiceSample.map Function.written⟩)
      ("module \x7b\n" ++ "" ++ String.join (twiceSample.map fun f => f.toString ++ "\n") ++
        "\x7d").toList [] := by
    refine written_moduleText (fun _ => rfl) ?_
    exact List.forall_mem_cons.2 ⟨hmain, List.forall_mem_singleton.2 hmain⟩
  have hwhole := whole_module_of_written (by decide) ⟨_, .nothing _, htwice⟩
  have hrepeated : ¬((twiceSample.map Function.written).map (·.name)).Nodup := by decide
  refine ⟨⟨hread, parse_holds_written.2.1 _ _ hread⟩, ?_⟩
  exact parse_holds_written.2.2 _ _ hwhole (.inr (.inl hrepeated))

end Module

end DefiniteAssignment
