import DefiniteAssignment.Proofs.Grammar.Truncation
/-!
# Where errors point

A text that is refused is refused at a number of bytes, which is what is left where reading ended,
taken off the length of the text. Reading goes back and forth on its way there: a form of
instruction that does not fit gives way to the next one, and where no more can be read, a repetition
returns to the last place at which it could. Still it only ever hands on a rest of the text that it
was given, also where it fails (`Rule.Advances`), so nothing is taken off that is not there, and the
position is one between two characters.

If the text only goes on too long, the part of it in front of the position is all that was read. It
can be read alone, and to the same end:

> `pointsInto_of_parse`
-/

namespace DefiniteAssignment

open Grammar

/-- Whether an error is none of the grammar, but of labels, of names or of the entry. -/
def ParseError.isValidation : ParseError → Bool
  | labelOrder _ _ _ | duplicateFunction _ | unknownEntry _ => true
  | malformed _ _ | trailing _ => false

namespace Grammar

variable {α β : Type} {cs mid rest : List Char}

section Advances

/-- What a reader leaves is a rest of the text. -/
def Reader.Advances (read : Reader α) : Prop :=
  ∀ ⦃cs a rest⦄, read cs = some (a, rest) → rest <:+ cs

/-- What a rule leaves is a rest of the text, and so is the place where it stops if it fails. -/
structure Rule.Advances (rule : Rule α) : Prop where
  ok : ∀ ⦃cs a rest⦄, rule cs = .ok (a, rest) → rest <:+ cs
  error : ∀ ⦃cs stop⦄, rule cs = .error stop → stop <:+ cs

namespace Reader

variable {read : Reader α} {next : α → Reader β}

/-- Nothing is read for a given result. -/
theorem Advances.pure (a : α) : (pure a : Reader α).Advances := by
  rintro cs _ _ ⟨⟩
  exact List.suffix_refl cs

/-- A reader in two steps advances if both steps do. -/
theorem Advances.bind (h : read.Advances) (hnext : ∀ a, (next a).Advances) :
    (read >>= next).Advances := by
  intro cs b rest hread
  obtain ⟨a, mid, ha, hb⟩ := bind_eq_some_iff.1 hread
  exact (hnext a hb).trans (h ha)

/-- What may be left out is read or nothing is. -/
theorem Advances.optional (h : read.Advances) : read.optional.Advances := by
  intro cs value rest hread
  rcases optional_eq_some_iff.1 hread with ⟨a, -, ha⟩ | ⟨-, rfl, -⟩
  · exact h ha
  · exact List.suffix_refl rest

/-- A repetition advances, however often the reader fits. -/
theorem Advances.many (h : read.Advances) (cs : List Char) : (read.many cs).2 <:+ cs := by
  have hchain : Chained (fun _ cs rest => rest <:+ cs) (read.many cs).1 cs (read.many cs).2 := by
    refine (Reader.chained_of_many (I := fun _ => True) ?_ trivial).1
    exact fun _ hread => ⟨h hread, trivial⟩
  exact hchain.suffix fun _ _ _ _ hstep => hstep

end Reader

namespace Rule

variable {rule : Rule α} {next : α → Rule β} {read : Reader α}

/-- Nothing is read for a given result, and nothing can fail. -/
theorem Advances.pure (a : α) : (pure a : Rule α).Advances where
  ok cs _ _ h := by
    cases h
    exact List.suffix_refl cs
  error _ _ h := by cases h

/-- A rule in two steps advances if both steps do, whichever of them is the one that fails. -/
theorem Advances.bind (h : rule.Advances) (hnext : ∀ a, (next a).Advances) :
    (rule >>= next).Advances where
  ok cs b rest hread := by
    obtain ⟨a, mid, ha, hb⟩ := bind_eq_ok_iff.1 hread
    exact ((hnext a).ok hb).trans (h.ok ha)
  error cs stop hread := by
    rcases bind_eq_error_iff.1 hread with hstop | ⟨a, mid, ha, hstop⟩
    · exact h.error hstop
    · exact ((hnext a).error hstop).trans (h.ok ha)

/-- A reader that declines fails where it was to begin. -/
theorem Advances.lift (h : read.Advances) : (liftM read : Rule α).Advances where
  ok cs a rest hread := h (lift_eq_ok_iff.1 hread)
  error cs stop hread := by
    cases hcs : read cs with
    | none =>
      obtain rfl : cs = stop := Except.error.inj ((lift_eq_error hcs).symm.trans hread)
      exact List.suffix_refl cs
    | some result => cases (lift_eq_ok_iff.2 hcs).symm.trans hread

/-- What takes as much as it can never fails. -/
theorem Advances.ofFunction {take : List Char → α × List Char} (h : ∀ cs, (take cs).2 <:+ cs) :
    (ofFunction take).Advances where
  ok cs a rest hread := by
    obtain rfl : (take cs).2 = rest := congrArg Prod.snd (Except.ok.inj hread)
    exact h cs
  error cs stop hread := by cases hread

/-- A rule that begins with a reader advances if both do. -/
theorem Advances.lift_bind (h : read.Advances) (hnext : ∀ a, (next a).Advances) :
    ((liftM read : Rule α) >>= next).Advances :=
  .bind (.lift h) hnext

/-- Whether a failure is reported or only declined makes no difference to a success. -/
theorem Advances.toReader (h : rule.Advances) : rule.toReader.Advances :=
  fun _ _ _ hread => h.ok (toReader_eq_some_iff.1 hread)

/-- Once and then as often as possible. -/
theorem Advances.many1 (h : rule.Advances) : (many1 rule).Advances := by
  refine .bind h fun first => ?_
  refine .bind (.ofFunction h.toReader.many) fun later => ?_
  exact .pure (first :: later)

end Rule

/-- A fixed text is read off the front of what it stands in. -/
theorem advances_literal (text : String) : (Reader.literal text).Advances := by
  intro cs _ rest hread
  have hcs : cs = text.toList ++ rest := Reader.literal_eq_some_iff.1 hread
  exact ⟨text.toList, hcs.symm⟩

theorem advances_blanks : blanks.Advances := by
  intro cs _ rest hread
  obtain rfl : skipBlanks cs = rest := blanks_eq_some_iff.1 hread
  exact (blank_skipBlanks cs).suffix

theorem advances_spaces : spaces.Advances := by
  intro cs _ rest hread
  obtain ⟨hgap, -⟩ := spaces_eq_some_iff.1 hread
  exact hgap.blank.suffix

theorem advances_index : index.Advances := by
  intro cs number rest hread
  obtain ⟨hdigits, -⟩ := index_eq_some_iff.1 hread
  exact hdigits.suffix

theorem advances_bareFunctionName : bareFunctionName.Advances := by
  intro cs name rest hread
  obtain ⟨hname, -⟩ := bareFunctionName_eq_some_iff.1 hread
  exact hname.suffix

theorem advances_functionName : functionName.Advances := by
  refine .bind (advances_literal "%") fun _ => ?_
  exact advances_bareFunctionName

/-- What an instruction is read from is spelled by it, whichever form was the one that fitted. -/
theorem advances_instruction : instruction.Advances := by
  intro cs inst rest hread
  obtain ⟨hwritten, -⟩ := instruction_sound hread
  exact Written.suffix hwritten

theorem advances_instructionLine : instructionLine.Advances := by
  refine .bind advances_instruction fun inst => ?_
  refine .bind advances_blanks fun _ => ?_
  exact .pure inst

/-- A label and the instructions behind it. -/
theorem advances_block : block.Advances := by
  refine .lift_bind advances_blanks fun _ => ?_
  refine .lift_bind (advances_literal "block") fun _ => ?_
  refine .lift_bind advances_index fun label => ?_
  refine .lift_bind advances_spaces fun _ => ?_
  refine .lift_bind (advances_literal ":") fun _ => ?_
  refine .lift_bind advances_blanks fun _ => ?_
  refine .bind (.ofFunction advances_instructionLine.many) fun insts => ?_
  exact .pure (label, insts)

/-- The name of a function, and its blocks between braces. -/
theorem advances_function : function.Advances := by
  refine .lift_bind (advances_literal "function") fun _ => ?_
  refine .lift_bind advances_blanks fun _ => ?_
  refine .lift_bind (advances_literal "%") fun _ => ?_
  refine .lift_bind advances_bareFunctionName fun name => ?_
  refine .lift_bind advances_blanks fun _ => ?_
  refine .lift_bind (advances_literal "\x7b") fun _ => ?_
  refine .lift_bind advances_blanks fun _ => ?_
  refine .bind advances_block.many1 fun blocks => ?_
  refine .lift_bind (advances_literal "\x7d") fun _ => ?_
  refine .lift_bind advances_blanks fun _ => ?_
  exact .pure (⟨name, blocks⟩ : FunctionText)

theorem advances_entryLine : entryLine.Advances := by
  refine .bind (advances_literal "entry") fun _ => ?_
  refine .bind advances_blanks fun _ => ?_
  refine .bind (advances_literal ":") fun _ => ?_
  refine .bind advances_blanks fun _ => ?_
  refine .bind advances_functionName fun name => ?_
  refine .bind advances_blanks fun _ => ?_
  exact .pure name

theorem advances_innerFunction : innerFunction.Advances := by
  refine .bind advances_blanks fun _ => ?_
  exact advances_function.toReader

/-- The entry, if there is one, and the functions of a module between braces. -/
theorem advances_module : module.Advances := by
  refine .lift_bind (advances_literal "module") fun _ => ?_
  refine .lift_bind advances_blanks fun _ => ?_
  refine .lift_bind (advances_literal "\x7b") fun _ => ?_
  refine .lift_bind advances_blanks fun _ => ?_
  refine .lift_bind advances_entryLine.optional fun entry => ?_
  refine .bind (.ofFunction advances_innerFunction.many) fun functions => ?_
  refine .lift_bind (advances_literal "\x7d") fun _ => ?_
  refine .lift_bind advances_blanks fun _ => ?_
  exact .pure (⟨entry, functions⟩ : ModuleText)

end Advances

section Described

/-- A rule reads what is spelled in a certain way, with the blanks behind it, and nothing else; and
this does not depend on what is left of the text. -/
structure Rule.Describes (rule : Rule α) (Spelled : α → List Char → List Char → Prop) : Prop where
  advances : rule.Advances
  sound : ∀ {cs rest a}, rule cs = .ok (a, rest) → Spelled a cs rest ∧ skipBlanks rest = rest
  complete : ∀ {cs rest a}, Spelled a cs rest → skipBlanks rest = rest → rule cs = .ok (a, rest)
  visible : ∀ {cs rest a}, Spelled a cs rest → Visible cs
  cut : ∀ {cs rest tail a}, Stops isBlank tail → Spelled a (cs ++ tail) (rest ++ tail) →
    Spelled a cs rest

/-- Functions are read exactly where they are spelled. -/
theorem describes_function : function.Describes FunctionText.Spelled where
  advances := advances_function
  sound := function_sound
  complete := function_complete
  visible := FunctionText.Spelled.visible
  cut := FunctionText.Spelled.cut

/-- Modules are read exactly where they are spelled. -/
theorem describes_module : module.Describes ModuleText.Spelled where
  advances := advances_module
  sound := module_sound
  complete := module_complete
  visible := ModuleText.Spelled.visible
  cut := ModuleText.Spelled.cut

/-- What leaves something of a text when it is read leaves nothing of the part in front of it. -/
theorem Rule.Describes.whole_eq_ok {rule : Rule α} {Spelled : α → List Char → List Char → Prop}
    (h : rule.Describes Spelled) (kind : UnitKind) {a : α}
    (hread : rule (skipBlanks (cs ++ rest)) = .ok (a, rest)) : whole kind rule cs = .ok a := by
  obtain ⟨hspelled, hrest⟩ := h.sound hread
  have htail : Stops isBlank rest := stops_isBlank_of_skipBlanks hrest
  obtain ⟨mid, hmid⟩ : ∃ mid, skipBlanks (cs ++ rest) = mid ++ rest := by
    obtain ⟨mid, heq⟩ := h.advances.ok hread
    exact ⟨mid, heq.symm⟩
  have hblank : Blank cs mid := Blank.cut htail (hmid ▸ blank_skipBlanks (cs ++ rest))
  rw [hmid] at hspelled
  have hspelled : Spelled a mid [] := h.cut htail hspelled
  rw [whole_eq_ok_iff, hblank.skipBlanks_of_visible (h.visible hspelled)]
  exact h.complete hspelled (by simp [skipBlanks])

end Described

section Checks

/-- All that can be wrong with a function that was read is a label. -/
theorem FunctionText.isValidation_of_check {w : FunctionText} {e : ParseError}
    (h : w.check = .error e) : e.isValidation := by
  unfold check at h
  split at h
  next => exact Except.error.inj h ▸ rfl
  next => cases h

/-- All that can be wrong with a function that is stored is a label or its name. -/
theorem FunctionText.isValidation_of_addTo {w : FunctionText} {m : Module} {e : ParseError}
    (h : w.addTo m = .error e) : e.isValidation := by
  rcases except_bind_eq_error_iff.1 h with h | ⟨f, -, h⟩
  · exact isValidation_of_check h
  · split at h
    next => exact Except.error.inj h ▸ rfl
    next => cases h

/-- The same of functions that are stored one after the other. -/
theorem isValidation_of_foldlM_addTo {fs : List FunctionText} {m : Module} {e : ParseError}
    (h : fs.foldlM FunctionText.addTo m = .error e) : e.isValidation := by
  induction fs generalizing m with
  | nil => cases h
  | cons f fs ih =>
    rw [List.foldlM_cons] at h
    rcases except_bind_eq_error_iff.1 h with h | ⟨m', -, h⟩
    · exact FunctionText.isValidation_of_addTo h
    · exact ih h

/-- No check of a module that was read is about its grammar. -/
theorem ModuleText.isValidation_of_check {w : ModuleText} {e : ParseError}
    (h : w.check = .error e) : e.isValidation := by
  rcases except_bind_eq_error_iff.1 h with h | ⟨m, -, h⟩
  · exact isValidation_of_foldlM_addTo h
  · split at h
    next => cases h
    next =>
      split at h
      next => cases h
      next => exact Except.error.inj h ▸ rfl

end Checks

section Errors

/-- What is left of a text where reading ends, whether it fails or not. -/
def Rule.left (rule : Rule α) (cs : List Char) : List Char :=
  match rule cs with
  | .ok (_, rest) => rest
  | .error stop => stop

/-- Whether a text follows the grammar: if it is refused at all, it is for another reason. -/
def IsGrammatical (parse : String → Except ParseError β) (text : String) : Prop :=
  ∀ e, parse text = .error e → e.isValidation

/-- An error points between a front part of the text and the rest. If it is one of the grammar, the
rest is what reading left. If all that is wrong is that there is a rest, it begins with nothing that
could be skipped, and the front part follows the grammar. -/
def PointsInto (rule : Rule α) (parse : String → Except ParseError β) (text : String)
    (e : ParseError) : Prop :=
  ∃ front rest : String, text = front ++ rest ∧ e.position = front.utf8ByteSize ∧
    (e.isValidation = false → rest.toList = rule.left (skipBlanks text.toList)) ∧
    (e.message = "Unexpected trailing input" →
      skipBlanks rest.toList = rest.toList ∧ IsGrammatical parse front)

variable {rule : Rule α} {parse : String → Except ParseError β} {text : String} {e : ParseError}

/-- Texts that begin with different characters are different, whatever comes later. -/
theorem append_ne_of_head?_ne {word text : String} (hne : word.toList ≠ [])
    (h : word.toList.head? ≠ text.toList.head?) (later : String) : word ++ later ≠ text := by
  rintro rfl
  rw [String.toList_append, List.head?_append_of_ne_nil _ hne] at h
  exact h rfl

/-- No other error has this message, whatever the names and numbers in it are. -/
theorem exists_trailing_of_message (h : e.message = "Unexpected trailing input") :
    ∃ stop, e = .trailing stop := by
  unfold ParseError.message at h
  cases e with
  | malformed kind stop =>
    cases kind with
    | function => exact absurd h (by decide : "Failed to parse function" ≠ _)
    | module => exact absurd h (by decide : "Failed to parse module" ≠ _)
  | trailing stop => exact ⟨stop, rfl⟩
  | labelOrder | duplicateFunction | unknownEntry =>
    simp only [String.append_assoc] at h
    exact absurd h (append_ne_of_head?_ne (by decide) (by decide) _)

/-- A rest of a text is taken off its length by the length of what is in front of it. -/
theorem exists_split (h : rest <:+ text.toList) :
    ∃ front back : String, text = front ++ back ∧ back.toList = rest ∧
      Text.byteLength text.toList - Text.byteLength rest = front.utf8ByteSize := by
  obtain ⟨front, hfront⟩ := h
  refine ⟨String.ofList front, String.ofList rest, ?_, String.toList_ofList, ?_⟩
  · rw [← String.ofList_append, hfront, String.ofList_toList]
  · rw [← hfront, Text.byteLength_append, Nat.add_sub_cancel, ← Text.byteLength_toList,
      String.toList_ofList]

/-- An error of a check points in front of the whole text. -/
theorem pointsInto_of_isValidation (h : e.isValidation) : PointsInto rule parse text e := by
  refine ⟨"", text, String.empty_append.symm, ?_, fun hnot => ?_, fun hmessage => ?_⟩
  · cases e <;> first | rfl | cases h
  · cases hnot.symm.trans h
  · obtain ⟨stop, rfl⟩ := exists_trailing_of_message hmessage
    cases h

/-- A failure to read points to where the rule stopped. -/
theorem pointsInto_of_stop {stop : List Char} (kind : UnitKind)
    (hread : rule (skipBlanks text.toList) = .error stop) (hstop : stop <:+ text.toList) :
    PointsInto rule parse text
      (.malformed kind (Text.byteLength text.toList - Text.byteLength stop)) := by
  obtain ⟨front, back, htext, hback, hposition⟩ := exists_split hstop
  refine ⟨front, back, htext, hposition, fun _ => ?_, fun hmessage => ?_⟩
  · rw [Rule.left, hread, hback]
  · obtain ⟨_, htrailing⟩ := exists_trailing_of_message hmessage
    cases htrailing

/-- Input that is left over points to where it begins, if the part in front of it follows the
grammar. -/
theorem pointsInto_of_rest {a : α} (hread : rule (skipBlanks text.toList) = .ok (a, rest))
    (hsuffix : rest <:+ text.toList) (hrest : skipBlanks rest = rest)
    (hfront : ∀ front : String, text.toList = front.toList ++ rest → IsGrammatical parse front) :
    PointsInto rule parse text
      (.trailing (Text.byteLength text.toList - Text.byteLength rest)) := by
  obtain ⟨front, back, rfl, rfl, hposition⟩ := exists_split hsuffix
  refine ⟨front, back, rfl, hposition, fun _ => ?_, fun _ => ⟨hrest, ?_⟩⟩
  · rw [Rule.left, hread]
  · exact hfront front String.toList_append

/-- Where a rule reads what is described, and all further errors are no matter of grammar, every
error points into the text. -/
theorem Rule.Describes.pointsInto {Spelled : α → List Char → List Char → Prop}
    (h : rule.Describes Spelled) {kind : UnitKind} {check : α → Except ParseError β}
    (hcheck : ∀ {a e}, check a = .error e → e.isValidation)
    (herror : (whole kind rule text.toList >>= check) = .error e) :
    PointsInto rule (fun text => whole kind rule text.toList >>= check) text e := by
  have hsuffix : skipBlanks text.toList <:+ text.toList := (blank_skipBlanks _).suffix
  rcases except_bind_eq_error_iff.1 herror with hwhole | ⟨a, -, herror⟩
  · unfold whole at hwhole
    split at hwhole
    next stop hread =>
      obtain rfl := Except.error.inj hwhole
      exact pointsInto_of_stop kind hread ((h.advances.error hread).trans hsuffix)
    next => cases hwhole
    next a c later hread =>
      obtain rfl := Except.error.inj hwhole
      refine pointsInto_of_rest hread ((h.advances.ok hread).trans hsuffix) (h.sound hread).2 ?_
      intro front htext e he
      -- The front part is read to its end, and then only the checks can fail.
      have hfront : whole kind rule front.toList = .ok a := h.whole_eq_ok kind (htext ▸ hread)
      replace he : (whole kind rule front.toList >>= check) = .error e := he
      rw [hfront] at he
      exact hcheck he
  · exact pointsInto_of_isValidation (hcheck herror)

/-- Whatever a text is, an error points between a front part of it and the rest, in bytes. If all
that is wrong is that there is a rest, the front part alone follows the grammar. -/
theorem pointsInto_of_parse (text : String) :
    (∀ e, Function.parse text = .error e → PointsInto function Function.parse text e) ∧
      ∀ e, Module.parse text = .error e → PointsInto module Module.parse text e := by
  constructor
  · intro e hfunction
    exact describes_function.pointsInto FunctionText.isValidation_of_check hfunction
  · intro e hmodule
    exact describes_module.pointsInto ModuleText.isValidation_of_check hmodule

/-- A function with a label out of sequence, and behind it a comment with a carriage return in it,
which is none and cannot be skipped. The module that was expected is missed behind the first line,
in which one character takes two bytes. -/
theorem pointsInto_of_parse_sample :
    let text := "; é\nfunction %f\x7bblock1:return 1\x7d ; x\ry"
    (Function.parse text = .error (.trailing 34) ∧
      PointsInto function Function.parse text (.trailing 34)) ∧
    Module.parse text = .error (.malformed .module 5) ∧
      PointsInto module Module.parse text (.malformed .module 5) := by
  intro text
  have hfunction : Function.parse text = .error (.trailing 34) := by decide +kernel
  have hmodule : Module.parse text = .error (.malformed .module 5) := by decide +kernel
  exact ⟨⟨hfunction, (pointsInto_of_parse text).1 _ hfunction⟩, hmodule,
    (pointsInto_of_parse text).2 _ hmodule⟩

end Errors

end Grammar

end DefiniteAssignment
