/-!
# Readers and rules

A `Reader` takes a value off the front of a text or declines. A `Rule` does the same, but where it
fails it hands back the rest of the text at which it stopped, so that the place can be reported.
Any reader may stand in a rule: it then fails where it was to begin.

Main statements: the laws by which a chain of readers or rules is taken apart
(`Reader.bind_eq_some_iff`, `Rule.bind_eq_ok_iff`).
-/

namespace DefiniteAssignment.Grammar

/-- Takes a value off the front of a text, or declines. -/
def Reader (α : Type) : Type :=
  List Char → Option (α × List Char)

/-- Takes a value off the front of a text, or hands back the rest at which it stopped. -/
def Rule (α : Type) : Type :=
  List Char → Except (List Char) (α × List Char)

namespace Reader

variable {α β : Type}

instance : Monad Reader where
  pure a := fun cs => some (a, cs)
  bind read next := fun cs =>
    match read cs with
    | some (a, rest) => next a rest
    | none => none

/-- The first reader that does not decline, from the same place. -/
instance : OrElse (Reader α) where
  orElse first second := fun cs =>
    match first cs with
    | some result => some result
    | none => second () cs

/-- Keeps the values that `f` accepts; the reader declines on all others. -/
def mapAccepted (read : Reader α) (f : α → Option β) : Reader β := fun cs =>
  match read cs with
  | some (a, rest) => (f a).map (·, rest)
  | none => none

/-- A fixed piece of text. -/
def literal (text : String) : Reader Unit := fun cs =>
  (text.toList.isPrefixOf? cs).map ((), ·)

/-- The longest run of characters of a class, which may be empty. -/
def run (inClass : Char → Bool) : Reader (List Char) := fun cs =>
  some (cs.takeWhile inClass, cs.dropWhile inClass)

/-- The longest run of characters of a class, which must not be empty. -/
def run1 (inClass : Char → Bool) : Reader (List Char) := fun cs =>
  match cs.takeWhile inClass with
  | [] => none
  | c :: taken => some (c :: taken, cs.dropWhile inClass)

/-- The value, or `none` where the reader declines; nothing is then taken. -/
def optional (read : Reader α) : Reader (Option α) := fun cs =>
  match read cs with
  | some (a, rest) => some (some a, rest)
  | none => some (none, cs)

/-- As many values as can be read one behind the other, each of which must take something. -/
def many (read : Reader α) (cs : List Char) : List α × List Char :=
  match read cs with
  | none => ([], cs)
  | some (a, rest) =>
    if rest.length < cs.length then
      let (later, last) := many read rest
      (a :: later, last)
    else ([], cs)
termination_by cs.length

/-- As many values as can be read with separators between them. A separator without a value behind
it is not taken. -/
def separated (read : Reader α) (separator : Reader Unit) : Reader (List α) := fun cs =>
  match read cs with
  | none => some ([], cs)
  | some (a, rest) =>
    let (later, last) := many (do separator; read) rest
    some (a :: later, last)

@[simp]
theorem pure_apply (a : α) (cs : List Char) : (pure a : Reader α) cs = some (a, cs) := rfl

/-- A chain succeeds exactly if its first part does and the rest does on what is left. -/
theorem bind_eq_some_iff {read : Reader α} {next : α → Reader β} {cs rest : List Char} {b : β} :
    (read >>= next) cs = some (b, rest) ↔
      ∃ a mid, read cs = some (a, mid) ∧ next a mid = some (b, rest) := by
  show (match read cs with
    | some (a, rest) => next a rest
    | none => none) = _ ↔ _
  cases read cs with
  | none => simp
  | some p =>
    constructor
    · exact fun h => ⟨p.1, p.2, rfl, h⟩
    · rintro ⟨a, mid, ⟨⟩, h⟩
      exact h

/-- A chain goes on with what its first part leaves. -/
theorem bind_of_eq_some {read : Reader α} {next : α → Reader β} {cs mid : List Char} {a : α}
    (h : read cs = some (a, mid)) : (read >>= next) cs = next a mid := by
  show (match read cs with
    | some (a, rest) => next a rest
    | none => none) = _
  rw [h]

/-- A choice succeeds as its first reader does, or as its second where the first declines. -/
theorem orElse_eq_some_iff {first second : Reader α} {cs rest : List Char} {a : α} :
    (first <|> second) cs = some (a, rest) ↔
      first cs = some (a, rest) ∨ (first cs = none ∧ second cs = some (a, rest)) := by
  show (match first cs with
    | some result => some result
    | none => second cs) = _ ↔ _
  cases first cs <;> simp

end Reader

namespace Rule

variable {α β : Type}

instance : Monad Rule where
  pure a := fun cs => .ok (a, cs)
  bind rule next := fun cs =>
    match rule cs with
    | .ok (a, rest) => next a rest
    | .error stop => .error stop

/-- A reader as a rule that fails where the reader was to begin. -/
def ofReader (read : Reader α) : Rule α := fun cs =>
  match read cs with
  | some result => .ok result
  | none => .error cs

instance : MonadLift Reader Rule :=
  ⟨ofReader⟩

/-- The rule as a reader, which declines where the rule fails. -/
def toReader (rule : Rule α) : Reader α := fun cs =>
  match rule cs with
  | .ok result => some result
  | .error _ => none

/-- A function on texts that always succeeds, as a rule. -/
def ofFunction (take : List Char → α × List Char) : Rule α := fun cs =>
  .ok (take cs)

/-- One value or more, one behind the other. Only the first of them can make the rule fail. -/
def many1 (rule : Rule α) : Rule (List α) := do
  let first ← rule
  let later ← ofFunction rule.toReader.many
  return first :: later

/-- A chain succeeds exactly if its first part does and the rest does on what is left. -/
theorem bind_eq_ok_iff {rule : Rule α} {next : α → Rule β} {cs rest : List Char} {b : β} :
    (rule >>= next) cs = .ok (b, rest) ↔
      ∃ a mid, rule cs = .ok (a, mid) ∧ next a mid = .ok (b, rest) := by
  show (match rule cs with
    | .ok (a, rest) => next a rest
    | .error stop => .error stop) = _ ↔ _
  cases rule cs with
  | error stop => simp
  | ok p =>
    constructor
    · exact fun h => ⟨p.1, p.2, rfl, h⟩
    · rintro ⟨a, mid, ⟨⟩, h⟩
      exact h

/-- A chain fails where its first part fails or, on what that leaves, where the rest fails. -/
theorem bind_eq_error_iff {rule : Rule α} {next : α → Rule β} {cs stop : List Char} :
    (rule >>= next) cs = .error stop ↔
      rule cs = .error stop ∨ ∃ a mid, rule cs = .ok (a, mid) ∧ next a mid = .error stop := by
  show (match rule cs with
    | .ok (a, rest) => next a rest
    | .error stop => .error stop) = _ ↔ _
  cases rule cs with
  | error stop => simp
  | ok p =>
    constructor
    · exact fun h => .inr ⟨p.1, p.2, rfl, h⟩
    · rintro (h | ⟨a, mid, ⟨⟩, h⟩)
      · cases h
      · exact h

end Rule

end DefiniteAssignment.Grammar
