import Mathlib.Data.List.Basic
import DefiniteAssignment.Proofs.Grammar.Spelling
/-!
# What readers take

For each way of putting readers together, exactly when the reader succeeds and what it leaves. A
run takes all it can: what it leaves does not begin with a character of its class (`Stops`). A
repetition is a chain of successes, one behind the other (`Reader.chained_of_many`), and a chain of
things that can be read is read in full up to the first that cannot (`Reader.many_of_chained`).
-/

namespace DefiniteAssignment.Grammar

variable {α β : Type}

section Runs

variable {inClass : Char → Bool}

/-- The next character, if there is one, is not of a class. -/
def Stops (inClass : Char → Bool) (cs : List Char) : Prop :=
  ∀ c ∈ cs.head?, inClass c = false

@[simp]
theorem stops_nil : Stops inClass [] := by
  simp [Stops]

@[simp]
theorem stops_cons {c : Char} {cs : List Char} :
    Stops inClass (c :: cs) ↔ inClass c = false := by
  simp [Stops]

/-- A text that does not begin with a class does not begin with a smaller one. -/
theorem Stops.mono {inClass' : Char → Bool} {cs : List Char} (h : Stops inClass cs)
    (hout : ∀ c, inClass c = false → inClass' c = false) : Stops inClass' cs :=
  fun c hc => hout c (h c hc)

/-- What is left behind a run of a class does not begin with the class. -/
theorem stops_dropWhile (cs : List Char) : Stops inClass (cs.dropWhile inClass) := by
  induction cs with
  | nil => simp
  | cons c cs ih => by_cases hc : inClass c <;> simp [hc, ih]

/-- The only way to split a text into a run of a class and a rest that does not begin with the
class. -/
theorem takeWhile_dropWhile_iff {cs run rest : List Char} :
    cs.takeWhile inClass = run ∧ cs.dropWhile inClass = rest ↔
      (∀ c ∈ run, inClass c) ∧ cs = run ++ rest ∧ Stops inClass rest := by
  constructor
  · rintro ⟨rfl, rfl⟩
    exact ⟨fun c hc => List.all_eq_true.1 List.all_takeWhile c hc,
      List.takeWhile_append_dropWhile.symm, stops_dropWhile cs⟩
  · rintro ⟨hrun, rfl, hrest⟩
    rw [List.takeWhile_append_of_pos hrun, List.dropWhile_append_of_pos hrun]
    cases rest with
    | nil => simp
    | cons c rest =>
      have hc : inClass c = false := by simpa using hrest
      simp [hc]

/-- A run is taken whole where the class ends behind it. -/
theorem takeWhile_append_of_stops {run rest : List Char} (hrun : ∀ c ∈ run, inClass c)
    (hrest : Stops inClass rest) : (run ++ rest).takeWhile inClass = run :=
  (takeWhile_dropWhile_iff.2 ⟨hrun, rfl, hrest⟩).1

/-- What is left then is what stands behind the run. -/
theorem dropWhile_append_of_stops {run rest : List Char} (hrun : ∀ c ∈ run, inClass c)
    (hrest : Stops inClass rest) : (run ++ rest).dropWhile inClass = rest :=
  (takeWhile_dropWhile_iff.2 ⟨hrun, rfl, hrest⟩).2

end Runs

/-- A prefix is taken off exactly the texts that begin with it. -/
theorem isPrefixOf?_eq_some_iff {word cs rest : List Char} :
    word.isPrefixOf? cs = some rest ↔ cs = word ++ rest := by
  induction word generalizing cs with
  | nil => cases cs <;> simp [List.isPrefixOf?]
  | cons c word ih =>
    cases cs with
    | nil => simp [List.isPrefixOf?]
    | cons c' cs =>
      show (if c == c' then word.isPrefixOf? cs else none) = some rest ↔ _
      by_cases hc : c = c'
      · simp [hc, ih]
      · simp [hc, Ne.symm hc]

namespace Reader

variable {read : Reader α} {cs mid rest : List Char}

/-- A fixed text is read exactly where it stands. -/
theorem literal_eq_some_iff {text : String} {u : Unit} :
    literal text cs = some (u, rest) ↔ cs = text.toList ++ rest := by
  rw [← isPrefixOf?_eq_some_iff]
  unfold literal
  cases text.toList.isPrefixOf? cs <;> simp only [Option.map_none, Option.map_some,
    Option.some.injEq, Prod.mk.injEq, true_and, reduceCtorEq]

/-- A run that must not be empty is read up to where its class ends. -/
theorem run1_eq_some_iff {inClass : Char → Bool} {run : List Char} :
    run1 inClass cs = some (run, rest) ↔
      run ≠ [] ∧ (∀ c ∈ run, inClass c) ∧ cs = run ++ rest ∧ Stops inClass rest := by
  rw [← takeWhile_dropWhile_iff]
  unfold run1
  split
  next hnil =>
    rw [hnil]
    constructor
    · rintro ⟨⟩
    · rintro ⟨hne, hrun, -⟩
      exact absurd hrun.symm hne
  next c taken hcons =>
    rw [hcons]
    constructor
    · rintro ⟨⟩
      exact ⟨List.cons_ne_nil c taken, rfl, rfl⟩
    · rintro ⟨-, rfl, rfl⟩
      rfl

/-- A value is read through a function exactly if the function accepts what was read. -/
theorem mapAccepted_eq_some_iff {f : α → Option β} {b : β} :
    read.mapAccepted f cs = some (b, rest) ↔ ∃ a, read cs = some (a, rest) ∧ f a = some b := by
  unfold mapAccepted
  cases read cs with
  | none => simp
  | some result => cases hb : f result.1 <;> grind

/-- An optional value is read if it can be, and otherwise nothing is taken. -/
theorem optional_eq_some_iff {value : Option α} :
    read.optional cs = some (value, rest) ↔
      (∃ a, value = some a ∧ read cs = some (a, rest)) ∨
        (value = none ∧ rest = cs ∧ read cs = none) := by
  unfold optional
  cases read cs with
  | none => grind
  | some result => grind

/-- A chain declines if its first part does. -/
theorem bind_of_eq_none {next : α → Reader β} (h : read cs = none) : (read >>= next) cs = none := by
  simp only [bind, h]

/-- The second choice is not asked for if the first succeeds. -/
theorem orElse_of_eq_some {second : Reader α} {result : α × List Char}
    (h : read cs = some result) : (read <|> second) cs = some result := by
  simp only [HOrElse.hOrElse, OrElse.orElse, h]

/-- It begins at the same place if the first declines. -/
theorem orElse_of_eq_none {second : Reader α} (h : read cs = none) :
    (read <|> second) cs = second cs := by
  simp only [HOrElse.hOrElse, OrElse.orElse, h]

/-- A repetition takes a chain of values. The invariant `I` holds of every place at which the reader
is called. -/
theorem chained_of_many {R : α → List Char → List Char → Prop} {I : List Char → Prop}
    (step : ∀ {a cs mid}, I cs → read cs = some (a, mid) → R a cs mid ∧ I mid) (hI : I cs) :
    Chained R (read.many cs).1 cs (read.many cs).2 ∧ I (read.many cs).2 := by
  fun_induction many read cs with
  | case1 cs _ => exact ⟨rfl, hI⟩
  | case2 cs a mid hread hlt later last hmany ih =>
    obtain ⟨hR, hmid⟩ := step hI hread
    rw [hmany] at ih
    exact ⟨⟨mid, hR, (ih hmid).1⟩, (ih hmid).2⟩
  | case3 cs => exact ⟨rfl, hI⟩

/-- A chain of values is read in full, and no more is read behind it. Each value is read if `F`
holds of what follows it, and `F` holds of whatever begins with a value. -/
theorem many_of_chained {R : α → List Char → List Char → Prop} {F : List Char → Prop}
    (step : ∀ {a cs mid}, R a cs mid → F mid → read cs = some (a, mid) ∧ mid.length < cs.length)
    (start : ∀ {a cs mid}, R a cs mid → F cs) {as : List α} (h : Chained R as cs rest)
    (hF : F rest) (hrest : read rest = none) : read.many cs = (as, rest) := by
  induction as generalizing cs with
  | nil =>
    obtain rfl : cs = rest := h
    rw [many, hrest]
  | cons a as ih =>
    obtain ⟨mid, ha, has⟩ := h
    have hmid : F mid := by
      cases as with
      | nil => exact has ▸ hF
      | cons b bs =>
        obtain ⟨mid', hb, -⟩ := has
        exact start hb
    obtain ⟨hread, hlt⟩ := step ha hmid
    rw [many, hread]
    simp [hlt, ih has]

end Reader

namespace Rule

variable {rule : Rule α} {read : Reader α} {cs mid rest : List Char}

/-- As a rule, a reader succeeds where it does as a reader. -/
theorem lift_eq_ok_iff {a : α} :
    (liftM read : Rule α) cs = .ok (a, rest) ↔ read cs = some (a, rest) := by
  simp only [liftM, monadLift, MonadLift.monadLift, ofReader]
  cases read cs <;> simp

@[simp]
theorem pure_apply (a : α) (cs : List Char) : (pure a : Rule α) cs = .ok (a, cs) := rfl

@[simp]
theorem ofFunction_apply (take : List Char → α × List Char) (cs : List Char) :
    ofFunction take cs = .ok (take cs) := rfl

/-- A reader that declines makes a rule fail where the reader was to begin. -/
theorem lift_eq_error (h : read cs = none) : (liftM read : Rule α) cs = .error cs := by
  simp only [liftM, monadLift, MonadLift.monadLift, ofReader, h]

/-- A chain goes on with what its first part leaves. -/
theorem bind_of_eq_ok {next : α → Rule β} {a : α} (h : rule cs = .ok (a, mid)) :
    (rule >>= next) cs = next a mid := by
  simp only [bind, h]

/-- So does a chain that begins with a reader. -/
theorem bind_of_eq_some {next : α → Rule β} {a : α} (h : read cs = some (a, mid)) :
    ((liftM read : Rule α) >>= next) cs = next a mid :=
  bind_of_eq_ok (lift_eq_ok_iff.2 h)

/-- A chain fails where its first part fails. -/
theorem bind_of_eq_error {next : α → Rule β} {stop : List Char} (h : rule cs = .error stop) :
    (rule >>= next) cs = .error stop := by
  simp only [bind, h]

/-- One value or more are read exactly if the first can be, and then as many as can be. -/
theorem many1_eq_ok_iff {as : List α} :
    many1 rule cs = .ok (as, rest) ↔
      ∃ first mid, rule cs = .ok (first, mid) ∧ as = first :: (rule.toReader.many mid).1 ∧
        rest = (rule.toReader.many mid).2 := by
  simp only [many1, bind_eq_ok_iff, ofFunction_apply, pure_apply]
  constructor
  · rintro ⟨first, mid, hfirst, later, mid', hlater, ⟨⟩⟩
    obtain ⟨rfl, rfl⟩ := Prod.mk.inj (Except.ok.inj hlater).symm
    exact ⟨first, mid, hfirst, rfl, rfl⟩
  · rintro ⟨first, mid, hfirst, rfl, rfl⟩
    exact ⟨first, mid, hfirst, _, _, rfl, rfl⟩

/-- As a reader, a rule succeeds where it does as a rule. -/
theorem toReader_eq_some_iff {a : α} :
    rule.toReader cs = some (a, rest) ↔ rule cs = .ok (a, rest) := by
  unfold toReader
  cases rule cs <;> simp

/-- A chain of at least one value is read in full, and no more is read behind it. -/
theorem many1_of_chained {R : α → List Char → List Char → Prop} {F : List Char → Prop}
    (step : ∀ {a cs mid}, R a cs mid → F mid → rule cs = .ok (a, mid) ∧ mid.length < cs.length)
    (start : ∀ {a cs mid}, R a cs mid → F cs) {as : List α} (hne : as ≠ [])
    (h : Chained R as cs rest) (hF : F rest) (hrest : rule.toReader rest = none) :
    many1 rule cs = .ok (as, rest) := by
  obtain ⟨a, as, rfl⟩ := List.exists_cons_of_ne_nil hne
  obtain ⟨mid, ha, has⟩ := h
  have hmid : F mid := by
    cases as with
    | nil => exact has ▸ hF
    | cons b bs =>
      obtain ⟨mid', hb, -⟩ := has
      exact start hb
  have hmany : rule.toReader.many mid = (as, rest) :=
    Reader.many_of_chained (R := R) (F := F)
      (fun hR hF => ⟨toReader_eq_some_iff.2 (step hR hF).1, (step hR hF).2⟩) start has hF hrest
  exact many1_eq_ok_iff.2 ⟨a, mid, (step ha hmid).1, by rw [hmany], by rw [hmany]⟩

end Rule

section Whole

variable {ε : Type}

/-- A chain of checks is passed exactly if each of them is. -/
theorem except_bind_eq_ok_iff {first : Except ε α} {next : α → Except ε β} {b : β} :
    (first >>= next) = .ok b ↔ ∃ a, first = .ok a ∧ next a = .ok b := by
  cases first <;> simp [bind, Except.bind]

/-- It fails in its first check, or in a later one that was come to. -/
theorem except_bind_eq_error_iff {first : Except ε α} {next : α → Except ε β} {e : ε} :
    (first >>= next) = .error e ↔ first = .error e ∨ ∃ a, first = .ok a ∧ next a = .error e := by
  cases first <;> simp [bind, Except.bind]

/-- A whole text is read if nothing is left of it. -/
theorem whole_eq_ok_iff {kind : UnitKind} {rule : Rule α} {cs : List Char} {a : α} :
    whole kind rule cs = .ok a ↔ rule (skipBlanks cs) = .ok (a, []) := by
  unfold whole
  split
  next stop hstop => simp [hstop]
  next a' ha => simp [ha]
  next a' c rest ha => simp [ha]

end Whole

end DefiniteAssignment.Grammar
