import DefiniteAssignment.Proofs.CommandLine.Loading
/-!
# Histories of modules

A module is filled by calls that add a function or name an entry, in any order, starting from an
empty module or from one that was read. Functions may replace others of their name, the entry
function among them, and an entry may be refused.

Nothing of this can make the entry dangle: an entry is only ever accepted if there is a function of
its name, and adding keeps every name that is there. This is the invariant (`Module.Keeps`). What
the module holds can then be told from the calls alone: under each name the function that was added
last (`latest`), and as the entry the name that was accepted last (`accepted`). The command relies
on it when it picks functions, where an entry that dangles would be passed over in silence.

> `Module.remembers_after`
-/

namespace DefiniteAssignment

namespace NameTable

variable {α : Type} {t : NameTable α} {name : String} {value : α}

/-- What is found under a name is the entry of the table that has it. -/
theorem find?_eq_some_iff : t.find? name = some value ↔ (name, value) ∈ t.entries := by
  obtain ⟨entries, ascending⟩ := t
  show entries.lookup name = some value ↔ (name, value) ∈ entries
  induction entries with
  | nil => simp
  | cons entry entries ih =>
    obtain ⟨key, first⟩ := entry
    obtain ⟨hlt, htail⟩ := List.pairwise_cons.1 ascending
    rw [lookup_cons_eq_ite, List.mem_cons]
    split
    next heq =>
      -- All later names are greater, so this is the only entry of the name.
      subst heq
      have hnot : (name, value) ∉ entries := fun hmem => String.lt_irrefl name (hlt _ hmem)
      simp [hnot, eq_comm]
    next hne => simp [hne, ih htail]

end NameTable

namespace Module

/-! ## Calls and what they answer -/

/-- A call that changes a module. -/
inductive Call where
  | add (f : Function)
  | setEntry (name : String)

/-- What a call answers. -/
inductive Reply where
  /-- The function that had the name before. -/
  | displaced (old : Option Function)
  | accepted
  | refused
  deriving DecidableEq

namespace Call

/-- What a call answers, and the module after it. -/
def step (m : Module) : Call → Reply × Module
  | add f => (.displaced (m.findThenAdd f).1, (m.findThenAdd f).2)
  | setEntry name =>
    match m.setEntry? name with
    | some changed => (.accepted, changed)
    | none => (.refused, m)

/-- The function that a call adds. -/
def added? : Call → Option Function
  | add f => some f
  | setEntry _ => none

/-- The name that a call makes the entry of a module, unless it is refused. -/
def accepted? (m : Module) : Call → Option String
  | add _ => none
  | setEntry name => if (step m (setEntry name)).1 = .accepted then some name else none

end Call

/-- The module after some calls. -/
def after (start : Module) (calls : List Call) : Module :=
  calls.foldl (fun m call => (call.step m).2) start

/-- The functions of a name that calls add, in order. -/
def addedAs (name : String) (calls : List Call) : List Function :=
  (calls.filterMap Call.added?).filter (·.name = name)

/-- The function that was added last under a name, or else the one that was there at the start. -/
def latest (start : Module) (calls : List Call) (name : String) : Option Function :=
  (addedAs name calls).getLast?.or (start.find? name)

/-- The names that calls make the entry, in order. -/
def accepted : Module → List Call → List String
  | _, [] => []
  | m, call :: calls => (call.accepted? m).toList ++ accepted (call.step m).2 calls

variable {start m : Module} {calls : List Call} {name : String} {f : Function}

section Steps

theorem find?_isSome : (m.find? name).isSome ↔ m.functions.contains name :=
  Iff.rfl

/-- A name that is there becomes the entry. -/
theorem step_setEntry_of_contains (h : m.functions.contains name) :
    Call.step m (.setEntry name) = (.accepted, { m with entry := some name }) := by
  simp [Call.step, setEntry?, h]

/-- A name that is not there is refused, and the module stays as it is. -/
theorem step_setEntry_of_not_contains (h : ¬m.functions.contains name) :
    Call.step m (.setEntry name) = (.refused, m) := by
  simp [Call.step, setEntry?, h]

/-- What any call does: it adds a function, it sets the entry to a name that is there, or it is
refused a name that is not there. -/
theorem step_cases (m : Module) (call : Call) :
    (∃ f, call = .add f ∧ call.step m = (.displaced (m.find? f.name), m.add f)) ∨
    (∃ name, call = .setEntry name ∧ m.functions.contains name ∧
      call.step m = (.accepted, { m with entry := some name })) ∨
    ∃ name, call = .setEntry name ∧ ¬m.functions.contains name ∧ call.step m = (.refused, m) := by
  cases call with
  | add f => exact .inl ⟨f, rfl, rfl⟩
  | setEntry name =>
    by_cases h : m.functions.contains name
    · exact .inr (.inl ⟨name, rfl, h, step_setEntry_of_contains h⟩)
    · exact .inr (.inr ⟨name, rfl, h, step_setEntry_of_not_contains h⟩)

end Steps

section Invariant

/-- Functions are stored under their own names, and an entry names one of them. -/
structure Keeps (m : Module) : Prop where
  keyed : m.KeyedByName
  entry : ∀ name, m.entry = some name → m.functions.contains name

/-- The empty module has nothing to keep. -/
theorem keeps_empty : empty.Keeps where
  keyed := keyedByName_empty
  entry _ h := by cases h

/-- A module made of one function keeps it under its name. -/
theorem keeps_ofFunction (f : Function) : (ofFunction f).Keeps where
  keyed := keyedByName_empty.add f
  entry name h := by
    obtain rfl : f.name = name := Option.some.inj h
    exact NameTable.contains_insert.2 (.inl rfl)

/-- Adding a function keeps the names and the entry. -/
theorem Keeps.add (h : m.Keeps) (f : Function) : (m.add f).Keeps where
  keyed := h.keyed.add f
  entry name hname := NameTable.contains_insert.2 (.inr (h.entry name hname))

/-- No call breaks what a module keeps. -/
theorem Keeps.step (h : m.Keeps) (call : Call) : (call.step m).2.Keeps := by
  obtain ⟨f, -, hstep⟩ | ⟨name, -, hname, hstep⟩ | ⟨name, -, -, hstep⟩ := step_cases m call <;>
    rw [hstep]
  · exact h.add f
  · refine ⟨h.keyed, fun name' hname' => ?_⟩
    obtain rfl : name = name' := Option.some.inj hname'
    exact hname
  · exact h

/-- No history breaks what the module kept at its start. -/
theorem Keeps.after (h : start.Keeps) (calls : List Call) : (start.after calls).Keeps := by
  induction calls generalizing start with
  | nil => exact h
  | cons call calls ih => exact ih (h.step call)

theorem Keeps.name_eq (h : m.Keeps) (hf : m.find? name = some f) : f.name = name :=
  (h.keyed _ (NameTable.find?_eq_some_iff.1 hf)).symm

/-- A function is in a module if it is found under its own name. -/
theorem Keeps.mem_values_iff (h : m.Keeps) : f ∈ m.functions.values ↔ m.find? f.name = some f := by
  rw [find?, NameTable.find?_eq_some_iff, entries_eq h.keyed, List.mem_map]
  constructor
  · exact fun hmem => ⟨f, hmem, rfl⟩
  · rintro ⟨g, hmem, heq⟩
    exact (Prod.mk.inj heq).2 ▸ hmem

/-- Functions are listed in the order of their names. -/
theorem Keeps.pairwise_values (h : m.Keeps) : m.functions.values.Pairwise (·.name < ·.name) := by
  have hnames := m.functions.pairwise_names
  rwa [names_eq h.keyed, List.pairwise_map] at hnames

/-- The entry is never passed over. -/
theorem Keeps.entryFunction?_eq (h : m.Keeps) (hname : m.entry = some name) :
    ∃ f, m.find? name = some f ∧ m.entryFunction? = some f := by
  obtain ⟨f, hf⟩ := Option.isSome_iff_exists.1 (find?_isSome.2 (h.entry name hname))
  refine ⟨f, hf, ?_⟩
  rw [entryFunction?, hname]
  exact hf

/-- A module without functions finds nothing. -/
theorem Keeps.values_eq_nil_iff (h : m.Keeps) :
    m.functions.values = [] ↔ ∀ name, m.find? name = none := by
  rw [List.eq_nil_iff_forall_not_mem]
  constructor
  · intro hnil name
    refine Option.eq_none_iff_forall_ne_some.2 fun f hf => hnil f ?_
    rw [h.mem_values_iff, h.name_eq hf, hf]
  · intro hnone f hmem
    rw [h.mem_values_iff, hnone] at hmem
    cases hmem

/-- An entry selects the one function that it names. -/
theorem Keeps.select_of_entry (h : m.Keeps) (hname : m.entry = some name) :
    ∃ f, m.find? name = some f ∧ m.select none = .ok [f] := by
  obtain ⟨f, hf, hentry⟩ := h.entryFunction?_eq hname
  exact ⟨f, hf, by rw [select, hentry]⟩

/-- Without an entry, all functions are selected. -/
theorem select_of_no_entry (h : m.entry = none) (hne : m.functions.values ≠ []) :
    m.select none = .ok m.functions.values := by
  rw [select, entryFunction?, h, if_neg (by simpa using hne)]
  rfl

/-- Picking fails if there is nothing to pick, and never otherwise. -/
theorem Keeps.select_eq_error_iff (h : m.Keeps) :
    (∃ e, m.select none = .error e) ↔ m.functions.values = [] := by
  cases hentry : m.entry with
  | some name =>
    obtain ⟨f, hf, hselect⟩ := h.select_of_entry hentry
    have hne : m.functions.values ≠ [] := fun hnil => by
      rw [h.values_eq_nil_iff.1 hnil] at hf
      cases hf
    simp [hselect, hne]
  | none =>
    by_cases hnil : m.functions.values = []
    · refine iff_of_true ⟨.emptyModule, ?_⟩ hnil
      rw [select, entryFunction?, hentry, if_pos (by simpa using hnil)]
      rfl
    · rw [select_of_no_entry hentry hnil]
      simp [hnil]

end Invariant

section Histories

/-- What a list falls back to may as well be in front of it. -/
theorem getLast?_cons_or {α : Type} (a : α) (l : List α) (o : Option α) :
    (a :: l).getLast?.or o = l.getLast?.or (some a) := by
  rw [List.getLast?_cons]
  cases l.getLast? <;> rfl

/-- A call that is made first may as well be made before the start. -/
theorem latest_cons (call : Call) :
    latest start (call :: calls) name = latest (call.step start).2 calls name := by
  obtain ⟨f, rfl, hstep⟩ | ⟨_, rfl, -, hstep⟩ | ⟨_, rfl, -, hstep⟩ := step_cases start call <;>
    rw [hstep]
  · have hadded : (Call.add f :: calls).filterMap Call.added? = f :: calls.filterMap Call.added? :=
      rfl
    rw [latest, latest, addedAs, hadded, List.filter_cons, find?_add]
    by_cases hname : f.name = name
    · rw [if_pos (decide_eq_true hname), if_pos hname.symm, getLast?_cons_or, addedAs]
    · rw [if_neg (by simpa using hname), if_neg (Ne.symm hname), addedAs]
  · rfl
  · rfl

/-- After a history, a name finds what was last added under it, or else what was there at the
start. -/
theorem find?_after (start : Module) (calls : List Call) (name : String) :
    (start.after calls).find? name = latest start calls name := by
  -- For any start, since the first call makes another one of it.
  induction calls generalizing start with
  | nil => rfl
  | cons call calls ih => rw [latest_cons, ← ih, after, after, List.foldl_cons]

/-- A call that is accepted as an entry makes it the entry, and any other leaves the entry as it
is. -/
theorem entry_step (m : Module) (call : Call) :
    (call.step m).2.entry = (call.accepted? m).or m.entry := by
  obtain ⟨f, rfl, hstep⟩ | ⟨name, rfl, -, hstep⟩ | ⟨name, rfl, -, hstep⟩ := step_cases m call
  · rfl
  · simp [Call.accepted?, hstep]
  · simp [Call.accepted?, hstep]

/-- After a history, the entry is the last one accepted, or else that of the start. -/
theorem entry_after (start : Module) (calls : List Call) :
    (start.after calls).entry = (accepted start calls).getLast?.or start.entry := by
  induction calls generalizing start with
  | nil => rfl
  | cons call calls ih =>
    have hlater := ih (call.step start).2
    rw [after, List.foldl_cons, ← after, hlater, entry_step, accepted, List.getLast?_append,
      Option.or_assoc]
    cases call.accepted? start <;> rfl

end Histories

/-! ## What a module is after some calls -/

/-- The modules that histories start from. -/
inductive Origin : Module → Prop
  | empty : Origin empty
  | parsed {text : String} {m : Module} : parse text = .ok m → Origin m
  | loaded {text : String} {m : Module} : load text = .ok m → Origin m

/-- Modules come to be with the names and the entry in order. -/
theorem Origin.keeps (h : Origin m) : m.Keeps := by
  have hparsed {text : String} {m : Module} (hm : parse text = .ok m) : m.Keeps :=
    have hwritable := (exists_written_of_parse hm).1
    ⟨hwritable.keyed, hwritable.entry⟩
  cases h with
  | empty => exact keeps_empty
  | parsed hm => exact hparsed hm
  | loaded hm =>
    unfold load at hm
    split at hm
    next => exact hparsed hm
    next =>
      cases hf : Function.parse _ with
      | error e =>
        rw [hf] at hm
        cases hm
      | ok f =>
        rw [hf] at hm
        obtain rfl : ofFunction f = m := Except.ok.inj hm
        exact keeps_ofFunction f

/-- What a module has become of one that calls were made to. -/
structure Remembers (start : Module) (calls : List Call) (m : Module) : Prop where
  keyed : m.KeyedByName
  ascending : m.functions.names.Pairwise (· < ·)
  find?_eq : ∀ name, m.find? name = latest start calls name
  entry_eq : m.entry = (accepted start calls).getLast?.or start.entry
  entryFunction? : ∀ name, m.entry = some name →
    ∃ f, f.name = name ∧ latest start calls name = some f ∧ m.entryFunction? = some f
  /-- The answer to adding is the function that had the name, which no longer has it. -/
  add : ∀ f, ∃ m', Call.step m (.add f) = (.displaced (latest start calls f.name), m') ∧
    m'.find? f.name = some f ∧ (∀ name ≠ f.name, m'.find? name = m.find? name) ∧
    m'.entry = m.entry
  /-- A name that is not there is refused, and nothing changes. -/
  refused : ∀ name, (Call.step m (.setEntry name)).1 = .refused →
    latest start calls name = none ∧ (Call.step m (.setEntry name)).2 = m
  /-- A name that is there is accepted, and becomes the entry. -/
  accepted : ∀ name f, latest start calls name = some f →
    Call.step m (.setEntry name) = (.accepted, { m with entry := some name })
  /-- If there ever was an entry, its function is picked alone. -/
  select_entry : start.entry ≠ none ∨ Module.accepted start calls ≠ [] → ∃ f,
    m.entry = some f.name ∧ latest start calls f.name = some f ∧ m.select none = .ok [f]
  /-- If there never was an entry, all functions are picked in the order of their names. -/
  select_all : start.entry = none → Module.accepted start calls = [] →
    (∃ name, latest start calls name ≠ none) → ∃ fs, m.select none = .ok fs ∧
      fs.Pairwise (·.name < ·.name) ∧ ∀ f, f ∈ fs ↔ latest start calls f.name = some f
  /-- Only in a module without functions there is nothing to pick. -/
  select_error : (∃ e, m.select none = .error e) ↔ ∀ name, latest start calls name = none

/-- Whatever module calls start from, and whatever the calls are, the module that comes of them
holds under each name what was added last, and its entry is there. -/
theorem remembers_after (h : start.Origin) (calls : List Call) :
    Remembers start calls (start.after calls) where
  keyed := (h.keeps.after calls).keyed
  ascending := (start.after calls).functions.pairwise_names
  find?_eq := find?_after start calls
  entry_eq := entry_after start calls
  entryFunction? name hname := by
    have hkeeps := h.keeps.after calls
    obtain ⟨f, hf, hentry⟩ := hkeeps.entryFunction?_eq hname
    exact ⟨f, hkeeps.name_eq hf, find?_after start calls name ▸ hf, hentry⟩
  add f := by
    refine ⟨(start.after calls).add f, ?_, ?_, fun name hname => ?_, rfl⟩
    · rw [← find?_after]
      rfl
    · rw [find?_add, if_pos rfl]
    · rw [find?_add, if_neg hname]
  refused name hrefused := by
    by_cases hname : (start.after calls).functions.contains name
    · rw [step_setEntry_of_contains hname] at hrefused
      cases hrefused
    · refine ⟨?_, congrArg Prod.snd (step_setEntry_of_not_contains hname)⟩
      rw [← find?_after]
      simpa [← find?_isSome] using hname
  accepted name f hf := by
    refine step_setEntry_of_contains (find?_isSome.1 ?_)
    rw [find?_after, hf]
    rfl
  select_entry hset := by
    have hkeeps := h.keeps.after calls
    obtain ⟨name, hname⟩ : ∃ name, (start.after calls).entry = some name := by
      rw [entry_after, ← Option.ne_none_iff_exists', Ne, Option.or_eq_none_iff,
        List.getLast?_eq_none_iff]
      tauto
    obtain ⟨f, hf, hselect⟩ := hkeeps.select_of_entry hname
    obtain rfl := hkeeps.name_eq hf
    exact ⟨f, hname, find?_after start calls f.name ▸ hf, hselect⟩
  select_all hstart hnever hsome := by
    have hkeeps := h.keeps.after calls
    have hentry : (start.after calls).entry = none := by rw [entry_after, hstart, hnever]; rfl
    have hne : (start.after calls).functions.values ≠ [] := by
      obtain ⟨name, hname⟩ := hsome
      rw [← find?_after] at hname
      exact fun hnil => hname (hkeeps.values_eq_nil_iff.1 hnil name)
    refine ⟨_, select_of_no_entry hentry hne, hkeeps.pairwise_values, fun f => ?_⟩
    rw [hkeeps.mem_values_iff, find?_after]
  select_error := by
    have hkeeps := h.keeps.after calls
    simp only [hkeeps.select_eq_error_iff, hkeeps.values_eq_nil_iff, find?_after]

/-- The function that a text was loaded as is replaced, and an entry is refused: the function that
took its place is picked, and not all functions. -/
theorem remembers_after_sample :
    let start := ofFunction ⟨"f", [[.nop]]⟩
    let calls : List Call := [.add ⟨"g", [[]]⟩, .add ⟨"f", [[]]⟩, .setEntry "h"]
    load "function %f\x7bblock0:nop\x7d" = .ok start ∧
      Remembers start calls (start.after calls) ∧
      (start.after calls).select none = .ok [⟨"f", [[]]⟩] := by
  intro start calls
  have hload : load "function %f\x7bblock0:nop\x7d" = .ok start := by decide +kernel
  exact ⟨hload, remembers_after (.loaded hload) calls, by decide⟩

end Module

end DefiniteAssignment
