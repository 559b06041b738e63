import DefiniteAssignment.Proofs.Grammar.Functions
/-!
# The functions of a module, collected

Behind the grammar, the functions of a module are checked and stored one after the other. A module
as written is consistent if every function counts its labels up from zero, no two functions share a
name, and the entry names one of them; `ModuleText.check_eq_ok_iff` says that exactly then there is
a module, and that it holds the functions that were written and no others. As a table is kept in the
order of the names, these conditions leave room for one module only.
-/

namespace DefiniteAssignment

/-- Inserting under a new key adds one element and takes none away. -/
theorem Ascending.perm_insertBy {α κ : Type} [LT κ] [DecidableLT κ]
    [Std.Trichotomous (α := κ) (· < ·)] {key : α → κ} {x : α} {l : List α}
    (h : ∀ y ∈ l, key y ≠ key x) : (insertBy key x l).Perm (x :: l) := by
  induction l with
  | nil => exact .refl _
  | cons y ys ih =>
    obtain ⟨hy, hys⟩ := List.forall_mem_cons.1 h
    unfold insertBy
    split
    · exact .refl _
    next hxy =>
      split
      · exact ((ih hys).cons y).trans (.swap x y ys)
      next hyx => exact absurd (Std.Trichotomous.trichotomous _ _ hyx hxy) hy

namespace NameTable

variable {α : Type} {s t : NameTable α} {name : String} {value : α}

theorem contains_iff : t.contains name ↔ name ∈ t.names := by
  simp [contains, find?, names, List.lookup_isSome_iff]

theorem contains_insert {other : String} :
    (t.insert name value).contains other ↔ other = name ∨ t.contains other := by
  rw [contains, contains, find?_insert]
  split <;> simp_all

/-- A new name adds an entry beside those that are there. -/
theorem perm_insert (h : ¬t.contains name) :
    (t.insert name value).entries.Perm ((name, value) :: t.entries) := by
  refine Ascending.perm_insertBy fun entry hentry heq => h (contains_iff.2 ?_)
  exact List.mem_map.2 ⟨entry, hentry, heq⟩

/-- A table is determined by its entries in any order. -/
theorem ext_of_perm (h : s.entries.Perm t.entries) : s = t := by
  refine ext (List.Perm.eq_of_pairwise (fun a b _ _ hab hba => ?_) s.ascending t.ascending h)
  exact absurd (String.lt_trans hab hba) (String.lt_irrefl _)

end NameTable

namespace Module

variable {m n : Module}

/-- A module lists its functions under their own names. -/
theorem names_eq (h : m.KeyedByName) : m.functions.names = m.functions.values.map (·.name) := by
  simp only [NameTable.names, NameTable.values, List.map_map]
  exact List.map_congr_left h

/-- The entries of a module are determined by its functions. -/
theorem entries_eq (h : m.KeyedByName) :
    m.functions.entries = m.functions.values.map fun f => (f.name, f) := by
  rw [NameTable.values, List.map_map]
  refine (List.map_id _).symm.trans (List.map_congr_left fun entry hentry => ?_)
  exact Prod.ext (h entry hentry) rfl

/-- A module is determined by its entry and its functions in any order. -/
theorem ext_of_perm (hm : m.KeyedByName) (hn : n.KeyedByName) (hentry : m.entry = n.entry)
    (h : m.functions.values.Perm n.functions.values) : m = n := by
  have hfunctions : m.functions = n.functions := by
    refine NameTable.ext_of_perm ?_
    rw [entries_eq hm, entries_eq hn]
    exact h.map _
  cases m
  cases n
  simp_all

/-- A function with a new name is stored beside all others. -/
theorem perm_add {f : Function} (h : ¬m.functions.contains f.name) :
    (m.add f).functions.values.Perm (f :: m.functions.values) := by
  have hentries : (m.add f).functions.entries.Perm ((f.name, f) :: m.functions.entries) :=
    NameTable.perm_insert h
  exact hentries.map (·.2)

end Module

namespace Grammar

/-- A module as written in which the functions and the entry are in order. -/
structure ModuleText.Consistent (w : ModuleText) : Prop where
  labels : ∀ f ∈ w.functions, f.InSequence
  distinct : (w.functions.map (·.name)).Nodup
  entry : ∀ name ∈ w.entry, name ∈ w.functions.map (·.name)

/-- A module holds exactly what is written: the entry, and every function once. -/
structure ModuleText.HeldBy (w : ModuleText) (m : Module) : Prop where
  keyed : m.KeyedByName
  entry : m.entry = w.entry
  functions : m.functions.values.Perm (w.functions.map FunctionText.function)

/-- A function is stored exactly if its labels are in sequence and its name is new. -/
theorem FunctionText.addTo_eq_ok_iff {f : FunctionText} {m n : Module} :
    f.addTo m = .ok n ↔
      f.InSequence ∧ ¬m.functions.contains f.name ∧ m.add f.function = n := by
  simp only [addTo, except_bind_eq_ok_iff, check_eq_ok_iff]
  constructor
  · rintro ⟨function, ⟨hlabels, rfl⟩, h⟩
    split at h
    · obtain ⟨_, ⟨⟩, -⟩ := except_bind_eq_ok_iff.1 h
    next hnew => exact ⟨hlabels, hnew, Except.ok.inj h⟩
  · rintro ⟨hlabels, hnew, rfl⟩
    exact ⟨_, ⟨hlabels, rfl⟩, by rw [if_neg hnew]; rfl⟩

theorem not_contains_add {m : Module} {f : Function} {name : String} :
    ¬(m.add f).functions.contains name ↔ name ≠ f.name ∧ ¬m.functions.contains name := by
  rw [Module.add, NameTable.contains_insert, not_or]

/-- Functions are stored one after the other exactly if each is in order and none has the name of
one that is there already; then they stand beside those that were there. -/
theorem foldlM_addTo_eq_ok_iff {fs : List FunctionText} {m n : Module} (hm : m.KeyedByName) :
    fs.foldlM FunctionText.addTo m = .ok n ↔
      ((∀ f ∈ fs, f.InSequence) ∧ (fs.map (·.name)).Nodup ∧
        ∀ f ∈ fs, ¬m.functions.contains f.name) ∧
      n.KeyedByName ∧ n.entry = m.entry ∧
        n.functions.values.Perm (fs.map FunctionText.function ++ m.functions.values) := by
  induction fs generalizing m with
  | nil =>
    constructor
    · rintro ⟨⟩
      exact ⟨⟨by simp, by simp, by simp⟩, hm, rfl, .refl _⟩
    · rintro ⟨-, hn, hentry, hperm⟩
      exact congrArg Except.ok (Module.ext_of_perm hm hn hentry.symm hperm.symm)
  | cons f fs ih =>
    simp only [List.foldlM_cons, except_bind_eq_ok_iff, FunctionText.addTo_eq_ok_iff]
    constructor
    · rintro ⟨_, ⟨hlabels, hnew, rfl⟩, hfold⟩
      obtain ⟨⟨hlater, hnodup, hnews⟩, hn, hentry, hperm⟩ := (ih (hm.add _)).1 hfold
      simp only [not_contains_add] at hnews
      have hne : f.name ∉ fs.map (·.name) := by
        intro hmem
        obtain ⟨g, hg, hname⟩ := List.mem_map.1 hmem
        exact (hnews g hg).1 hname
      have hnews' : ∀ g ∈ f :: fs, ¬m.functions.contains g.name :=
        List.forall_mem_cons.2 ⟨hnew, fun g hg => (hnews g hg).2⟩
      refine ⟨⟨?_, List.nodup_cons.2 ⟨hne, hnodup⟩, hnews'⟩, hn, hentry, ?_⟩
      · exact List.forall_mem_cons.2 ⟨hlabels, hlater⟩
      · exact hperm.trans (((Module.perm_add hnew).append_left _).trans List.perm_middle)
    · rintro ⟨⟨hlabels, hnodup, hnews⟩, hn, hentry, hperm⟩
      obtain ⟨hf, hlater⟩ := List.forall_mem_cons.1 hlabels
      obtain ⟨hne, hnodup⟩ := List.nodup_cons.1 hnodup
      obtain ⟨hnew, hnews⟩ := List.forall_mem_cons.1 hnews
      have hnews' : ∀ g ∈ fs, ¬(m.add f.function).functions.contains g.name := by
        intro g hg
        refine not_contains_add.2 ⟨fun hname => hne ?_, hnews g hg⟩
        exact List.mem_map.2 ⟨g, hg, hname⟩
      have hperm' := hperm.trans
        (((Module.perm_add hnew).append_left _).trans List.perm_middle).symm
      refine ⟨m.add f.function, ⟨hf, hnew, rfl⟩, (ih (hm.add _)).2 ?_⟩
      exact ⟨⟨hlater, hnodup, hnews'⟩, hn, hentry, hperm'⟩

/-- Once the functions are stored, only the entry is left to be looked up. -/
theorem ModuleText.check_eq_ok_iff_exists {w : ModuleText} {m : Module} :
    w.check = .ok m ↔ ∃ n, w.functions.foldlM FunctionText.addTo Module.empty = .ok n ∧
      (∀ name ∈ w.entry, n.functions.contains name) ∧
      m = { n with entry := w.entry.or n.entry } := by
  rw [check, except_bind_eq_ok_iff]
  refine exists_congr fun n => and_congr_right fun _ => ?_
  cases w.entry with
  | none => exact ⟨fun h => ⟨nofun, (Except.ok.inj h).symm⟩, fun h => congrArg Except.ok h.2.symm⟩
  | some name =>
    by_cases hname : n.functions.contains name
    · have hset : n.setEntry? name = some { n with entry := some name } := if_pos hname
      simp [hset, hname, pure, Except.pure, eq_comm (a := m)]
    · have hset : n.setEntry? name = none := if_neg hname
      simp [hset, hname, throw, throwThe, MonadExceptOf.throw]

/-- A module that holds the functions of a list has their names. -/
theorem contains_iff_of_perm {fs : List FunctionText} {m : Module} (hm : m.KeyedByName)
    (hperm : m.functions.values.Perm (fs.map FunctionText.function)) {name : String} :
    m.functions.contains name ↔ name ∈ fs.map (·.name) := by
  rw [NameTable.contains_iff, Module.names_eq hm, (hperm.map (·.name)).mem_iff, List.map_map]
  rfl

/-- A module as written is accepted exactly if it is consistent, and then the result holds what is
written. -/
theorem ModuleText.check_eq_ok_iff {w : ModuleText} {m : Module} :
    w.check = .ok m ↔ w.Consistent ∧ w.HeldBy m := by
  have hempty : Module.empty.functions.values = [] := rfl
  simp only [check_eq_ok_iff_exists, foldlM_addTo_eq_ok_iff Module.keyedByName_empty, hempty,
    List.append_nil]
  constructor
  · rintro ⟨n, ⟨⟨hlabels, hdistinct, -⟩, hn, hnone, hperm⟩, hentry, rfl⟩
    have hconsistent : w.Consistent :=
      ⟨hlabels, hdistinct, fun name hname => (contains_iff_of_perm hn hperm).1 (hentry name hname)⟩
    have hor : w.entry.or n.entry = w.entry := by rw [hnone, Module.empty, Option.or_none]
    exact ⟨hconsistent, hn, hor, hperm⟩
  · rintro ⟨⟨hlabels, hdistinct, hentry⟩, hm, hheld, hperm⟩
    -- The functions alone make the module without its entry.
    refine ⟨⟨m.functions, none⟩, ⟨⟨hlabels, hdistinct, ?_⟩, hm, rfl, hperm⟩, ?_, ?_⟩
    · exact fun _ _ => Bool.noConfusion
    · exact fun name hname => (contains_iff_of_perm hm hperm).2 (hentry name hname)
    · rw [Option.or_none, ← hheld]

end Grammar

end DefiniteAssignment
