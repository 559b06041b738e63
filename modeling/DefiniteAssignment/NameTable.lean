import DefiniteAssignment.Ascending
/-!
# Name tables

A finite map from names to values, kept in the order of the names, so that two tables with the
same entries are equal and every listing comes out in name order.

Main statements: what each operation does to `find?`, and that `names` is strictly ascending.
-/

namespace DefiniteAssignment

/-- A finite map from names, in strictly ascending order of the names. -/
structure NameTable (α : Type) where
  entries : List (String × α)
  ascending : entries.Pairwise (·.1 < ·.1)

namespace NameTable

variable {α : Type}

/-- The table without entries. -/
def empty : NameTable α :=
  ⟨[], List.Pairwise.nil⟩

instance : Inhabited (NameTable α) :=
  ⟨empty⟩

instance [DecidableEq α] : DecidableEq (NameTable α)
  | ⟨l, _⟩, ⟨m, _⟩ => decidable_of_iff (l = m) (by simp)

/-- The value stored under a name. -/
def find? (t : NameTable α) (name : String) : Option α :=
  t.entries.lookup name

/-- Whether a name has a value. -/
def contains (t : NameTable α) (name : String) : Bool :=
  (t.find? name).isSome

/-- Stores a value under a name, in place of the value the name had. -/
def insert (t : NameTable α) (name : String) (value : α) : NameTable α :=
  ⟨Ascending.insertBy (·.1) (name, value) t.entries, Ascending.pairwise_insertBy t.ascending⟩

/-- Removes the entry of a name, if there is one. -/
def erase (t : NameTable α) (name : String) : NameTable α :=
  ⟨t.entries.filter (·.1 != name), t.ascending.filter _⟩

/-- The names, ascending. -/
def names (t : NameTable α) : List String :=
  t.entries.map (·.1)

/-- The values, in the order of their names. -/
def values (t : NameTable α) : List α :=
  t.entries.map (·.2)

/-- The number of entries. -/
def size (t : NameTable α) : Nat :=
  t.entries.length

/-- A table is its entries. -/
theorem ext {s t : NameTable α} (h : s.entries = t.entries) : s = t := by
  cases s; cases t; simp_all

/-- Names are listed ascending, each of them once. -/
theorem pairwise_names (t : NameTable α) : t.names.Pairwise (· < ·) :=
  List.pairwise_map.2 t.ascending

@[simp]
theorem find?_empty (name : String) : (empty : NameTable α).find? name = none := rfl

theorem lookup_cons_eq_ite (name key : String) (value : α) (l : List (String × α)) :
    ((key, value) :: l).lookup name = if name = key then some value else l.lookup name := by
  by_cases h : name = key
  · simp [h]
  · have : (name == key) = false := by simpa using h
    simp [List.lookup_cons, this, h]

/-- In a list by names, a look-up finds what was inserted last under the name. -/
theorem lookup_insertBy (name other : String) (value : α) (l : List (String × α)) :
    (Ascending.insertBy (·.1) (name, value) l).lookup other =
      if other = name then some value else l.lookup other := by
  induction l with
  | nil => simp [Ascending.insertBy, lookup_cons_eq_ite]
  | cons y ys ih =>
    obtain ⟨key, old⟩ := y
    simp only [Ascending.insertBy]
    split
    · simp [lookup_cons_eq_ite]
    · split
      next hlt =>
        have hne : key ≠ name := fun h => String.lt_irrefl _ (h ▸ hlt)
        by_cases h : other = key
        · simp [h, hne]
        · simp [lookup_cons_eq_ite, h, ih]
      next hxy hyx =>
        have same : name = key := Std.Trichotomous.trichotomous (r := (· < ·)) _ _ hxy hyx
        by_cases h : other = key <;> simp [lookup_cons_eq_ite, h, same]

/-- A name that was just stored is found; all others are as before. -/
theorem find?_insert (t : NameTable α) (name other : String) (value : α) :
    (t.insert name value).find? other = if other = name then some value else t.find? other :=
  lookup_insertBy name other value t.entries

end NameTable

end DefiniteAssignment
