/-!
# Directories

A directory keeps values under names, in the order of the names. Names are ordered by code points,
which is also the order of their bytes in UTF-8.

## Main definitions

* `Directory.find?`: the value under a name.
* `Directory.insert`: put a value under a name; a value that was there before is given back.
* `Directory.take?`, `Directory.takeFirst?`: take out a value.
-/

namespace HashIndex.Script

/-- Values under names. -/
structure Directory (α : Type) where
  /-- The names in ascending order, each with its value. -/
  entries : List (String × α)

namespace Directory

variable {α : Type}

def empty : Directory α := ⟨[]⟩

def size (d : Directory α) : Nat := d.entries.length

def find? (d : Directory α) (name : String) : Option α := d.entries.lookup name

def insertInto (name : String) (value : α) :
    List (String × α) → Option α × List (String × α)
  | [] => (none, [(name, value)])
  | (other, old) :: entries =>
    if name = other then (some old, (name, value) :: entries)
    else if name < other then (none, (name, value) :: (other, old) :: entries)
    else
      let (replaced, entries) := insertInto name value entries
      (replaced, (other, old) :: entries)

/-- Put a value under a name. A value that was there before is given back. -/
def insert (d : Directory α) (name : String) (value : α) : Option α × Directory α :=
  let (replaced, entries) := insertInto name value d.entries
  (replaced, ⟨entries⟩)

def take? (d : Directory α) (name : String) : Option (α × Directory α) :=
  (d.find? name).map (fun value => (value, ⟨d.entries.filter (fun entry => entry.1 ≠ name)⟩))

def takeFirst? (d : Directory α) : Option (α × Directory α) :=
  match d.entries with
  | [] => none
  | (_, value) :: entries => some (value, ⟨entries⟩)

theorem length_insertInto (name : String) (value : α) (entries : List (String × α)) :
    (insertInto name value entries).2.length + (insertInto name value entries).1.toList.length =
      entries.length + 1 := by
  induction entries with
  | nil => rfl
  | cons entry entries ih =>
    obtain ⟨other, old⟩ := entry
    unfold insertInto
    split
    · rfl
    · split
      · rfl
      · simp only [List.length_cons]
        omega

/-- Inserting adds an entry unless it replaces one. -/
theorem size_insert (d : Directory α) (name : String) (value : α) :
    (d.insert name value).2.size + (d.insert name value).1.toList.length = d.size + 1 :=
  length_insertInto name value d.entries

/-- Taking out the first entry leaves one entry less. -/
theorem size_of_takeFirst? {d rest : Directory α} {value : α}
    (h : d.takeFirst? = some (value, rest)) : d.size = rest.size + 1 := by
  unfold takeFirst? at h
  split at h
  · cases h
  next hd =>
    cases h
    simp [size, hd]

end Directory

end HashIndex.Script
