import HashIndex.Script.Directory
import Mathlib.Data.List.Basic
import Mathlib.Data.List.Nodup
import Mathlib.Data.List.Perm.Basic

/-!
# The values of a directory

A directory that is in order has one value under a name. Putting a value in and taking one out
neither loses nor doubles any other.

## Main definitions

* `Directory.values`, `Directory.InOrder`: the values, and directories in the order of the names.

## Main statements

* `Directory.perm_insert`, `Directory.perm_of_take?`: the values before and after.
-/

namespace HashIndex.Script.Directory

variable {α : Type} {d rest : Directory α} {name : String} {value : α}

def values (d : Directory α) : List α := d.entries.map Prod.snd

def InOrder (d : Directory α) : Prop := d.entries.Pairwise fun a b => a.1 < b.1

theorem inOrder_empty : (empty : Directory α).InOrder := List.Pairwise.nil

theorem mem_values_of_find? (h : d.find? name = some value) : value ∈ d.values := by
  obtain ⟨before, after, hentries, -⟩ := List.lookup_eq_some_iff.mp h
  simp [values, hentries]

/-- What is inserted takes the place of what had the name before. -/
theorem perm_insertInto (name : String) (value : α) (entries : List (String × α)) :
    ((insertInto name value entries).1.toList ++
      (insertInto name value entries).2.map Prod.snd).Perm (value :: entries.map Prod.snd) := by
  induction entries with
  | nil => exact .refl _
  | cons entry entries ih =>
    obtain ⟨other, old⟩ := entry
    unfold insertInto
    split
    · exact List.Perm.swap ..
    · split
      · exact .refl _
      · simp only [List.map_cons]
        exact List.perm_middle.trans ((ih.cons old).trans (List.Perm.swap ..))

theorem perm_insert (d : Directory α) (name : String) (value : α) :
    ((d.insert name value).1.toList ++ (d.insert name value).2.values).Perm (value :: d.values) :=
  perm_insertInto name value d.entries

theorem mem_values_insertInto (name : String) (value : α) (entries : List (String × α)) :
    value ∈ (insertInto name value entries).2.map Prod.snd := by
  induction entries with
  | nil => simp [insertInto]
  | cons entry entries ih =>
    unfold insertInto
    split
    · simp
    · split
      · simp
      · exact List.mem_cons_of_mem _ ih

theorem mem_values_insert (d : Directory α) (name : String) (value : α) :
    value ∈ (d.insert name value).2.values :=
  mem_values_insertInto name value d.entries

theorem mem_insertInto {entries : List (String × α)} {entry : String × α}
    (h : entry ∈ (insertInto name value entries).2) :
    entry = (name, value) ∨ entry ∈ entries := by
  induction entries with
  | nil => exact .inl (List.mem_singleton.mp h)
  | cons first entries ih =>
    obtain ⟨other, old⟩ := first
    unfold insertInto at h
    split at h
    · rcases List.mem_cons.mp h with h | h
      · exact .inl h
      · exact .inr (List.mem_cons_of_mem _ h)
    · split at h
      · exact List.mem_cons.mp h
      · rcases List.mem_cons.mp h with rfl | h
        · exact .inr List.mem_cons_self
        · exact (ih h).imp_right (List.mem_cons_of_mem _)

theorem pairwise_insertInto {entries : List (String × α)}
    (h : entries.Pairwise fun a b => a.1 < b.1) :
    (insertInto name value entries).2.Pairwise fun a b => a.1 < b.1 := by
  induction entries with
  | nil => exact List.pairwise_singleton _ _
  | cons entry entries ih =>
    obtain ⟨other, old⟩ := entry
    obtain ⟨hfirst, hrest⟩ := List.pairwise_cons.mp h
    unfold insertInto
    split
    next heq =>
      subst heq
      exact List.pairwise_cons.mpr ⟨hfirst, hrest⟩
    next hne =>
      split
      next hlt =>
        refine List.pairwise_cons.mpr ⟨fun entry hentry => ?_, h⟩
        rcases List.mem_cons.mp hentry with rfl | hentry
        · exact hlt
        · exact String.lt_trans hlt (hfirst entry hentry)
      next hnlt =>
        have hlt : other < name := by
          rw [← String.not_le]
          intro hle
          exact hne (String.le_antisymm hle (String.not_lt.mp hnlt))
        refine List.pairwise_cons.mpr ⟨fun entry hentry => ?_, ih hrest⟩
        rcases mem_insertInto hentry with rfl | hentry
        · exact hlt
        · exact hfirst entry hentry

theorem InOrder.insert (h : d.InOrder) (name : String) (value : α) :
    (d.insert name value).2.InOrder :=
  pairwise_insertInto h

/-- What is replaced is what was found under the name. -/
theorem fst_insertInto {entries : List (String × α)} (h : entries.Pairwise fun a b => a.1 < b.1) :
    (insertInto name value entries).1 = entries.lookup name := by
  induction entries with
  | nil => rfl
  | cons entry entries ih =>
    obtain ⟨other, old⟩ := entry
    obtain ⟨hfirst, hrest⟩ := List.pairwise_cons.mp h
    by_cases heq : name = other
    · simp [insertInto, heq]
    have hlookup : ((other, old) :: entries).lookup name = entries.lookup name := by
      rw [List.lookup_cons, beq_false_of_ne heq]
    rw [hlookup, insertInto, if_neg heq]
    by_cases hlt : name < other
    · -- the name comes before all that are there
      rw [if_pos hlt]
      refine (List.lookup_eq_none_iff.mpr fun entry hentry => ?_).symm
      exact bne_iff_ne.mpr (String.ne_of_lt (String.lt_trans hlt (hfirst entry hentry)))
    · rw [if_neg hlt]
      exact ih hrest

theorem InOrder.fst_insert (h : d.InOrder) (name : String) (value : α) :
    (d.insert name value).1 = d.find? name :=
  fst_insertInto h

/-- What is taken out and what is left is what was there. -/
theorem InOrder.perm_of_take? (h : d.InOrder) (htake : d.take? name = some (value, rest)) :
    d.values.Perm (value :: rest.values) ∧ rest.InOrder := by
  obtain ⟨_, hfind, heq⟩ := Option.map_eq_some_iff.mp htake
  obtain ⟨rfl, rfl⟩ := Prod.mk.inj heq
  refine ⟨?_, h.sublist List.filter_sublist⟩
  obtain ⟨before, after, hentries, hbefore⟩ := List.lookup_eq_some_iff.mp hfind
  rw [InOrder, hentries, List.pairwise_append, List.pairwise_cons] at h
  -- no other entry has the name, since the names ascend
  have hkept : d.entries.filter (fun entry => entry.1 ≠ name) = before ++ after := by
    rw [hentries, List.filter_append, List.filter_cons_of_neg (by simp)]
    congr 1
    · refine List.filter_eq_self.mpr fun entry he => ?_
      have hne := bne_iff_ne.mp (hbefore entry he)
      simpa using Ne.symm hne
    · refine List.filter_eq_self.mpr fun entry he => ?_
      have hlt := h.2.1.1 entry he
      simpa using (String.ne_of_lt hlt).symm
  rw [values, values, hkept, hentries, List.map_append, List.map_append, List.map_cons]
  exact List.perm_middle

theorem perm_of_takeFirst? (h : d.InOrder) (htake : d.takeFirst? = some (value, rest)) :
    d.values.Perm (value :: rest.values) ∧ rest.InOrder := by
  unfold takeFirst? at htake
  split at htake
  · cases htake
  next hd =>
    cases htake
    rw [InOrder, hd] at h
    exact ⟨by simp [values, hd], (List.pairwise_cons.mp h).2⟩

end HashIndex.Script.Directory
