/-!
# Data

Requests and replies are made of data: truth values, numbers, texts, lists, and records with named
fields. Numbers are whole or they are not looked at.

## Main definitions

* `Datum`: a piece of data.
* `Datum.field`: the value of a field of a record.
* `Datum.text?`, `Datum.natBelow?`, …: the value of a datum of the right form.
-/

namespace HashIndex

/-- A piece of data. -/
inductive Datum where
  | null
  | flag (value : Bool)
  | whole (value : Int)
  /-- A number that is written with a fraction or an exponent, or that 64 bits cannot hold. -/
  | inexact
  | text (value : String)
  | list (items : List Datum)
  /-- A record. If a name occurs more than once, the last field of that name counts. -/
  | record (fields : List (String × Datum))

namespace Datum

def ofNat (value : Nat) : Datum := .whole value

/-- The value of the last field of a given name. -/
def lookup? (name : String) : List (String × Datum) → Option Datum
  | [] => none
  | (other, value) :: fields =>
    match lookup? name fields with
    | some later => some later
    | none => if other = name then some value else none

/-- The value of a field; a field that is missing has no value, just as one that is `null`. -/
def field (d : Datum) (name : String) : Datum :=
  match d with
  | .record fields => (lookup? name fields).getD .null
  | _ => .null

def flag? : Datum → Option Bool
  | .flag value => some value
  | _ => none

def text? : Datum → Option String
  | .text value => some value
  | _ => none

def list? : Datum → Option (List Datum)
  | .list items => some items
  | _ => none

/-- The value of a whole number from `low` on and below `high`. -/
def wholeIn? (low high : Int) : Datum → Option Int
  | .whole value => if low ≤ value ∧ value < high then some value else none
  | _ => none

def natBelow? (bound : Nat) (d : Datum) : Option Nat := (d.wholeIn? 0 bound).map Int.toNat

/-- The value of a datum that may be missing. -/
def orElse? {α : Type} (default : α) (read? : Datum → Option α) : Datum → Option α
  | .null => some default
  | d => read? d

/-- The value of a field is smaller than the fields are together. -/
theorem sizeOf_lt_of_lookup? {name : String} {fields : List (String × Datum)} {value : Datum}
    (h : lookup? name fields = some value) : sizeOf value < sizeOf fields := by
  induction fields with
  | nil => cases h
  | cons entry fields ih =>
    obtain ⟨other, first⟩ := entry
    unfold lookup? at h
    simp only [List.cons.sizeOf_spec, Prod.mk.sizeOf_spec]
    split at h
    next later hlater =>
      cases h
      have := ih hlater
      omega
    next =>
      split at h
      · cases h
        omega
      · cases h

/-- A list in a field is smaller than the record. -/
theorem sizeOf_lt_of_field {d : Datum} {name : String} {items : List Datum}
    (h : d.field name = .list items) : sizeOf items < sizeOf d := by
  unfold field at h
  split at h
  next fields =>
    cases hlookup : lookup? name fields with
    | none => simp [hlookup] at h
    | some value =>
      have hlt := sizeOf_lt_of_lookup? hlookup
      simp only [hlookup, Option.getD_some] at h
      simp only [h, list.sizeOf_spec, record.sizeOf_spec] at hlt ⊢
      omega
  next => cases h

end Datum

end HashIndex
