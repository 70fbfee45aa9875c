import HashIndex.Script.Answer

/-!
# Steps

A script is a list of steps. An element may have a hook, which is a list of steps again, to be taken
when the element is destroyed by the strategy of a table.

## Main definitions

* `Selection`: which of the elements that are visited are meant.
* `Need`, `Step`: what a step looks up by name, and the steps.
* `Step.weight`: the number of steps that a step can lead to, itself included.
-/

namespace HashIndex.Script

/-- Which elements a traversal holds or takes out, by the number of the visit and the element. -/
def Selection (K : Type) : Type := Nat → Item K → Bool

/-- Something that a step looks up by its name. -/
inductive Need where
  | table (name : String)
  | handle (name : String)
deriving DecidableEq, Repr

/-- A step of a script. Handles and tables are given by their names. -/
inductive Step (K : Type) where
  /-- A step that cannot be taken: it is complained of once the things needed before are found. -/
  | malformed (needs : List Need) (complaint : Complaint)
  | table (name : String) (strategy : Strategy (Item K) K) (capacity : Capacity)
  | create (name : String) (item : Item K) (hook : List (Step K))
  /-- Take one more reference to an element, and store it under another name. -/
  | hold (name target : String)
  /-- Put a handle, and say whether it was the last reference. -/
  | put (name : String)
  | drop (name : String)
  | info (name : String)
  /-- Say whether two handles refer to the same element; the first name is looked up first. -/
  | same (name other : String)
  /-- Link an element into a table, under a key or under its own. -/
  | hash (table name : String) (key : Option K)
  | unhash (table name : String)
  /-- Find the element for a key, and store a reference to it or drop it. -/
  | lookup (table : String) (key : K) (target : Option String)
  /-- Find the element for a key, take it out, and say whether it was destroyed. -/
  | remove (table : String) (key : K)
  /-- Make elements, all with the same hook, and link them into a table; if the list of them was
  cut short by a bad key, complain at the end. -/
  | fill (table : String) (items : List (Item K)) (cut : Bool) (hook : List (Step K))
  /-- Visit all elements, hold some and take some out, and store the held references. -/
  | traverse (table : String) (hold unhash : Selection K) (target : String)
  /-- Visit all elements and hold some, and store the held references. -/
  | survey (table : String) (hold : Selection K) (target : String)
  | chains (table : String)
  | stat (table : String)
  | showHandle (name : String) (long : Bool)
  | showTable (table : String) (long : Bool)
  | dropTable (name : String)

mutual

/-- The number of steps that a step can lead to: itself, and those of the hooks it gives to
elements. -/
def Step.weight {K : Type} : Step K → Nat
  | .create _ _ hook => 1 + Step.totalWeight hook
  | .fill _ items _ hook => 1 + items.length * (1 + Step.totalWeight hook)
  | _ => 1

/-- The number of steps that the steps of a list can lead to. -/
def Step.totalWeight {K : Type} : List (Step K) → Nat
  | [] => 0
  | step :: steps => step.weight + Step.totalWeight steps

end

/-- Every step counts. -/
theorem Step.weight_pos {K : Type} (step : Step K) : 0 < step.weight := by
  cases step <;> simp only [Step.weight] <;> omega

end HashIndex.Script
