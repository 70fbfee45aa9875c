import HashIndex.Store.Traversal

/-!
# Answers and events

A step of a script has an answer, and while it is taken events happen.

## Main definitions

* `Item`: the values of a script's elements.
* `Complaint`: what is wrong with a step itself.
* `Answer`: the answer of a step.
* `Event`: what happens during a step.
-/

namespace HashIndex.Script

/-- The value of an element: a label to tell it by, its key, and a number. -/
structure Item (K : Type) where
  label : String
  key : K
  number : Int
deriving DecidableEq, Repr

/-- An item shows as its number. -/
def Item.shown {K : Type} (item : Item K) : Shown := .plain (toString item.number)

/-- What is wrong with a step, as opposed to what a table declines to do. -/
inductive Complaint where
  | noSuchRef
  | noSuchTable
  /-- The key is missing or of another type. -/
  | badKey
  /-- Something else is missing or makes no sense. -/
  | badStep
deriving DecidableEq, Repr

def Complaint.name : Complaint → String
  | noSuchRef => "NoSuchRef"
  | noSuchTable => "NoSuchTable"
  | badKey => "BadKey"
  | badStep => "BadStep"

/-- What is known of an element. -/
structure Info (K : Type) where
  item : Item K
  count : Nat
  hashed : Bool

structure Stat where
  capacity : Nat
  count : Nat

/-- The elements of a table by bucket. -/
structure Census where
  buckets : Nat
  total : Nat
  /-- The buckets that have elements, with the labels of the elements in order. -/
  chains : List (Nat × List String)

/-- The answer of a step. -/
inductive Answer (K : Type) where
  | nothing
  | done
  | flag (value : Bool)
  | count (value : Nat)
  | info (info : Info K)
  | stat (stat : Stat)
  | results (results : List (Except Refusal Unit))
  | census (census : Census)
  | text (text : String)
  | refused (refusal : Refusal)
  | complaint (complaint : Complaint)

/-- The answer to a request that has no result of its own. -/
def Answer.ofResult {K : Type} : Except Refusal Unit → Answer K
  | .ok () => .done
  | .error refusal => .refused refusal

/-- Something that happens during a step. -/
inductive Event (K : Type) where
  /-- A strategy is told that a value is about to be dropped. -/
  | freed (strategy label : String)
  | dropped (label : String)
  /-- A step of the hook of an element has been taken. -/
  | hooked (label : String) (answer : Answer K)
  /-- An element is visited by a traversal that may take it out. -/
  | visited (item : Item K) (hash : UInt32)
  /-- An element is visited by a traversal that only reads. -/
  | read (item : Item K) (hash : UInt32)
  | noted (note : Note)

end HashIndex.Script
