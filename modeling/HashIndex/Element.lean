import HashIndex.Fault
import HashIndex.Strategy

/-!
# Elements

An element is a value together with the words that the tables keep for it: its neighbours in a
chain, its owner, its cached hash, the number of references to it, and its release. Making an
element, changing its words and the checks on them are all here; where elements live is the
business of the heap.

## Main definitions

* `Owner`, `Element`: the owner word, and an element with all its words.
* `Element.claim?`, `Element.setHash`, `Element.setRelease`, `Element.publish`,
  `Element.abandon`: the life of the owner word.
-/

namespace HashIndex

/-- The name of an element: its place in the heap. -/
abbrev ElementId := Nat

abbrev TableId := Nat

/-- To whom an element belongs. -/
inductive Owner where
  | nobody
  /-- To an operation that is about to link it into a table. -/
  | claimed
  | table (id : TableId)
deriving DecidableEq, Repr

/-- An element of an index. -/
structure Element (V : Type) where
  value : V
  prev : Option ElementId
  next : Option ElementId
  owner : Owner
  /-- The hash under which it was last linked or claimed. -/
  hash : UInt32
  count : Nat
  /-- What becomes of the value when the last reference is put. -/
  release : Release

namespace Element

variable {V : Type}

/-- A new element: one reference, no owner, and a value that is simply dropped. -/
def fresh (value : V) : Element V where
  value := value
  prev := none
  next := none
  owner := .nobody
  hash := 0
  count := 1
  release := .drop

def isHashed (x : Element V) : Bool :=
  match x.owner with
  | .table _ => true
  | _ => false

/-- Claim an element that belongs to nobody. -/
def claim? (x : Element V) : Option (Element V) :=
  match x.owner with
  | .nobody => some { x with owner := .claimed }
  | _ => none

def abandon (x : Element V) : Element V := { x with owner := .nobody }

def setHash (hash : UInt32) (x : Element V) : Except Fault (Element V) :=
  if x.owner = .claimed then .ok { x with hash := hash } else .error .notClaimed

def setRelease (release : Release) (x : Element V) : Except Fault (Element V) :=
  if x.owner = .claimed then .ok { x with release := release } else .error .notClaimed

def publish (table : TableId) (x : Element V) : Except Fault (Element V) :=
  if x.owner = .claimed then .ok { x with owner := .table table } else .error .notClaimed

end Element

end HashIndex
