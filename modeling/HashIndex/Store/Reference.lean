import HashIndex.Store.Basic

/-!
# References to elements

An element lives as long as there is a reference to it: a handle of a caller, the reference that a
table has to an element in one of its chains, or one that a table had and that is about to be put.

## Main definitions

* `Store.create`: a new element with one reference.
* `Store.hold`, `Store.put`: one reference more, one less.
-/

namespace HashIndex

namespace Store

variable {V K : Type}

/-- Make an element. The caller has the only reference to it. -/
def create (s : Store V K) (value : V) : ElementId × Store V K :=
  let (e, heap) := s.heap.allocate value
  (e, { s with heap := heap })

def hold (s : Store V K) (e : ElementId) : Except Fault (Store V K) :=
  s.updateElement e (fun x => { x with count := x.count + 1 })

def holdIf (s : Store V K) (wanted : Bool) (e : ElementId) : Except Fault (Store V K) :=
  if wanted then s.hold e else .ok s

/-- Put a reference to an element. If it is the last one, the element is destroyed and returned, so
that its value can be given to its release; no bucket may be locked then. -/
def put (s : Store V K) (e : ElementId) : Except Fault (Option (Element V) × Store V K) := do
  let x ← s.heap.read e
  match x.count with
  | 0 => throw .countUnderflow
  | 1 =>
    if x.owner ≠ .nobody then throw .destroyedWhileHashed
    if s.locks ≠ [] then throw .releasedUnderLock
    return (some x, { s with heap := s.heap.free e })
  | count + 2 => return (none, { s with heap := s.heap.write e { x with count := count + 1 } })

end Store

end HashIndex
