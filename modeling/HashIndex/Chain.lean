import HashIndex.Heap

/-!
# Chains

A chain is a doubly linked list of elements. The links are words of the elements themselves, so a
chain is its head and its length, and every operation works on the heap.

## Main definitions

* `Chain.pushFront`, `Chain.unlink`, `Chain.popFront`: elements come and go.
* `Chain.Iter`, `Chain.elements`, `Chain.find?`: elements in order, by a counting iterator.
* `Chain.following`: the next element by the raw link, for walks that edit the chain.
-/

namespace HashIndex

/-- A list of elements that are linked to each other. -/
structure Chain where
  head : Option ElementId
  length : Nat
deriving DecidableEq, Repr

namespace Chain

variable {V : Type}

def empty : Chain := ⟨none, 0⟩

/-- Put an element that has no neighbours in front of all others. -/
def pushFront (c : Chain) (e : ElementId) (h : Heap V) : Except Fault (Chain × Heap V) := do
  let x ← h.read e
  if x.prev ≠ none ∨ x.next ≠ none then
    throw .pushedWhileLinked
  let h := h.write e { x with next := c.head }
  let h ← match c.head with
    | some first => h.update first (fun y => { y with prev := some e })
    | none => pure h
  return (⟨some e, c.length + 1⟩, h)

/-- Take an element out of the chain, wherever it is. -/
def unlink (c : Chain) (e : ElementId) (h : Heap V) : Except Fault (Chain × Heap V) := do
  let x ← h.read e
  let h := h.write e { x with prev := none, next := none }
  let (head, h) ← match x.prev with
    | some before => do
      let h ← h.update before (fun y => { y with next := x.next })
      pure (c.head, h)
    | none =>
      if c.head = some e then pure (x.next, h) else throw .wrongChain
  let h ← match x.next with
    | some after => h.update after (fun y => { y with prev := x.prev })
    | none => pure h
  match c.length with
  | 0 => throw .lengthUnderflow
  | length + 1 => return (⟨head, length⟩, h)

def popFront (c : Chain) (h : Heap V) : Except Fault (Option ElementId × Chain × Heap V) :=
  match c.head with
  | none => return (none, c, h)
  | some e => do
    let (c, h) ← c.unlink e h
    return (some e, c, h)

/-- The element that the links of `e` lead to. -/
def following (e : ElementId) (h : Heap V) : Except Fault (Option ElementId) := do
  let x ← h.read e
  return x.next

/-- A place in a chain, and how many elements are still to come. -/
structure Iter where
  next : Option ElementId
  remaining : Nat
deriving DecidableEq, Repr

def iter (c : Chain) : Iter := ⟨c.head, c.length⟩

/-- The next element and the iterator after it. -/
def Iter.advance (i : Iter) (h : Heap V) : Except Fault (Option (ElementId × Element V × Iter)) :=
  match i.next with
  | none => return none
  | some e => do
    let x ← h.read e
    match i.remaining with
    | 0 => throw .iterationOverrun
    | remaining + 1 => return some (e, x, ⟨x.next, remaining⟩)

/-- Advancing uses up one of the elements that are still to come. -/
theorem Iter.remaining_lt_of_advance {i j : Iter} {h : Heap V} {e : ElementId} {x : Element V}
    (hadvance : i.advance h = .ok (some (e, x, j))) : j.remaining < i.remaining := by
  unfold Iter.advance at hadvance
  cases hnext : i.next with
  | none => simp [hnext, pure, Except.pure] at hadvance
  | some f =>
    cases hread : h.read f with
    | error fault => simp [hnext, hread, bind, Except.bind] at hadvance
    | ok y =>
      cases hcount : i.remaining with
      | zero => simp [hnext, hread, hcount, bind, Except.bind, throw, throwThe,
          MonadExceptOf.throw] at hadvance
      | succ remaining =>
        simp only [hnext, hread, hcount, bind, Except.bind, pure, Except.pure, Except.ok.injEq,
          Option.some.injEq, Prod.mk.injEq] at hadvance
        obtain ⟨-, -, rfl⟩ := hadvance
        exact Nat.lt_succ_self _

/-- What the iterator still yields. -/
def Iter.toList (i : Iter) (h : Heap V) : Except Fault (List (ElementId × Element V)) :=
  match _hadvance : i.advance h with
  | .error fault => .error fault
  | .ok none => .ok []
  | .ok (some (e, x, rest)) => do
    let tail ← rest.toList h
    return (e, x) :: tail
termination_by i.remaining
decreasing_by exact remaining_lt_of_advance _hadvance

/-- The first element that the iterator still yields and that passes a test. -/
def Iter.find? (i : Iter) (h : Heap V) (test : Element V → Bool) :
    Except Fault (Option ElementId) :=
  match _hadvance : i.advance h with
  | .error fault => .error fault
  | .ok none => .ok none
  | .ok (some (e, x, rest)) => if test x then .ok (some e) else rest.find? h test
termination_by i.remaining
decreasing_by exact remaining_lt_of_advance _hadvance

def elements (c : Chain) (h : Heap V) : Except Fault (List (ElementId × Element V)) :=
  c.iter.toList h

def find? (c : Chain) (h : Heap V) (test : Element V → Bool) : Except Fault (Option ElementId) :=
  c.iter.find? h test

end Chain

end HashIndex
