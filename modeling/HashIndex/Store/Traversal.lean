import HashIndex.Store.Membership

/-!
# Traversals

Every element of a table is visited bucket by bucket, and in a bucket from the front of its chain
to the end. A traversal works on one bucket at a time under its lock; the references that a table
loses meanwhile are put between two buckets by the caller.

## Main definitions

* `Choice`, `Visit`: what is done with an element, and what is known of a visit.
* `Store.walkBucket`: visit a bucket, with the right to take elements out.
* `Store.readBucket`, `Store.readBuckets`: visit one bucket or several, reading only.
* `Store.chainLengths`: the lengths of all chains.
* `Store.drainBucket`: take all elements out of a bucket.
-/

namespace HashIndex

/-- What is done with an element that is visited. -/
structure Choice where
  /-- Whether a reference to the element is taken. -/
  hold : Bool
  /-- Whether the element is taken out of the table. -/
  unhash : Bool
deriving DecidableEq, Repr

/-- A visit of an element. -/
structure Visit (V : Type) where
  /-- The number of visits of the traversal before this one. -/
  number : Nat
  element : ElementId
  value : V
  hash : UInt32
  choice : Choice

/-- The outcome of the walk through one bucket. -/
structure Walk (V K : Type) where
  visits : List (Visit V)
  /-- The elements that were taken out, in order; their references have to be put. -/
  released : List ElementId
  store : Store V K

namespace Store

variable {V K : Type}

/-- Do with an element that is visited what was chosen. -/
def treat (s : Store V K) (t : TableId) (bucket : Nat) (e : ElementId) (choice : Choice) :
    Except Fault (Store V K) := do
  let s ← s.holdIf choice.hold e
  if choice.unhash then s.detach t bucket e else return s

/-- Visit the elements from `cursor` on, where `number` elements were visited before. The link to
the next element is read before anything is done with an element. -/
def walkFrom (t : TableId) (bucket : Nat) (choose : Nat → V → Choice) :
    (steps : Nat) → (cursor : Option ElementId) → (number : Nat) → Store V K →
      Except Fault (Walk V K)
  | _, none, _, s => .ok ⟨[], [], s⟩
  | 0, some _, _, _ => .error .endlessWalk
  | steps + 1, some e, number, s => do
    let next ← Chain.following e s.heap
    let x ← s.heap.read e
    let choice := choose number x.value
    let s ← s.treat t bucket e choice
    let rest ← walkFrom t bucket choose steps next (number + 1) s
    return {
      visits := ⟨number, e, x.value, x.hash, choice⟩ :: rest.visits
      released := if choice.unhash then e :: rest.released else rest.released
      store := rest.store }

/-- Visit the elements of a bucket, where `number` elements were visited before. A chain has no
more elements than the heap, so that many steps suffice. -/
def walkBucket (s : Store V K) (t : TableId) (bucket number : Nat)
    (choose : Nat → V → Choice) : Except Fault (Walk V K) := do
  let s ← s.lock ⟨t, bucket, true⟩
  let chain ← s.chain t bucket
  let walk ← walkFrom t bucket choose s.heap.size chain.head number s
  return { walk with store := walk.store.unlock ⟨t, bucket, true⟩ }

/-- Visit the elements of a list, where `number` elements were visited before; they are only read,
or held. -/
def readEach (choose : Nat → V → Bool) :
    (elements : List (ElementId × Element V)) → (number : Nat) → Store V K →
      Except Fault (List (Visit V) × Store V K)
  | [], _, s => .ok ([], s)
  | (e, x) :: elements, number, s => do
    let held := choose number x.value
    let s ← s.holdIf held e
    let (visits, s) ← readEach choose elements (number + 1) s
    return (⟨number, e, x.value, x.hash, ⟨held, false⟩⟩ :: visits, s)

def readBucket (s : Store V K) (t : TableId) (bucket number : Nat) (choose : Nat → V → Bool) :
    Except Fault (List (Visit V) × Store V K) := do
  let s ← s.lock ⟨t, bucket, false⟩
  let chain ← s.chain t bucket
  let elements ← chain.elements s.heap
  let (visits, s) ← readEach choose elements number s
  return (visits, s.unlock ⟨t, bucket, false⟩)

/-- Visit the elements of several buckets, where the visits `before`, latest bucket first, and
`number` visits in all came before. The visits of each bucket form a list of their own. -/
def readBuckets (t : TableId) (choose : Nat → V → Bool) :
    (buckets : List Nat) → (before : List (List (Visit V))) → (number : Nat) → Store V K →
      Except Fault (List (List (Visit V)) × Store V K)
  | [], before, _, s => .ok (before.reverse, s)
  | bucket :: buckets, before, number, s => do
    let (visits, s) ← s.readBucket t bucket number choose
    readBuckets t choose buckets (visits :: before) (number + visits.length) s

def bucketRange (s : Store V K) (t : TableId) : Except Fault (List Nat) := do
  let table ← s.table t
  return List.range table.buckets.size

def chainLength (s : Store V K) (t : TableId) (bucket : Nat) :
    Except Fault (Nat × Store V K) := do
  let s ← s.lock ⟨t, bucket, false⟩
  let chain ← s.chain t bucket
  return (chain.length, s.unlock ⟨t, bucket, false⟩)

/-- The lengths of the chains of several buckets, where the lengths `before` came before, latest
first. -/
def chainLengths (t : TableId) :
    (buckets : List Nat) → (before : List Nat) → Store V K → Except Fault (List Nat × Store V K)
  | [], before, s => .ok (before.reverse, s)
  | bucket :: buckets, before, s => do
    let (length, s) ← s.chainLength t bucket
    chainLengths t buckets (length :: before) s

/-- Take elements out of a locked bucket from the front until none is left. -/
def popAll (t : TableId) (bucket : Nat) :
    (steps : Nat) → Store V K → Except Fault (List ElementId × Store V K)
  | 0, _ => .error .endlessWalk
  | steps + 1, s => do
    let chain ← s.chain t bucket
    match ← chain.popFront s.heap with
    | (none, _, _) => return ([], s)
    | (some e, chain, heap) =>
      let s := { s with heap := heap }.setChain t bucket chain
      let s ← s.updateElement e Element.abandon
      let s ← s.removeEntry t
      let (rest, s) ← popAll t bucket steps s
      return (e :: rest, s)

/-- Take all elements out of a bucket, front first. The references of the table pass to the caller,
who has to put them. -/
def drainBucket (s : Store V K) (t : TableId) (bucket : Nat) :
    Except Fault (List ElementId × Store V K) := do
  let s ← s.lock ⟨t, bucket, true⟩
  let chain ← s.chain t bucket
  let (released, s) ← popAll t bucket (chain.length + 1) s
  return (released, s.unlock ⟨t, bucket, true⟩)

end Store

end HashIndex
