import HashIndex.Refusal
import HashIndex.Store.Reference

/-!
# Membership in a table

Elements are linked into a table under a key, found by a key, and taken out again. Each operation
locks the one bucket that the hash selects.

## Main definitions

* `Store.link`, `Store.hash`: link an element into a table.
* `Store.lookup`: the element for a key.
* `Store.detach`, `Store.unhash`: take an element out of a table.
-/

namespace HashIndex

namespace Store

variable {V K : Type}

/-- Put a claimed element in front of the chain of a locked bucket. It takes over a release, counts
one reference more, and belongs to the table from the last step on. -/
def link (s : Store V K) (t : TableId) (bucket : Nat) (e : ElementId) (release : Release) :
    Except Fault (Store V K) := do
  let s ← s.updateElementM e (Element.setRelease release)
  let s ← s.hold e
  let chain ← s.chain t bucket
  let (chain, heap) ← chain.pushFront e s.heap
  let s := { s with heap := heap }.setChain t bucket chain
  let s ← s.addEntry t
  s.updateElementM e (Element.publish t)

/-- Link an element into a table under a key. The element is claimed before its bucket is locked;
the claim is given up if the bucket has an element for the key already. -/
def hash (s : Store V K) (t : TableId) (e : ElementId) (key : K) :
    Except Fault (Except Refusal Unit × Store V K) := do
  let strategy ← s.strategy t
  let x ← s.heap.read e
  if !strategy.equal x.value key then
    return (.error .keyMismatch, s)
  let hash := strategy.hash key
  match x.claim? with
  | none => return (.error .alreadyHashed, s)
  | some claimed =>
    let s := { s with heap := s.heap.write e claimed }
    let s ← s.updateElementM e (Element.setHash hash)
    let (bucket, s) ← s.select t hash
    let s ← s.lock ⟨t, bucket, true⟩
    let chain ← s.chain t bucket
    let duplicate ← chain.find? s.heap
      (fun other => other.hash == hash && strategy.equal other.value key)
    if duplicate.isSome then
      let s ← s.updateElement e Element.abandon
      return (.error .duplicateKey, s.unlock ⟨t, bucket, true⟩)
    let s ← s.link t bucket e strategy.release
    return (.ok (), s.unlock ⟨t, bucket, true⟩)

/-- Find the element for a key, and take a reference to it. Of several elements that answer to the
key the one that was linked last is found, and only among those whose cached hash is that of the
key. -/
def lookup (s : Store V K) (t : TableId) (key : K) :
    Except Fault (Except Refusal ElementId × Store V K) := do
  let strategy ← s.strategy t
  let hash := strategy.hash key
  let (bucket, s) ← s.select t hash
  let s ← s.lock ⟨t, bucket, false⟩
  let chain ← s.chain t bucket
  let found ← chain.find? s.heap
    (fun other => other.hash == hash && strategy.equal other.value key)
  match found with
  | none => return (.error .notFound, s.unlock ⟨t, bucket, false⟩)
  | some e =>
    let s ← s.hold e
    return (.ok e, s.unlock ⟨t, bucket, false⟩)

/-- Take an element out of the chain of a locked bucket. The reference of the table passes to the
caller, who has to put it when the bucket is not locked any more. -/
def detach (s : Store V K) (t : TableId) (bucket : Nat) (e : ElementId) :
    Except Fault (Store V K) := do
  let chain ← s.chain t bucket
  let (chain, heap) ← chain.unlink e s.heap
  let s := { s with heap := heap }.setChain t bucket chain
  let s ← s.removeEntry t
  s.updateElement e Element.abandon

/-- Take an element out of a table. If that succeeds, the caller has to put the reference that the
table had. The owner and the bucket are looked at again when the bucket is locked. -/
def unhash (s : Store V K) (t : TableId) (e : ElementId) :
    Except Fault (Except Refusal Unit × Store V K) := do
  let x ← s.heap.read e
  if x.owner ≠ .table t then
    return (.error .notHashed, s)
  let (bucket, s) ← s.select t x.hash
  let s ← s.lock ⟨t, bucket, true⟩
  let y ← s.heap.read e
  if y.owner ≠ .table t then throw .ownerChanged
  let table ← s.table t
  if table.index y.hash ≠ table.index x.hash then throw .bucketChanged
  let s ← s.detach t bucket e
  return (.ok (), s.unlock ⟨t, bucket, true⟩)

end Store

end HashIndex
