import HashIndex.Capacity
import HashIndex.Chain

/-!
# Tables

A table is a fixed number of buckets, each of which is a chain, together with a strategy and a
counter of its entries. The low bits of a hash select the bucket.

## Main definitions

* `Table`, `Table.new`: a table, and one without entries.
* `Table.index`, `Table.slot`: the bucket of a hash, by the number of buckets there are and by the
  mask of the capacity.
* `Table.chain`, `Table.setChain`: the chain of a bucket.
* `Table.shown`: a table as a record.
-/

namespace HashIndex

/-- A hash table over values `V` and keys `K`. -/
structure Table (V K : Type) where
  strategy : Strategy V K
  /-- How many buckets the table was made for. -/
  capacity : Capacity
  buckets : Array Chain
  entries : Nat

namespace Table

variable {V K : Type}

def new (strategy : Strategy V K) (capacity : Capacity) : Table V K where
  strategy := strategy
  capacity := capacity
  buckets := Array.replicate capacity.size .empty
  entries := 0

/-- The bucket of a hash, reckoned from the number of buckets that the table has. -/
def index (t : Table V K) (hash : UInt32) : Nat := hash.toNat &&& (t.buckets.size - 1)

/-- The bucket of a hash, reckoned from the mask of the capacity. -/
def slot (t : Table V K) (hash : UInt32) : Nat := (hash.toUInt64 &&& t.capacity.mask).toNat

def chain (t : Table V K) (bucket : Nat) : Except Fault Chain :=
  match t.buckets[bucket]? with
  | some chain => .ok chain
  | none => .error .bucketOutOfRange

def setChain (t : Table V K) (bucket : Nat) (chain : Chain) : Table V K :=
  { t with buckets := t.buckets.setIfInBounds bucket chain }

def shown (t : Table V K) : Shown :=
  .record "HTab"
    [("capacity", .number t.buckets.size), ("count", .number t.entries),
      ("strategy", t.strategy.shown)]

end Table

end HashIndex
