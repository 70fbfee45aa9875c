import HashIndex.Shown

/-!
# Strategies

A strategy tells a table how to hash a key, when an element answers to a key, and what to do with
the value of an element whose last reference is gone.

## Main definitions

* `Release`: what becomes of a value that nobody refers to.
* `Strategy`: the functions that a table is built on.
* `Strategy.usual`: a strategy that compares keys for equality.
-/

namespace HashIndex

/-- What becomes of the value of an element when the last reference to it is put. -/
inductive Release where
  | drop
  /-- The strategy of this name is told first, and then the value is dropped. -/
  | announce (strategy : String)
deriving DecidableEq, Repr

/-- How a table with values `V` deals with keys `K`. Nothing is assumed of the functions. -/
structure Strategy (V K : Type) where
  key : V → K
  hash : K → UInt32
  /-- Whether a value answers to a key. -/
  equal : V → K → Bool
  release : Release
  /-- The name of the strategy, and those of the types of its values and keys. -/
  shown : Shown

/-- The strategy under which a value answers to its own key only. -/
def Strategy.usual {V K : Type} [DecidableEq K] (key : V → K) (hash : K → UInt32)
    (release : Release) (shown : Shown) : Strategy V K where
  key := key
  hash := hash
  equal value given := decide (key value = given)
  release := release
  shown := shown

end HashIndex
