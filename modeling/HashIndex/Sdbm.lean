/-!
# The sdbm string hash

`Sdbm.step` adds one byte to a 32-bit hash; the hash of a byte string folds it over the bytes,
starting at zero. All arithmetic wraps at `2 ^ 32`.

## Main definitions

* `Sdbm.step`, `Sdbm.fold`: the recurrence, for one byte and for a byte string.
* `Sdbm.ofBytes`, `Sdbm.ofString`, `Sdbm.ofWord`: the hashes of the three kinds of key.
-/

namespace HashIndex.Sdbm

/-- Hash one more byte: the byte plus `2 ^ 6 + 2 ^ 16 - 1` times the hash so far. -/
def step (byte : UInt8) (hash : UInt32) : UInt32 :=
  byte.toUInt32 + (hash <<< 6) + (hash <<< 16) - hash

/-- Hash the bytes in order, starting from `hash`. -/
def fold (hash : UInt32) (bytes : List UInt8) : UInt32 :=
  bytes.foldl (fun hash byte => step byte hash) hash

def ofBytes (bytes : List UInt8) : UInt32 := fold 0 bytes

def utf8 (text : String) : List UInt8 := text.toUTF8.data.toList

/-- The hash of a text is the hash of its UTF-8 bytes. -/
def ofString (text : String) : UInt32 := ofBytes (utf8 text)

/-- A 32-bit word is its own hash. -/
def ofWord (word : UInt32) : UInt32 := word

/-- Hashing a concatenation continues from the hash of its first part. -/
theorem fold_append (hash : UInt32) (a b : List UInt8) :
    fold hash (a ++ b) = fold (fold hash a) b := by
  simp [fold, List.foldl_append]

end HashIndex.Sdbm
