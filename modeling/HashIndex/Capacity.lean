/-!
# Table capacities

The number of buckets of a table is a power of two between `2 ^ 5` and `2 ^ 24`, so that the low
bits of a hash select a bucket.

## Main definitions

* `Capacity`: an admissible number of buckets.
* `Capacity.ofRequest`: the capacity that serves a requested number of elements.
* `Capacity.mask`: the low bits of a hash that select a bucket.
* `Capacity.describe`: the capacity as text.
-/

namespace HashIndex

/-- The least power of two that is at least `value`, if it fits into 64 bits. -/
def nextPowerOfTwo? (value : UInt64) : Option UInt64 :=
  if value ≤ 1 then some 1
  else if (value - 1).log2 < 63 then some (1 <<< ((value - 1).log2 + 1))
  else none

/-- A one that is shifted by at most 63 is not shifted out. -/
theorem toNat_one_shiftLeft {exponent : UInt64} (h : exponent < 63) :
    ((1 : UInt64) <<< (exponent + 1)).toNat = 1 <<< (exponent.toNat + 1) := by
  have hlt : exponent.toNat < 63 := by simpa using UInt64.lt_iff_toNat_lt.mp h
  have hsum : (exponent + 1).toNat = exponent.toNat + 1 := by
    rw [UInt64.toNat_add]
    exact Nat.mod_eq_of_lt (by simp only [UInt64.reduceToNat]; omega)
  rw [UInt64.toNat_shiftLeft, hsum, Nat.mod_eq_of_lt (by omega : _ < 64)]
  simp only [UInt64.reduceToNat, Nat.one_shiftLeft]
  exact Nat.mod_eq_of_lt (Nat.pow_lt_pow_right (by decide) (by omega))

/-- What `nextPowerOfTwo?` finds is a power of two. -/
theorem isPowerOfTwo_of_nextPowerOfTwo? {value power : UInt64}
    (h : nextPowerOfTwo? value = some power) : power.toNat.isPowerOfTwo := by
  unfold nextPowerOfTwo? at h
  split at h
  · cases h
    exact ⟨0, rfl⟩
  · split at h
    next hlog =>
      cases h
      exact ⟨_, (toNat_one_shiftLeft hlog).trans (Nat.one_shiftLeft _)⟩
    next => cases h

/-- A number of buckets that a table can have: a power of two between `2 ^ 5` and `2 ^ 24`. -/
structure Capacity where
  buckets : UInt64
  isPowerOfTwo : buckets.toNat.isPowerOfTwo
  least_le : 32 ≤ buckets
  le_greatest : buckets ≤ 16777216
deriving DecidableEq

namespace Capacity

def least : Capacity := ⟨32, ⟨5, by decide⟩, by decide, by decide⟩

def standard : Capacity := ⟨1024, ⟨10, by decide⟩, by decide, by decide⟩

def greatest : Capacity := ⟨16777216, ⟨24, by decide⟩, by decide, by decide⟩

/-- The least power of two that is at least `value`, kept between `least` and `greatest`; a value
whose next power of two does not fit into 64 bits gets `greatest`. -/
def ofRequest (value : UInt64) : Capacity :=
  match h : nextPowerOfTwo? value with
  | none => greatest
  | some power =>
    if hle : 32 ≤ power then
      if hge : power ≤ 16777216 then ⟨power, isPowerOfTwo_of_nextPowerOfTwo? h, hle, hge⟩
      else greatest
    else least

def size (c : Capacity) : Nat := c.buckets.toNat

def log2 (c : Capacity) : UInt64 := c.buckets.log2

/-- The bits of a hash that select a bucket. -/
def mask (c : Capacity) : UInt64 := c.buckets - 1

/-- The capacity as text: the number of buckets, and the same number as a shifted one. -/
def describe (c : Capacity) : String := s!"{c.buckets} (1 << {c.log2})"

theorem size_pos (c : Capacity) : 0 < c.size :=
  Nat.lt_of_lt_of_le (by decide : 0 < 32) (UInt64.le_iff_toNat_le.mp c.least_le)

/-- The mask is one less than the number of buckets. -/
theorem toNat_mask (c : Capacity) : c.mask.toNat = c.size - 1 := by
  have hleast := UInt64.le_iff_toNat_le.mp c.least_le
  have hle : (1 : UInt64) ≤ c.buckets := by
    rw [UInt64.le_iff_toNat_le]
    simp only [UInt64.reduceToNat] at hleast ⊢
    omega
  rw [mask, UInt64.toNat_sub_of_le _ _ hle]
  rfl

end Capacity

end HashIndex
