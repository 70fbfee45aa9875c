import HashIndex.Sdbm

/-!
# Hashes of repeated byte strings

Hashing a byte string multiplies the hash so far by one word and adds another. Maps of that form are
closed under composition, so the effect of many copies of a byte string is found by doubling, in as
many steps as the number of copies has binary digits.

## Main definitions

* `Sdbm.Affine`: a map that multiplies and adds, and `Affine.iterate`, its iterates by doubling.
* `Sdbm.ofRepeated`: the hash of a byte string written several times over.

## Main statements

* `Sdbm.ofRepeated_eq_ofBytes`: it is the hash of the copies written out.
-/

namespace HashIndex.Sdbm

/-- The map that multiplies a word by `factor` and adds `offset`. -/
structure Affine where
  factor : UInt32
  offset : UInt32
deriving DecidableEq, Repr

namespace Affine

def apply (f : Affine) (word : UInt32) : UInt32 := f.factor * word + f.offset

def identity : Affine := ⟨1, 0⟩

def andThen (f g : Affine) : Affine := ⟨g.factor * f.factor, g.factor * f.offset + g.offset⟩

def iterate (f : Affine) (times : Nat) : Affine :=
  if times = 0 then identity
  else
    let twice := (f.andThen f).iterate (times / 2)
    if times % 2 = 0 then twice else twice.andThen f
termination_by times

/-- What hashing a byte does to the hash so far. -/
def ofByte (byte : UInt8) : Affine := ⟨65599, byte.toUInt32⟩

def ofBytes (bytes : List UInt8) : Affine :=
  bytes.foldl (fun f byte => f.andThen (ofByte byte)) identity

@[simp]
theorem apply_identity (word : UInt32) : identity.apply word = word := by
  simp [identity, apply]

@[simp]
theorem apply_andThen (f g : Affine) (word : UInt32) :
    (f.andThen g).apply word = g.apply (f.apply word) := by
  simp only [apply, andThen, UInt32.mul_add, UInt32.mul_assoc, UInt32.add_assoc]

/-- Twice as many rounds are as many rounds of two. -/
theorem repeat_two_mul {α : Type} (f : α → α) (times : Nat) (a : α) :
    Nat.repeat f (2 * times) a = Nat.repeat (fun a => f (f a)) times a := by
  induction times with
  | zero => rfl
  | succ n ih => simp only [Nat.mul_succ, Nat.repeat, ih]

/-- Doubling finds the iterates. -/
theorem apply_iterate (f : Affine) (times : Nat) (word : UInt32) :
    (f.iterate times).apply word = Nat.repeat f.apply times word := by
  induction times using Nat.strongRecOn generalizing f with
  | ind times ih =>
    rw [iterate]
    by_cases hzero : times = 0
    · simp [hzero, Nat.repeat]
    · have htwice : ((f.andThen f).iterate (times / 2)).apply word =
          Nat.repeat f.apply (2 * (times / 2)) word := by
        rw [ih (times / 2) (by omega), repeat_two_mul]
        congr 1
        funext a
        exact apply_andThen f f a
      rw [if_neg hzero]
      by_cases heven : times % 2 = 0
      · rw [if_pos heven, htwice, show 2 * (times / 2) = times by omega]
      · have hsum : 2 * (times / 2) + 1 = times := by omega
        rw [if_neg heven, apply_andThen, htwice]
        conv => rhs; rw [← hsum]
        rfl

/-- Hashing a byte is an affine map. -/
theorem apply_ofByte (byte : UInt8) (hash : UInt32) :
    (ofByte byte).apply hash = step byte hash := by
  apply UInt32.toNat_inj.mp
  have hlt := hash.toNat_lt
  simp only [apply, ofByte, step, UInt32.toNat_add, UInt32.toNat_sub, UInt32.toNat_mul,
    UInt32.toNat_shiftLeft, UInt32.reduceToNat, Nat.shiftLeft_eq, Nat.reduceMod, Nat.reducePow]
    at hlt ⊢
  omega

/-- Hashing a byte string is an affine map. -/
theorem apply_ofBytes (bytes : List UInt8) (hash : UInt32) :
    (ofBytes bytes).apply hash = fold hash bytes := by
  suffices h : ∀ f : Affine, (bytes.foldl (fun f byte => f.andThen (ofByte byte)) f).apply hash =
      fold (f.apply hash) bytes by
    simpa [ofBytes] using h identity
  induction bytes with
  | nil => simp [fold]
  | cons byte bytes ih =>
    intro f
    rw [List.foldl_cons, ih, apply_andThen, apply_ofByte, fold, fold, List.foldl_cons]

end Affine

/-- The hash of `times` copies of `bytes`, one after the other. -/
def ofRepeated (bytes : List UInt8) (times : Nat) : UInt32 :=
  ((Affine.ofBytes bytes).iterate times).apply 0

/-- Doubling and writing the copies out give the same hash. -/
theorem ofRepeated_eq_ofBytes (bytes : List UInt8) (times : Nat) :
    ofRepeated bytes times = ofBytes (List.replicate times bytes).flatten := by
  rw [ofRepeated, Affine.apply_iterate, ofBytes]
  induction times with
  | zero => rfl
  | succ n ih =>
    rw [List.replicate_succ', List.flatten_append, fold_append, ← ih, Nat.repeat,
      Affine.apply_ofBytes]
    simp

end HashIndex.Sdbm
