/-!
# Faults

A fault is a broken assumption of the index itself: an assertion that fails, a word that is used
while it means nothing, a lock taken twice. Unlike a refusal it is never an answer to a request.
-/

namespace HashIndex

/-- An assumption of the index that does not hold. -/
inductive Fault where
  /-- An element is used after it was destroyed, or before it was made. -/
  | danglingElement
  /-- A table is used after it was dropped, or before it was made. -/
  | danglingTable
  /-- A bucket is selected that the table does not have. -/
  | bucketOutOfRange
  /-- A bucket is locked while a bucket is locked. -/
  | lockHeld
  /-- A value is handed to its release while a bucket is locked. -/
  | releasedUnderLock
  /-- A word is written that only the holder of the claim on an element may write. -/
  | notClaimed
  /-- A reference is put although no reference to the element is counted. -/
  | countUnderflow
  /-- The last reference to an element is put while the element belongs to a table. -/
  | destroyedWhileHashed
  /-- An element that still has a neighbour is pushed to a chain. -/
  | pushedWhileLinked
  /-- An element without a predecessor is unlinked from a chain that it does not head. -/
  | wrongChain
  /-- An element leaves a chain of length zero. -/
  | lengthUnderflow
  /-- A chain goes on after as many elements as its length says. -/
  | iterationOverrun
  /-- A walk takes more steps than there are elements. -/
  | endlessWalk
  /-- An element leaves a table that counts no entries. -/
  | entriesUnderflow
  /-- The owner of an element changed while its bucket was being locked. -/
  | ownerChanged
  /-- The bucket of an element changed while its bucket was being locked. -/
  | bucketChanged
  /-- A table is dropped while an unfinished operation works on it. -/
  | tableInUse
deriving DecidableEq, Repr

namespace Fault

def name : Fault → String
  | danglingElement => "DanglingElement"
  | danglingTable => "DanglingTable"
  | bucketOutOfRange => "BucketOutOfRange"
  | lockHeld => "LockHeld"
  | releasedUnderLock => "ReleasedUnderLock"
  | notClaimed => "NotClaimed"
  | countUnderflow => "CountUnderflow"
  | destroyedWhileHashed => "DestroyedWhileHashed"
  | pushedWhileLinked => "PushedWhileLinked"
  | wrongChain => "WrongChain"
  | lengthUnderflow => "LengthUnderflow"
  | iterationOverrun => "IterationOverrun"
  | endlessWalk => "EndlessWalk"
  | entriesUnderflow => "EntriesUnderflow"
  | ownerChanged => "OwnerChanged"
  | bucketChanged => "BucketChanged"
  | tableInUse => "TableInUse"

theorem ok_bind {α β : Type} (value : α) (next : α → Except Fault β) :
    (Except.ok value >>= next) = next value := rfl

theorem error_bind {α β : Type} (fault : Fault) (next : α → Except Fault β) :
    (Except.error fault >>= next) = .error fault := rfl

theorem pure_eq_ok {α : Type} (value : α) : (pure value : Except Fault α) = .ok value := rfl

/-- A computation goes through if and only if both of its parts do. -/
theorem bind_eq_ok_iff {α β : Type} {first : Except Fault α} {second : α → Except Fault β}
    {result : β} :
    first >>= second = .ok result ↔ ∃ value, first = .ok value ∧ second value = .ok result := by
  cases first <;> simp [bind, Except.bind]

theorem pure_eq_ok_iff {α : Type} {value result : α} :
    (pure value : Except Fault α) = .ok result ↔ value = result := by
  simp [pure, Except.pure]

end Fault

end HashIndex
