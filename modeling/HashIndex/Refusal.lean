/-!
# Refusals

The reasons for which an operation of a table declines. Each is an ordinary outcome that leaves the
tables as they were.
-/

namespace HashIndex

/-- Why an operation of a table declines. -/
inductive Refusal where
  | allocationFailure
  | alreadyHashed
  | duplicateKey
  | keyMismatch
  | notFound
  | notHashed
deriving DecidableEq, Repr

namespace Refusal

/-- Every refusal, in the order of their names. -/
def all : List Refusal :=
  [allocationFailure, alreadyHashed, duplicateKey, keyMismatch, notFound, notHashed]

def name : Refusal → String
  | allocationFailure => "AllocationFailure"
  | alreadyHashed => "AlreadyHashed"
  | duplicateKey => "DuplicateKey"
  | keyMismatch => "KeyMismatch"
  | notFound => "NotFound"
  | notHashed => "NotHashed"

/-- What a refusal says to a person: lower case, without a full stop. -/
def message : Refusal → String
  | allocationFailure => "bucket array allocation failed"
  | alreadyHashed => "element is already hashed"
  | duplicateKey => "duplicate key"
  | keyMismatch => "key does not match the element"
  | notFound => "key not found"
  | notHashed => "element is not hashed in this table"

def ofName? (name : String) : Option Refusal :=
  all.find? (fun refusal => refusal.name == name)

/-- Every refusal is found under its name. -/
theorem ofName?_name (refusal : Refusal) : ofName? refusal.name = some refusal := by
  cases refusal <;> rfl

end Refusal

end HashIndex
