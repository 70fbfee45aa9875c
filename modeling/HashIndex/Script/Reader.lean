import HashIndex.KeyKind
import HashIndex.Script.Step

/-!
# Reading steps

A step is read from a record. What is wrong with it is found out here, but the complaint waits until
the step is taken: names that come before the fault are looked up first, and a step of a hook may
never be taken at all.

## Main definitions

* `readStep`, `readSteps`: the steps that data stand for.
* `readSelection?`, `readCapacity?`: the forms that some fields have.
-/

namespace HashIndex.Script

variable {K : Type}

/-- The outcome of reading a part of a step: a value, or what has to be looked up before a
complaint, and the complaint. -/
abbrev Reading (α : Type) : Type := Except (List Need × Complaint) α

def insist {α : Type} (needs : List Need) (complaint : Complaint) : Option α → Reading α
  | some value => .ok value
  | none => .error (needs, complaint)

def insistField {α : Type} (needs : List Need) (d : Datum) (name : String)
    (read? : Datum → Option α) : Reading α :=
  insist needs .badStep (read? (d.field name))

def optional? {α : Type} (read? : Datum → Option α) : Datum → Option (Option α) :=
  Datum.orElse? none (fun d => (read? d).map some)

/-- A selection of visits: all or none, those of elements with certain labels, or those whose number
leaves a certain remainder. -/
def readSelection? : Datum → Option (Selection K)
  | .null => some (fun _ _ => false)
  | .flag value => some (fun _ _ => value)
  | .list items =>
    (items.mapM Datum.text?).map (fun labels _ item => labels.contains item.label)
  | .record fields => do
    let modulus ← ((Datum.record fields).field "mod").natBelow? UInt64.size
    let remainder ← ((Datum.record fields).field "rem").natBelow? UInt64.size
    if modulus = 0 then none else some (fun number _ => number % modulus = remainder)
  | _ => none

/-- A capacity: a requested number of elements, or the name of a capacity. -/
def readCapacity? : Datum → Option Capacity
  | .text "MIN" => some .least
  | .text "MAX" => some .greatest
  | .text "DEF" => some .standard
  | .text "default" => some .standard
  | d => (d.natBelow? UInt64.size).map (fun value => .ofRequest (UInt64.ofNat value))

def readNumber? : Datum → Option Int :=
  Datum.orElse? 0 (Datum.wholeIn? (-0x8000000000000000) 0x8000000000000000)

/-- Read the keys of a list until one makes no sense; say whether there was one. -/
def readKeys (kind : KeyKind K) : List Datum → List K × Bool
  | [] => ([], false)
  | d :: rest =>
    match kind.read? d with
    | none => ([], true)
    | some key =>
      let (keys, cut) := readKeys kind rest
      (key :: keys, cut)

def readTable (kind : KeyKind K) (d : Datum) : Reading (Step K) := do
  let name ← insistField [] d "t" Datum.text?
  let strategy ← insistField [] d "strategy" (fun d => d.text?.bind kind.strategy?)
  let capacity ← insistField [] d "size" (Datum.orElse? .standard readCapacity?)
  return .table name strategy capacity

def readCreate (kind : KeyKind K) (d : Datum) (hook? : Option (List (Step K))) :
    Reading (Step K) := do
  let name ← insistField [] d "r" Datum.text?
  let key ← insist [] .badKey (kind.read? (d.field "key"))
  let label ← insistField [] d "label" (Datum.orElse? name Datum.text?)
  let number ← insistField [] d "n" readNumber?
  let hook ← insist [] .badStep hook?
  return .create name ⟨label, key, number⟩ hook

def readFill (kind : KeyKind K) (d : Datum) (hook? : Option (List (Step K))) :
    Reading (Step K) := do
  let table ← insistField [] d "t" Datum.text?
  let found := [Need.table table]
  let keys ← insistField found d "keys" Datum.list?
  let number ← insistField found d "n" readNumber?
  let hook ← insist found .badStep hook?
  let (keys, cut) := readKeys kind keys
  return .fill table (keys.map (fun key => ⟨kind.label key, key, number⟩)) cut hook

def readHold (d : Datum) : Reading (Step K) := do
  let target ← insistField [] d "as" Datum.text?
  let name ← insistField [] d "r" Datum.text?
  return .hold name target

def readSame (d : Datum) : Reading (Step K) := do
  let first ← insistField [] d "r2" Datum.text?
  let second ← insistField [.handle first] d "r" Datum.text?
  return .same first second

def readHash (kind : KeyKind K) (d : Datum) : Reading (Step K) := do
  let table ← insistField [] d "t" Datum.text?
  let key ← insist [.table table] .badKey (optional? kind.read? (d.field "key"))
  let name ← insistField [.table table] d "r" Datum.text?
  return .hash table name key

def readUnhash (d : Datum) : Reading (Step K) := do
  let table ← insistField [] d "t" Datum.text?
  let name ← insistField [.table table] d "r" Datum.text?
  return .unhash table name

def readLookup (kind : KeyKind K) (d : Datum) : Reading (Step K) := do
  let table ← insistField [] d "t" Datum.text?
  let key ← insist [.table table] .badKey (kind.read? (d.field "key"))
  let target ← insistField [.table table] d "as" (optional? Datum.text?)
  return .lookup table key target

def readRemove (kind : KeyKind K) (d : Datum) : Reading (Step K) := do
  let table ← insistField [] d "t" Datum.text?
  let key ← insist [.table table] .badKey (kind.read? (d.field "key"))
  return .remove table key

def readTraverse (d : Datum) : Reading (Step K) := do
  let table ← insistField [] d "t" Datum.text?
  let hold ← insistField [.table table] d "hold" readSelection?
  let unhash ← insistField [.table table] d "unhash" readSelection?
  let target ← insistField [.table table] d "as" (Datum.orElse? "h" Datum.text?)
  return .traverse table hold unhash target

def readSurvey (d : Datum) : Reading (Step K) := do
  let table ← insistField [] d "t" Datum.text?
  let hold ← insistField [.table table] d "hold" readSelection?
  let target ← insistField [.table table] d "as" (Datum.orElse? "h" Datum.text?)
  return .survey table hold target

/-- Read a step that shows a handle, or a table if there is no mention of a handle. -/
def readShow (d : Datum) : Reading (Step K) := do
  match ← insistField [] d "r" (optional? Datum.text?) with
  | some name =>
    let long ← insistField [.handle name] d "alt" (Datum.orElse? false Datum.flag?)
    return .showHandle name long
  | none =>
    let table ← insistField [] d "t" Datum.text?
    let long ← insistField [.table table] d "alt" (Datum.orElse? false Datum.flag?)
    return .showTable table long

/-- Read a step whose hook, if it has one, was read before. -/
def readStepWith (kind : KeyKind K) (d : Datum) (hook? : Option (List (Step K))) :
    Reading (Step K) :=
  match (d.field "op").text? with
  | some "table" => readTable kind d
  | some "new" => readCreate kind d hook?
  | some "hold" => readHold d
  | some "clone" => readHold d
  | some "put" => Step.put <$> insistField [] d "r" Datum.text?
  | some "drop" => Step.drop <$> insistField [] d "r" Datum.text?
  | some "info" => Step.info <$> insistField [] d "r" Datum.text?
  | some "ptr_eq" => readSame d
  | some "hash" => readHash kind d
  | some "unhash" => readUnhash d
  | some "lookup" => readLookup kind d
  | some "remove" => readRemove kind d
  | some "fill" => readFill kind d hook?
  | some "foreach" => readTraverse d
  | some "foreach_read" => readSurvey d
  | some "chains" => Step.chains <$> insistField [] d "t" Datum.text?
  | some "stat" => Step.stat <$> insistField [] d "t" Datum.text?
  | some "debug" => readShow d
  | some "drop_table" => Step.dropTable <$> insistField [] d "t" Datum.text?
  | _ => .error ([], .badStep)

mutual

/-- The step that a datum stands for. -/
def readStep (kind : KeyKind K) (d : Datum) : Step K :=
  let hook? :=
    match _hfree : d.field "free" with
    | .null => some []
    | .list items => some (readSteps kind items)
    | _ => none
  match readStepWith kind d hook? with
  | .ok step => step
  | .error (needs, complaint) => .malformed needs complaint
termination_by sizeOf d
decreasing_by exact Datum.sizeOf_lt_of_field _hfree

def readSteps (kind : KeyKind K) : List Datum → List (Step K)
  | [] => []
  | d :: rest => readStep kind d :: readSteps kind rest
termination_by data => sizeOf data

end

end HashIndex.Script
