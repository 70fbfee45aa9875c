import HashIndex.Script.Reader
import HashIndex.Script.Writer
import HashIndex.Sdbm.Repeated

/-!
# Requests

A request is a record that names what it asks for: the hash of a byte, a byte string, a text or a
word; a capacity; what a refusal says; or the run of a script. A request that makes no sense is
answered as such.

## Main definitions

* `reply`: the reply to a request.
-/

namespace HashIndex

open Script

def failure (name : String) : Datum := .record [("error", .text name)]

def writeHash (hash : UInt32) : Datum := .ofNat hash.toNat

/-- A natural number of 64 bits, or 1 if there is none. -/
def readTimes? : Datum → Option Nat := Datum.orElse? 1 (Datum.natBelow? UInt64.size)

def replyPartial? (d : Datum) : Option Datum := do
  let byte ← (d.field "byte").natBelow? UInt8.size
  let hash ← (d.field "hash").natBelow? UInt32.size
  return writeHash (Sdbm.step (UInt8.ofNat byte) (UInt32.ofNat hash))

def replyBytes? (d : Datum) : Option Datum := do
  let bytes ← (d.field "hex").text?.bind Hex.decode?
  let times ← readTimes? (d.field "repeat")
  return writeHash (Sdbm.ofRepeated bytes times)

def replyString? (d : Datum) : Option Datum := do
  let text ← (d.field "s").text?
  let times ← readTimes? (d.field "repeat")
  return writeHash (Sdbm.ofRepeated (Sdbm.utf8 text) times)

def replyWord? (d : Datum) : Option Datum := do
  let word ← (d.field "key").natBelow? UInt32.size
  return writeHash (Sdbm.ofWord (UInt32.ofNat word))

def writeCapacity (c : Capacity) : Datum :=
  .record
    [("usize", .ofNat c.size), ("as_usize", .ofNat c.size), ("nonzero", .ofNat c.size),
      ("log2", .ofNat c.log2.toNat), ("mask", .ofNat c.mask.toNat), ("debug", .text c.describe),
      ("min", .flag (c = .least)), ("def", .flag (c = .standard)), ("max", .flag (c = .greatest))]

def replyRefusal? (d : Datum) : Option Datum := do
  let refusal ← (d.field "name").text?.bind Refusal.ofName?
  return .record [("debug", .text refusal.name), ("display", .text refusal.message)]

def runScript {K : Type} (kind : KeyKind K) (detail : Detail) (steps : List Datum) : Datum :=
  match report (readSteps kind steps) with
  | .ok report => writeReport kind detail report
  | .error fault => failure fault.name

def replyScript? (d : Datum) : Option Datum := do
  let keys ← (d.field "keys").text?
  let steps ← (d.field "steps").list?
  let journal ← Datum.orElse? false Datum.flag? (d.field "log")
  let brief ← Datum.orElse? false Datum.flag? (d.field "brief")
  let detail : Detail := ⟨journal, !brief⟩
  match keys with
  | "str" => some (runScript .text detail steps)
  | "bytes" => some (runScript .bytes detail steps)
  | "u32" => some (runScript .word detail steps)
  | "usize" => some (runScript .size detail steps)
  | _ => none

/-- The reply to a request that makes sense. -/
def reply? (d : Datum) : Option Datum :=
  match (d.field "op").text? with
  | some "partial" => replyPartial? d
  | some "bytes" => replyBytes? d
  | some "string" => replyString? d
  | some "word" => replyWord? d
  | some "capacity" => (readCapacity? (d.field "value")).map writeCapacity
  | some "error" => replyRefusal? d
  | some "script" => replyScript? d
  | _ => none

/-- The reply to a request. -/
def reply (d : Datum) : Datum := (reply? d).getD (failure "BadInput")

end HashIndex
