import HashIndex.KeyKind
import HashIndex.Script.Run

/-!
# Writing reports

What is told of a script is written as data. Events are lists that begin with the name of the event,
and answers are plain data or records.

## Main definitions

* `writeAnswer`, `writeEvent?`, `writeOutcome`: the parts of a report as data.
* `writeReport`: a report as a datum.
-/

namespace HashIndex.Script

variable {K : Type}

/-- How much of a report is written. -/
structure Detail where
  /-- Whether the journal of the store is part of the events. -/
  journal : Bool
  /-- Whether the state after each step is part of its outcome. -/
  snapshots : Bool

def writeInfo (kind : KeyKind K) (info : Info K) : Datum :=
  .record
    [("label", .text info.item.label), ("key", kind.write info.item.key),
      ("n", .whole info.item.number), ("count", .ofNat info.count), ("hashed", .flag info.hashed)]

def writeStat (stat : Stat) : Datum :=
  .record
    [("capacity", .ofNat stat.capacity), ("count", .ofNat stat.count),
      ("empty", .flag (stat.count = 0))]

def writeCensus (census : Census) : Datum :=
  .record
    [("buckets", .ofNat census.buckets), ("total", .ofNat census.total),
      ("chains", .list (census.chains.map fun (bucket, labels) =>
        .list [.ofNat bucket, .list (labels.map .text)]))]

def writeResult : Except Refusal Unit → Datum
  | .ok () => .text "ok"
  | .error refusal => .text refusal.name

def writeAnswer (kind : KeyKind K) : Answer K → Datum
  | .nothing => .null
  | .done => .text "ok"
  | .flag value => .flag value
  | .count value => .ofNat value
  | .info info => writeInfo kind info
  | .stat stat => writeStat stat
  | .results results => .list (results.map writeResult)
  | .census census => writeCensus census
  | .text text => .text text
  | .refused refusal =>
    .record [("error", .text refusal.name), ("message", .text refusal.message)]
  | .complaint complaint => .record [("error", .text complaint.name)]

/-- An entry of the journal: how important it is, and what it says. -/
def writeNote : Note → Datum
  | .allocated buckets => .list
    [.text "log", .text "DEBUG", .text ("allocated table: " ++ toString buckets ++ " buckets")]
  | .selected hash mask bucket => .list
    [.text "log", .text "TRACE",
      .text ("hash: 0x" ++ Hex.padded hash.toNat ++ " mask: 0x" ++ Hex.digits mask ++
        " bucket: " ++ toString bucket)]
  | .drained elements => .list
    [.text "log", .text "DEBUG",
      .text ("dropped table: " ++ toString elements ++ " elements drained")]

/-- A visit of an element: its label, its cached hash, and how the visit shows. -/
def writeVisit (event title : String) (item : Item K) (hash : UInt32) : Datum :=
  .list [.text event, .text item.label, .ofNat hash.toNat,
    .text (title ++ "(" ++ item.shown.compact ++ ")")]

/-- An event as a datum, unless it is of no interest. -/
def writeEvent? (kind : KeyKind K) (detail : Detail) : Event K → Option Datum
  | .freed strategy label => some (.list [.text "free", .text strategy, .text label])
  | .dropped label => some (.list [.text "drop", .text label])
  | .hooked label answer =>
    some (.list [.text "hook", .text label, writeAnswer kind answer])
  | .visited item hash => some (writeVisit "visit" "VisitMut" item hash)
  | .read item hash => some (writeVisit "read" "Visit" item hash)
  | .noted note => if detail.journal then some (writeNote note) else none

def writeEvents (kind : KeyKind K) (detail : Detail) (events : List (Event K)) : Datum :=
  .list (events.filterMap (writeEvent? kind detail))

def writeSnapshot (snapshot : Snapshot) : Datum :=
  .record
    [("tables", .record (snapshot.tables.map fun (name, count) => (name, .ofNat count))),
      ("refs", .record (snapshot.handles.map fun (name, count, hashed) =>
        (name, .list [.ofNat count, .flag hashed])))]

def writeOutcome (kind : KeyKind K) (detail : Detail) (outcome : Outcome K) : Datum :=
  .record (
    [("r", writeAnswer kind outcome.answer), ("ev", writeEvents kind detail outcome.events)] ++
      if detail.snapshots then [("s", writeSnapshot outcome.snapshot)] else [])

def writeReport (kind : KeyKind K) (detail : Detail) (report : Report K) : Datum :=
  .record
    [("steps", .list (report.outcomes.map (writeOutcome kind detail))),
      ("end", writeEvents kind detail report.ending)]

end HashIndex.Script
