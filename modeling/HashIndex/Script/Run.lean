import HashIndex.Script.Progress

/-!
# Running scripts

A step is taken by beginning it and then doing all tasks that it leads to. A script is run step by
step, and at the end everything that is left is dropped.

## Main definitions

* `Session.run`: do all tasks.
* `Session.take`, `Session.finish`: take a step, drop everything at the end.
* `Outcome`, `Report`: what is told of a step and of a script.
* `report`: run a script.
-/

namespace HashIndex.Script

/-- What the names of a session refer to. -/
structure Snapshot where
  /-- The tables, each with the number of its entries. -/
  tables : List (String × Nat)
  /-- The handles, each with the number of references to its element and whether that is linked. -/
  handles : List (String × Nat × Bool)

/-- What is told of a step. -/
structure Outcome (K : Type) where
  answer : Answer K
  events : List (Event K)
  snapshot : Snapshot

/-- What is told of a script. -/
structure Report (K : Type) where
  outcomes : List (Outcome K)
  ending : List (Event K)

namespace Session

variable {K : Type}

/-- Do all tasks. -/
def run (s : Session K) : Except Fault (Session K) :=
  match _htasks : s.tasks with
  | [] => .ok s
  | task :: tasks =>
    match _hperform : { s with tasks := tasks }.perform task with
    | .error fault => .error fault
    | .ok rest => rest.run
termination_by s
decreasing_by
  have hlt := precedes_of_perform _hperform
  rw [push, ← _htasks] at hlt
  exact hlt

def snapshot (s : Session K) : Except Fault Snapshot := do
  let tables ← s.tables.entries.mapM fun (name, t) => do
    let table ← s.store.table t
    return (name, table.entries)
  let handles ← s.handles.entries.mapM fun (name, e) => do
    let x ← s.store.heap.read e
    return (name, x.count, x.isHashed)
  return ⟨tables, handles⟩

def take (s : Session K) (step : Step K) : Except Fault (Outcome K × Session K) := do
  let s ← s.begin step
  let s ← s.run
  let snapshot ← s.snapshot
  return (⟨s.answer.getD .nothing, s.events.reverse, snapshot⟩,
    { s with answer := none, events := [] })

def takeAll (s : Session K) : List (Step K) → Except Fault (List (Outcome K) × Session K)
  | [] => .ok ([], s)
  | step :: steps => do
    let (outcome, s) ← s.take step
    let (outcomes, s) ← s.takeAll steps
    return (outcome :: outcomes, s)

/-- Drop everything that has a name. -/
def finish (s : Session K) : Except Fault (Session K) := (s.push .teardown).run

end Session

/-- Run a script. -/
def report {K : Type} (steps : List (Step K)) : Except Fault (Report K) := do
  let (outcomes, s) ← Session.initial.takeAll steps
  let s ← s.finish
  return ⟨outcomes, s.events.reverse⟩

end HashIndex.Script
