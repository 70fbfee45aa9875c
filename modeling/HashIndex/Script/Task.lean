import HashIndex.Script.Begin

/-!
# Doing tasks

The most urgent task of a session is done a bit at a time: one reference is put, one bucket is
visited, one step of a hook is begun. What is left of the task goes back on the stack, below
whatever has to happen first.

## Main definitions

* `Session.perform`: do the next bit of a task.
-/

namespace HashIndex.Script.Session

variable {K : Type}

/-- Go on with the hook of a destroyed element: take note of the answer of its last step, or begin
the next one, or drop the value. -/
def performHook (s : Session K) (label : String) (steps : List (Step K)) :
    Except Fault (Session K) :=
  match s.answer with
  | some answer =>
    .ok (({ s with answer := none }.emit (.hooked label answer)).push (.hook label steps))
  | none =>
    match steps with
    | [] => .ok (s.emit (.dropped label))
    | step :: steps => (s.push (.hook label steps)).begin step

def performRelease (s : Session K) : List ElementId → Except Fault (Session K)
  | [] => .ok s
  | e :: elements => do
    let (destroyed, s) ← s.act (fun store => store.put e)
    return (s.push (.release elements)).bury e destroyed

def performDrop (s : Session K) (e : ElementId) : Except Fault (Session K) := do
  let (destroyed, s) ← s.act (fun store => store.put e)
  return s.bury e destroyed

/-- Put a reference, and leave the answer to be given after the hook. -/
def performPut (s : Session K) (e : ElementId) : Except Fault (Session K) := do
  let (destroyed, s) ← s.act (fun store => store.put e)
  return (s.push (.answer (.flag destroyed.isSome))).bury e destroyed

/-- Store the next reference; one that had the name before is dropped afterwards. -/
def performKeep (s : Session K) : List (String × ElementId) → Session K
  | [] => s
  | (name, e) :: entries =>
    let (replaced, handles) := s.handles.insert name e
    let s := { s with handles := handles }.push (.keep entries)
    match replaced with
    | none => s
    | some old => s.push (.drop old)

/-- Make the next element and link it; the reference that made it is put. -/
def performFill (s : Session K) (t : TableId) (items : List (Item K)) (cut : Bool)
    (hook : List (Step K)) (results : List (Except Refusal Unit)) : Except Fault (Session K) :=
  match items with
  | [] => .ok (s.reply (if cut then .complaint .badKey else .results results.reverse))
  | item :: items => do
    let ((e, result), s) ← s.act fun store => do
      let (e, store) := store.create item
      let (result, store) ← store.hash t e item.key
      return ((e, result), store)
    return ((s.attach e hook).push (.fill t items cut hook (result :: results))).push (.drop e)

/-- Visit the next bucket; the elements that were taken out are put before the one after it. -/
def performTraverse (s : Session K) (t : TableId) (buckets : List Nat) (visited : Nat)
    (kept : List (String × ElementId)) (hold unhash : Selection K) (target : String) :
    Except Fault (Session K) :=
  match buckets with
  | [] => .ok ((s.push (.answer (.count visited))).push (.keep kept.reverse))
  | bucket :: buckets => do
    let ((visits, released), s) ← s.act fun store => do
      let walk ← store.walkBucket t bucket visited
        (fun number item => ⟨hold number item, unhash number item⟩)
      return ((walk.visits, walk.released), walk.store)
    let s := visits.foldl (fun s visit => s.emit (.visited visit.value visit.hash)) s
    return (s.push
      (.traverse t buckets (visited + visits.length)
        ((keptBy target visits).reverse ++ kept) hold unhash target)).push (.release released)

/-- Drain the next bucket; its elements are put before the one after it is drained. -/
def performDrain (s : Session K) (t : TableId) (buckets : List Nat) (drained : Nat) :
    Except Fault (Session K) :=
  match buckets with
  | [] => .ok (s.adopt ((s.store.freeTable t).note (.drained drained)))
  | bucket :: buckets => do
    let (released, s) ← s.act (fun store => store.drainBucket t bucket)
    return (s.push (.drain t buckets (drained + released.length))).push (.release released)

/-- Drop the first handle, or the first table if there is no handle. -/
def performTeardown (s : Session K) : Except Fault (Session K) :=
  match s.handles.takeFirst? with
  | some (e, handles) =>
    .ok (({ s with handles := handles }.push .teardown).push (.drop e))
  | none =>
    match s.tables.takeFirst? with
    | some (t, tables) => ({ s with tables := tables }.push .teardown).retire t
    | none => .ok s

/-- Do the next bit of a task that was taken from the stack. -/
def perform (s : Session K) : Task K → Except Fault (Session K)
  | .hook label steps => s.performHook label steps
  | .release elements => s.performRelease elements
  | .drop e => s.performDrop e
  | .put e => s.performPut e
  | .keep entries => .ok (s.performKeep entries)
  | .fill t items cut hook results => s.performFill t items cut hook results
  | .traverse t buckets visited kept hold unhash target =>
    s.performTraverse t buckets visited kept hold unhash target
  | .drain t buckets drained => s.performDrain t buckets drained
  | .answer answer => .ok (s.reply answer)
  | .teardown => s.performTeardown

end HashIndex.Script.Session
