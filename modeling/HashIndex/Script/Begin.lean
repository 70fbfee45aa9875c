import HashIndex.Script.Session

/-!
# Beginning a step

A step begins with looking up the names it mentions. What can be done at once is done at once, and
the rest is left as tasks, since it may lead to hooks that take steps of their own.

## Main definitions

* `Session.begin`: begin a step.
-/

namespace HashIndex.Script

def describe {K : Type} (store : Store (Item K) K) (e : ElementId) : Except Fault (Info K) := do
  let x ← store.heap.read e
  return ⟨x.value, x.count, x.isHashed⟩

def statOf {K : Type} (store : Store (Item K) K) (t : TableId) : Except Fault Stat := do
  let table ← store.table t
  return ⟨table.buckets.size, table.entries⟩

def showElement {K : Type} (store : Store (Item K) K) (e : ElementId) : Except Fault Shown := do
  let x ← store.heap.read e
  return .record "Ref"
    [("value", x.value.shown), ("count", .number x.count), ("hashed", .flag x.isHashed)]

/-- The references that visits hold, each with the name it is to be stored under. -/
def keptBy {K : Type} (target : String) (visits : List (Visit (Item K))) :
    List (String × ElementId) :=
  (visits.filter (fun visit => visit.choice.hold)).map
    (fun visit => (target ++ toString visit.number, visit.element))

/-- Cut a list into pieces of given lengths, and number the pieces from `bucket` on. Only those that
are not empty are kept; the ones in `before`, latest first, come before. -/
def pieces {α : Type} (bucket : Nat) : (lengths : List Nat) → (items : List α) →
    (before : List (Nat × List α)) → List (Nat × List α)
  | [], _, before => before.reverse
  | 0 :: lengths, items, before => pieces (bucket + 1) lengths items before
  | length :: lengths, items, before =>
    pieces (bucket + 1) lengths (items.drop length) ((bucket, items.take length) :: before)

/-- The elements of a table by bucket, from the lengths of the chains and all visits in order. -/
def censusOf {K : Type} (lengths : List Nat) (visits : List (Visit (Item K))) : Census where
  buckets := lengths.length
  total := visits.length
  chains := pieces 0 lengths (visits.map (fun visit => visit.value.label)) []

namespace Session

variable {K : Type}

@[inline]
def withHandle (s : Session K) (name : String) (next : ElementId → Except Fault (Session K)) :
    Except Fault (Session K) :=
  match s.handles.find? name with
  | none => .ok (s.complain .noSuchRef)
  | some e => next e

@[inline]
def takeHandle (s : Session K) (name : String)
    (next : ElementId → Session K → Except Fault (Session K)) : Except Fault (Session K) :=
  match s.handles.take? name with
  | none => .ok (s.complain .noSuchRef)
  | some (e, handles) => next e { s with handles := handles }

@[inline]
def withTable (s : Session K) (name : String) (next : TableId → Except Fault (Session K)) :
    Except Fault (Session K) :=
  match s.tables.find? name with
  | none => .ok (s.complain .noSuchTable)
  | some t => next t

/-- Complain of a step, once all that it needs before is found. -/
def beginMalformed (s : Session K) (complaint : Complaint) : List Need → Session K
  | [] => s.complain complaint
  | .table name :: needs =>
    match s.tables.find? name with
    | none => s.complain .noSuchTable
    | some _ => s.beginMalformed complaint needs
  | .handle name :: needs =>
    match s.handles.find? name with
    | none => s.complain .noSuchRef
    | some _ => s.beginMalformed complaint needs

/-- Make a table. The table that had the name before is dropped afterwards. -/
def beginTable (s : Session K) (name : String) (strategy : Strategy (Item K) K)
    (capacity : Capacity) : Except Fault (Session K) := do
  let ((t, stat), s) ← s.act fun store => do
    let (t, store) := store.createTable strategy capacity
    let stat ← statOf store t
    return ((t, stat), store)
  let (replaced, tables) := s.tables.insert name t
  let s := { s with tables := tables }.push (.answer (.stat stat))
  match replaced with
  | none => return s
  | some old => s.retire old

def beginCreate (s : Session K) (name : String) (item : Item K) (hook : List (Step K)) :
    Except Fault (Session K) := do
  let ((e, info), s) ← s.act fun store => do
    let (e, store) := store.create item
    let info ← describe store e
    return ((e, info), store)
  return ((s.attach e hook).push (.answer (.info info))).push (.keep [(name, e)])

def beginHold (s : Session K) (name target : String) : Except Fault (Session K) :=
  s.withHandle name fun e => do
    let (info, s) ← s.act fun store => do
      let store ← store.hold e
      let info ← describe store e
      return (info, store)
    return (s.push (.answer (.count info.count))).push (.keep [(target, e)])

def beginHash (s : Session K) (table name : String) (key : Option K) :
    Except Fault (Session K) :=
  s.withTable table fun t =>
    s.withHandle name fun e => do
      let (result, s) ← s.act fun store => do
        let x ← store.heap.read e
        store.hash t e (key.getD x.value.key)
      return s.reply (.ofResult result)

/-- Take an element out of a table, and put the reference of the table. -/
def beginUnhash (s : Session K) (table name : String) : Except Fault (Session K) :=
  s.withTable table fun t =>
    s.withHandle name fun e => do
      let (result, s) ← s.act (fun store => store.unhash t e)
      match result with
      | .error refusal => return s.reply (.refused refusal)
      | .ok () => return (s.push (.answer .done)).push (.release [e])

def beginLookup (s : Session K) (table : String) (key : K) (target : Option String) :
    Except Fault (Session K) :=
  s.withTable table fun t => do
    let (result, s) ← s.act (fun store => store.lookup t key)
    match result with
    | .error refusal => return s.reply (.refused refusal)
    | .ok e =>
      let info ← describe s.store e
      let s := s.push (.answer (.info info))
      match target with
      | some target => return s.push (.keep [(target, e)])
      | none => return s.push (.drop e)

/-- Find an element, take it out, and put both the reference of the table and the one found. -/
def beginRemove (s : Session K) (table : String) (key : K) : Except Fault (Session K) :=
  s.withTable table fun t => do
    let (result, s) ← s.act (fun store => store.lookup t key)
    match result with
    | .error refusal => return s.reply (.refused refusal)
    | .ok e =>
      let (result, s) ← s.act (fun store => store.unhash t e)
      match result with
      | .error refusal => return (s.push (.answer (.refused refusal))).push (.drop e)
      | .ok () => return (s.push (.put e)).push (.release [e])

def beginTraverse (s : Session K) (table : String) (hold unhash : Selection K)
    (target : String) : Except Fault (Session K) :=
  s.withTable table fun t => do
    let buckets ← s.store.bucketRange t
    return s.push (.traverse t buckets 0 [] hold unhash target)

/-- Visit all elements of a table without taking any out, which leads to no hooks. -/
def beginSurvey (s : Session K) (table : String) (hold : Selection K) (target : String) :
    Except Fault (Session K) :=
  s.withTable table fun t => do
    let buckets ← s.store.bucketRange t
    let (visits, s) ← s.act (Store.readBuckets t hold buckets [] 0)
    let visits := visits.flatten
    let s := visits.foldl (fun s visit => s.emit (.read visit.value visit.hash)) s
    return (s.push (.answer (.count visits.length))).push (.keep (keptBy target visits))

def beginChains (s : Session K) (table : String) : Except Fault (Session K) :=
  s.withTable table fun t => do
    let buckets ← s.store.bucketRange t
    let (lengths, s) ← s.act (Store.chainLengths t buckets [])
    let (visits, s) ← s.act (Store.readBuckets t (fun _ _ => false) buckets [] 0)
    return s.reply (.census (censusOf lengths visits.flatten))

def beginDropTable (s : Session K) (name : String) : Except Fault (Session K) :=
  match s.tables.take? name with
  | none => .ok (s.complain .noSuchTable)
  | some (t, tables) => ({ s with tables := tables }.push (.answer .nothing)).retire t

/-- Begin a step: answer it, or leave tasks the last of which is the answer. -/
def begin (s : Session K) : Step K → Except Fault (Session K)
  | .malformed needs complaint => .ok (s.beginMalformed complaint needs)
  | .table name strategy capacity => s.beginTable name strategy capacity
  | .create name item hook => s.beginCreate name item hook
  | .hold name target => s.beginHold name target
  | .put name => s.takeHandle name fun e s => .ok (s.push (.put e))
  | .drop name =>
    s.takeHandle name fun e s => .ok ((s.push (.answer .nothing)).push (.drop e))
  | .info name =>
    s.withHandle name fun e => do
      let info ← describe s.store e
      return s.reply (.info info)
  | .same name other =>
    s.withHandle name fun e =>
      s.withHandle other fun f => .ok (s.reply (.flag (e = f)))
  | .hash table name key => s.beginHash table name key
  | .unhash table name => s.beginUnhash table name
  | .lookup table key target => s.beginLookup table key target
  | .remove table key => s.beginRemove table key
  | .fill table items cut hook =>
    s.withTable table fun t => .ok (s.push (.fill t items cut hook []))
  | .traverse table hold unhash target => s.beginTraverse table hold unhash target
  | .survey table hold target => s.beginSurvey table hold target
  | .chains table => s.beginChains table
  | .stat table =>
    s.withTable table fun t => do
      let stat ← statOf s.store t
      return s.reply (.stat stat)
  | .showHandle name long =>
    s.withHandle name fun e => do
      let shown ← showElement s.store e
      return s.reply (.text (shown.render long))
  | .showTable table long =>
    s.withTable table fun t => do
      let table ← s.store.table t
      return s.reply (.text (table.shown.render long))
  | .dropTable name => s.beginDropTable name

end Session

end HashIndex.Script
