import HashIndex.Table

/-!
# Stores

A store holds everything that an index consists of: the elements, the tables, the locks on buckets
that are held at the moment, and a journal of what was done. This module has the access to each of
the four; operations in the sense of an index are built from it elsewhere.

## Main definitions

* `Store`: elements, tables, locks and journal.
* `Store.table`, `Store.chain`, `Store.setChain`: tables and their buckets.
* `Store.lock`, `Store.unlock`: the lock on a bucket.
* `Store.select`: the bucket for a hash.
* `Store.createTable`, `Store.freeTable`: the beginning and the end of a table.
-/

namespace HashIndex

/-- A lock on one bucket of a table. -/
structure Lock where
  table : TableId
  bucket : Nat
  /-- Whether nobody else may read the bucket meanwhile. -/
  exclusive : Bool
deriving DecidableEq, Repr

/-- An entry of the journal. -/
inductive Note where
  | allocated (buckets : Nat)
  | selected (hash : UInt32) (mask bucket : Nat)
  /-- A table was dropped, and so many elements were drained from it. -/
  | drained (elements : Nat)
deriving DecidableEq, Repr

/-- The elements and tables of an index. -/
structure Store (V K : Type) where
  heap : Heap V
  /-- The tables. The place of a table is its identity; a dropped table leaves its place free. -/
  tables : Array (Option (Table V K))
  locks : List Lock
  /-- What was done, latest first. -/
  journal : List Note

namespace Store

variable {V K : Type}

def empty : Store V K := ⟨.empty, #[], [], []⟩

def table? (s : Store V K) (t : TableId) : Option (Table V K) := s.tables[t]?.join

def table (s : Store V K) (t : TableId) : Except Fault (Table V K) :=
  match s.table? t with
  | some table => .ok table
  | none => .error .danglingTable

def modifyTable (s : Store V K) (t : TableId) (f : Table V K → Table V K) : Store V K :=
  { s with tables := s.tables.modify t (Option.map f) }

def strategy (s : Store V K) (t : TableId) : Except Fault (Strategy V K) := do
  let table ← s.table t
  return table.strategy

def chain (s : Store V K) (t : TableId) (bucket : Nat) : Except Fault Chain := do
  let table ← s.table t
  table.chain bucket

def setChain (s : Store V K) (t : TableId) (bucket : Nat) (chain : Chain) : Store V K :=
  s.modifyTable t (fun table => table.setChain bucket chain)

def addEntry (s : Store V K) (t : TableId) : Except Fault (Store V K) := do
  let _ ← s.table t
  return s.modifyTable t (fun table => { table with entries := table.entries + 1 })

def removeEntry (s : Store V K) (t : TableId) : Except Fault (Store V K) := do
  let table ← s.table t
  if table.entries = 0 then throw .entriesUnderflow
  return s.modifyTable t (fun table => { table with entries := table.entries - 1 })

def note (s : Store V K) (entry : Note) : Store V K := { s with journal := entry :: s.journal }

/-- Lock a bucket. No second bucket is locked meanwhile, so nobody ever waits for himself. -/
def lock (s : Store V K) (lock : Lock) : Except Fault (Store V K) :=
  match s.locks with
  | [] => .ok { s with locks := [lock] }
  | _ :: _ => .error .lockHeld

def unlock (s : Store V K) (lock : Lock) : Store V K := { s with locks := s.locks.erase lock }

/-- Select the bucket for a hash, and say so in the journal. -/
def select (s : Store V K) (t : TableId) (hash : UInt32) : Except Fault (Nat × Store V K) := do
  let table ← s.table t
  return (table.slot hash, s.note (.selected hash (table.buckets.size - 1) (table.index hash)))

def updateElement (s : Store V K) (e : ElementId) (f : Element V → Element V) :
    Except Fault (Store V K) := do
  let heap ← s.heap.update e f
  return { s with heap := heap }

def updateElementM (s : Store V K) (e : ElementId) (f : Element V → Except Fault (Element V)) :
    Except Fault (Store V K) := do
  let heap ← s.heap.updateM e f
  return { s with heap := heap }

/-- Make a table without entries, in the first free place. -/
def createTable (s : Store V K) (strategy : Strategy V K) (capacity : Capacity) :
    TableId × Store V K :=
  let table := Table.new strategy capacity
  let s := s.note (.allocated capacity.size)
  match s.tables.findIdx? Option.isNone with
  | some t => (t, { s with tables := s.tables.setIfInBounds t (some table) })
  | none => (s.tables.size, { s with tables := s.tables.push (some table) })

/-- Forget a table; a later one may take its place. -/
def freeTable (s : Store V K) (t : TableId) : Store V K :=
  { s with tables := s.tables.setIfInBounds t none }

end Store

end HashIndex
