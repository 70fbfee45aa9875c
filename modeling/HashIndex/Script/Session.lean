import HashIndex.Script.Directory
import HashIndex.Script.Step

/-!
# Sessions

A session is the state of a running script: the store, the names that the script has given to
handles and tables, the hooks of the elements, and the tasks that are still to be done. Hooks run in
the middle of other work, so what is left of that work is a stack of tasks.

## Main definitions

* `Task`: a piece of work that is still to be done.
* `Session`: the state of a running script.
* `Session.push`, `Session.reply`: new work, an answer.
* `Session.adopt`, `Session.act`: a new store, and an action on the store.
* `Session.work`: the number of steps that the hooks can still lead to.
-/

namespace HashIndex.Script

/-- Work that is still to be done. -/
inductive Task (K : Type) where
  /-- Take the steps of the hook of a destroyed element, and drop its value at the end. -/
  | hook (label : String) (steps : List (Step K))
  /-- Put references that tables had, one after the other. -/
  | release (elements : List ElementId)
  | drop (element : ElementId)
  /-- Put a reference, and answer whether it was the last one. -/
  | put (element : ElementId)
  /-- Store references under names, one after the other. -/
  | keep (entries : List (String × ElementId))
  /-- Make elements with a hook and link them into a table; `results` are those so far, latest
  first. -/
  | fill (table : TableId) (items : List (Item K)) (cut : Bool) (hook : List (Step K))
      (results : List (Except Refusal Unit))
  /-- Visit the elements of buckets; `kept` are the references held so far, latest first. -/
  | traverse (table : TableId) (buckets : List Nat) (visited : Nat)
      (kept : List (String × ElementId)) (hold unhash : Selection K) (target : String)
  /-- Drain buckets, and free the table at the end. -/
  | drain (table : TableId) (buckets : List Nat) (drained : Nat)
  | answer (answer : Answer K)
  /-- Drop all handles, and when there is none left, all tables. -/
  | teardown

/-- The state of a running script. -/
structure Session (K : Type) where
  store : Store (Item K) K
  /-- The handles by name; each is a reference to its element. -/
  handles : Directory ElementId
  tables : Directory TableId
  hooks : List (ElementId × List (Step K))
  /-- The work that is still to be done, most urgent first. -/
  tasks : List (Task K)
  /-- The answer of the step that was taken last, until somebody has taken note of it. -/
  answer : Option (Answer K)
  /-- What happened so far, latest first. -/
  events : List (Event K)

/-- Whether a task works on a table. -/
def Task.uses {K : Type} (t : TableId) : Task K → Bool
  | .fill table .. => table = t
  | .traverse table .. => table = t
  | .drain table .. => table = t
  | _ => false

/-- The number of hook steps that are part of a task. -/
def Task.work {K : Type} : Task K → Nat
  | .hook _ steps => Step.totalWeight steps
  | .fill _ items _ steps _ => items.length * (1 + Step.totalWeight steps)
  | _ => 0

namespace Session

variable {K : Type}

def initial : Session K where
  store := .empty
  handles := .empty
  tables := .empty
  hooks := []
  tasks := []
  answer := none
  events := []

def emit (s : Session K) (event : Event K) : Session K := { s with events := event :: s.events }

/-- There is more to do, before everything else. -/
def push (s : Session K) (task : Task K) : Session K := { s with tasks := task :: s.tasks }

def reply (s : Session K) (answer : Answer K) : Session K := { s with answer := some answer }

def complain (s : Session K) (complaint : Complaint) : Session K :=
  s.reply (.complaint complaint)

/-- Go on with another store, whose journal becomes part of what happened. -/
def adopt (s : Session K) (store : Store (Item K) K) : Session K :=
  { s with
    store := { store with journal := [] }
    events := store.journal.map .noted ++ s.events }

/-- Act on the store. Nothing else refers to the store meanwhile, so that it can be changed in
place. -/
def act {α : Type} (s : Session K)
    (action : Store (Item K) K → Except Fault (α × Store (Item K) K)) :
    Except Fault (α × Session K) :=
  match s with
  | ⟨store, handles, tables, hooks, tasks, answer, events⟩ => do
    let (result, store) ← action store
    return (result, ⟨{ store with journal := [] }, handles, tables, hooks, tasks, answer,
      store.journal.map .noted ++ events⟩)

/-- Acting on the store is going on with the store after the action. -/
theorem act_eq_ok_iff {α : Type} {s s' : Session K} {result : α}
    {action : Store (Item K) K → Except Fault (α × Store (Item K) K)} :
    s.act action = .ok (result, s') ↔
      ∃ store, action s.store = .ok (result, store) ∧ s' = s.adopt store := by
  unfold act
  simp only [Fault.bind_eq_ok_iff, Fault.pure_eq_ok_iff, Prod.mk.injEq, Prod.exists]
  constructor
  · rintro ⟨_, store, haction, rfl, rfl⟩
    exact ⟨store, haction, rfl⟩
  · rintro ⟨store, haction, rfl⟩
    exact ⟨result, store, haction, rfl, rfl⟩

def attach (s : Session K) (e : ElementId) (hook : List (Step K)) : Session K :=
  { s with hooks := (e, hook) :: s.hooks }

def hookOf (e : ElementId) : List (ElementId × List (Step K)) → List (Step K)
  | [] => []
  | (f, hook) :: hooks => if f = e then hook else hookOf e hooks

def withoutHook (e : ElementId) :
    List (ElementId × List (Step K)) → List (ElementId × List (Step K))
  | [] => []
  | (f, hook) :: hooks => if f = e then hooks else (f, hook) :: withoutHook e hooks

/-- What follows when a reference to `e` was put. If `destroyed` is the element, its value is
dropped: at once if nobody is to be told, and after its hook otherwise. -/
def bury (s : Session K) (e : ElementId) (destroyed : Option (Element (Item K))) : Session K :=
  match destroyed with
  | none => s
  | some x =>
    let hook := hookOf e s.hooks
    let s := { s with hooks := withoutHook e s.hooks }
    match x.release with
    | .drop => s.emit (.dropped x.value.label)
    | .announce strategy =>
      (s.emit (.freed strategy x.value.label)).push (.hook x.value.label hook)

/-- Drop a table that no name refers to any more: drain it, and then forget it. Nobody may be
working on it. -/
def retire (s : Session K) (t : TableId) : Except Fault (Session K) := do
  if s.tasks.any (Task.uses t) then throw .tableInUse
  let buckets ← s.store.bucketRange t
  return s.push (.drain t buckets 0)

def hooksWork : List (ElementId × List (Step K)) → Nat
  | [] => 0
  | (_, hook) :: hooks => Step.totalWeight hook + hooksWork hooks

def tasksWork : List (Task K) → Nat
  | [] => 0
  | task :: tasks => task.work + tasksWork tasks

/-- The number of hook steps that can still be taken. -/
def work (s : Session K) : Nat := hooksWork s.hooks + tasksWork s.tasks

/-- Taking a hook away takes its steps away. -/
theorem hooksWork_withoutHook (e : ElementId) (hooks : List (ElementId × List (Step K))) :
    hooksWork (withoutHook e hooks) + Step.totalWeight (hookOf e hooks) = hooksWork hooks := by
  induction hooks with
  | nil => rfl
  | cons entry hooks ih =>
    obtain ⟨f, hook⟩ := entry
    unfold withoutHook hookOf
    split
    · simp [hooksWork, Nat.add_comm]
    · simp only [hooksWork]
      omega

@[simp]
theorem work_emit (s : Session K) (event : Event K) : (s.emit event).work = s.work := rfl

@[simp]
theorem work_push (s : Session K) (task : Task K) :
    (s.push task).work = task.work + s.work := by
  simp only [work, push, tasksWork]
  omega

@[simp]
theorem work_reply (s : Session K) (answer : Answer K) : (s.reply answer).work = s.work := rfl

@[simp]
theorem work_complain (s : Session K) (complaint : Complaint) :
    (s.complain complaint).work = s.work := rfl

@[simp]
theorem work_adopt (s : Session K) (store : Store (Item K) K) : (s.adopt store).work = s.work :=
  rfl

@[simp]
theorem work_attach (s : Session K) (e : ElementId) (hook : List (Step K)) :
    (s.attach e hook).work = Step.totalWeight hook + s.work := by
  simp only [work, attach, hooksWork]
  omega

@[simp]
theorem work_handles (s : Session K) (handles : Directory ElementId) :
    { s with handles := handles }.work = s.work := rfl

@[simp]
theorem work_tables (s : Session K) (tables : Directory TableId) :
    { s with tables := tables }.work = s.work := rfl

/-- The steps of a hook are to be taken at most once, when its element is destroyed. -/
theorem work_bury_le (s : Session K) (e : ElementId) (destroyed : Option (Element (Item K))) :
    (s.bury e destroyed).work ≤ s.work := by
  cases destroyed with
  | none => exact Nat.le_refl _
  | some x =>
    have hsplit := hooksWork_withoutHook e s.hooks
    unfold bury
    dsimp only
    split
    · simp only [work_emit]
      simp only [work]
      omega
    · simp only [work_push, work_emit, Task.work]
      simp only [work]
      omega

/-- Dropping a table leads to no steps but those of the hooks. -/
theorem work_of_retire {s s' : Session K} {t : TableId} (h : s.retire t = .ok s') :
    s'.work = s.work := by
  unfold retire at h
  simp only [bind, Except.bind, pure, Except.pure, throw, throwThe, MonadExceptOf.throw] at h
  split at h
  · cases h
  · split at h
    · cases h
    · cases h
      simp [Task.work]

end Session

end HashIndex.Script
