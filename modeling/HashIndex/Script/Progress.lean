import HashIndex.Script.Task
import HashIndex.Script.Work

/-!
# Progress

Hooks can make elements with hooks of their own, replace tables by others and fill these, so it
takes an argument that a script comes to an end. Every step is weighed when it is read, hooks
included, and taking it uses up some of that weight; what is done without taking a step makes the
tables, the buckets still to be dealt with, or the chores fewer.

## Main definitions

* `Session.chores`: a bound on what can be done without taking a step or going to the next bucket.
* `Session.Precedes`: the order of sessions by how much there is to do.

## Main statements

* `Session.wellFounded_precedes`: sessions cannot go down for ever in that order.
* `Session.precedes_of_perform`: doing a bit of a task leads down in it, whatever the state of the
  session.
-/

namespace HashIndex.Script

/-- The number of buckets that a task has still to deal with. -/
def Task.bucketsLeft {K : Type} : Task K → Nat
  | .traverse _ buckets .. => buckets.length
  | .drain _ buckets _ => buckets.length
  | _ => 0

/-- More than the number of bits in which a task can be done, if no bucket and no step of a hook
comes in between. A reference to be stored counts for more than one that is to be put, since a
reference that it replaces has to be put too. -/
def Task.chores {K : Type} : Task K → Nat
  | .hook .. => 1
  | .release elements => 2 * elements.length + 1
  | .drop _ => 2
  | .put _ => 4
  | .keep entries => 5 * entries.length + 1
  | .fill .. => 2
  | .traverse _ _ _ kept .. => 5 * kept.length + 4
  | .drain .. => 1
  | .answer _ => 2
  | .teardown => 1

namespace Session

variable {K : Type}

def bucketsLeft (s : Session K) : Nat :=
  s.tasks.foldr (fun task sum => task.bucketsLeft + sum) 0

/-- More than the number of bits in which the tasks can be done and all handles dropped, if no
bucket and no step of a hook comes in between. -/
def chores (s : Session K) : Nat :=
  4 * s.handles.size + s.tasks.foldr (fun task sum => task.chores + sum) 0 +
    s.answer.toList.length

/-- `s.Precedes t` if `s` has less to do than `t`: fewer steps of hooks; or as many, but fewer
tables to drop; or as many of these, but fewer buckets to deal with; or as many of those, but fewer
chores. -/
def Precedes (s t : Session K) : Prop :=
  s.work < t.work ∨ s.work = t.work ∧
    (s.tables.size < t.tables.size ∨ s.tables.size = t.tables.size ∧
      (s.bucketsLeft < t.bucketsLeft ∨ s.bucketsLeft = t.bucketsLeft ∧ s.chores < t.chores))

/-- Sessions cannot go down for ever. -/
theorem wellFounded_precedes : WellFounded (Precedes (K := K)) := by
  refine Subrelation.wf (fun {s t} h => ?_) (InvImage.wf
    (fun s : Session K => (s.work, s.tables.size, s.bucketsLeft, s.chores))
    (Prod.lex Nat.lt_wfRel
      (Prod.lex Nat.lt_wfRel (Prod.lex Nat.lt_wfRel Nat.lt_wfRel))).wf)
  simp only [InvImage, WellFoundedRelation.rel, Prod.lex_def]
  exact h

/-- Recursion on sessions goes down. -/
instance : WellFoundedRelation (Session K) := ⟨Precedes, wellFounded_precedes⟩

/-- A session with no more steps, tables and buckets but fewer chores comes before. -/
theorem precedes_of_chores_lt {s t : Session K} (hwork : s.work ≤ t.work)
    (htables : s.tables = t.tables) (hbuckets : s.bucketsLeft = t.bucketsLeft)
    (hchores : s.chores < t.chores) : s.Precedes t := by
  unfold Precedes
  rw [htables]
  omega

/-- A session with no more steps and tables but fewer buckets comes before. -/
theorem precedes_of_bucketsLeft_lt {s t : Session K} (hwork : s.work ≤ t.work)
    (htables : s.tables = t.tables) (hbuckets : s.bucketsLeft < t.bucketsLeft) :
    s.Precedes t := by
  unfold Precedes
  rw [htables]
  omega

@[simp]
theorem tables_push (s : Session K) (task : Task K) : (s.push task).tables = s.tables := rfl

@[simp]
theorem bucketsLeft_push (s : Session K) (task : Task K) :
    (s.push task).bucketsLeft = task.bucketsLeft + s.bucketsLeft := by
  simp [bucketsLeft, push]

@[simp]
theorem chores_push (s : Session K) (task : Task K) :
    (s.push task).chores = task.chores + s.chores := by
  simp only [chores, push, List.foldr_cons]
  omega

@[simp]
theorem tables_emit (s : Session K) (event : Event K) : (s.emit event).tables = s.tables := rfl

@[simp]
theorem bucketsLeft_emit (s : Session K) (event : Event K) :
    (s.emit event).bucketsLeft = s.bucketsLeft := rfl

@[simp]
theorem chores_emit (s : Session K) (event : Event K) : (s.emit event).chores = s.chores := rfl

@[simp]
theorem tables_adopt (s : Session K) (store : Store (Item K) K) :
    (s.adopt store).tables = s.tables := rfl

@[simp]
theorem bucketsLeft_adopt (s : Session K) (store : Store (Item K) K) :
    (s.adopt store).bucketsLeft = s.bucketsLeft := rfl

@[simp]
theorem chores_adopt (s : Session K) (store : Store (Item K) K) :
    (s.adopt store).chores = s.chores := rfl

@[simp]
theorem tables_reply (s : Session K) (answer : Answer K) : (s.reply answer).tables = s.tables :=
  rfl

@[simp]
theorem bucketsLeft_reply (s : Session K) (answer : Answer K) :
    (s.reply answer).bucketsLeft = s.bucketsLeft := rfl

/-- Somebody has to take note of an answer. -/
theorem chores_reply_le (s : Session K) (answer : Answer K) :
    (s.reply answer).chores ≤ s.chores + 1 := by
  simp only [chores, reply, Option.toList_some, List.length_singleton]
  omega

@[simp]
theorem tables_bury (s : Session K) (e : ElementId) (destroyed : Option (Element (Item K))) :
    (s.bury e destroyed).tables = s.tables := by
  unfold bury
  split
  · rfl
  · dsimp only
    split <;> rfl

@[simp]
theorem bucketsLeft_bury (s : Session K) (e : ElementId)
    (destroyed : Option (Element (Item K))) :
    (s.bury e destroyed).bucketsLeft = s.bucketsLeft := by
  unfold bury
  split
  · rfl
  · dsimp only
    split
    · rfl
    · rw [bucketsLeft_push]
      exact Nat.zero_add _

/-- Burying a value leaves at most its hook to be done. -/
theorem chores_bury_le (s : Session K) (e : ElementId) (destroyed : Option (Element (Item K))) :
    (s.bury e destroyed).chores ≤ s.chores + 1 := by
  unfold bury
  split
  · exact Nat.le_succ _
  · dsimp only
    split
    · exact Nat.le_succ _
    · rw [chores_push, Nat.add_comm]
      exact Nat.le_refl _

theorem tables_foldl_emit {α : Type} (event : α → Event K) (items : List α) (s : Session K) :
    (items.foldl (fun s item => s.emit (event item)) s).tables = s.tables := by
  induction items generalizing s with
  | nil => rfl
  | cons item items ih => exact ih (s.emit (event item))

theorem bucketsLeft_foldl_emit {α : Type} (event : α → Event K) (items : List α)
    (s : Session K) :
    (items.foldl (fun s item => s.emit (event item)) s).bucketsLeft = s.bucketsLeft := by
  induction items generalizing s with
  | nil => rfl
  | cons item items ih => exact ih (s.emit (event item))

theorem tables_of_retire {s s' : Session K} {t : TableId} (h : s.retire t = .ok s') :
    s'.tables = s.tables := by
  unfold retire at h
  simp only [bind, Except.bind, pure, Except.pure, throw, throwThe, MonadExceptOf.throw] at h
  split at h
  · cases h
  · split at h
    · cases h
    · cases h
      rfl

theorem precedes_of_performHook {s s' : Session K} {label : String} {steps : List (Step K)}
    (h : s.performHook label steps = .ok s') : s'.Precedes (s.push (.hook label steps)) := by
  unfold performHook at h
  split at h
  next answer hanswer =>
    cases h
    refine precedes_of_chores_lt (Nat.le_refl _) rfl rfl ?_
    simp [chores, push, emit, hanswer]
  next =>
    cases steps with
    | nil =>
      cases h
      exact precedes_of_chores_lt (by simp) rfl (by simp [Task.bucketsLeft])
        (by simp [Task.chores])
    | cons step steps =>
      left
      have hlt := work_lt_of_begin h
      simp only [work_push, Task.work, Step.totalWeight] at hlt ⊢
      omega

theorem precedes_of_performRelease {s s' : Session K} {elements : List ElementId}
    (h : s.performRelease elements = .ok s') : s'.Precedes (s.push (.release elements)) := by
  cases elements with
  | nil =>
    cases h
    exact precedes_of_chores_lt (by simp) rfl (by simp [Task.bucketsLeft]) (by simp [Task.chores])
  | cons e elements =>
    simp only [performRelease, Fault.bind_eq_ok_iff] at h
    obtain ⟨⟨result, _⟩, hact, h⟩ := h
    obtain ⟨store, -, rfl⟩ := act_eq_ok_iff.mp hact
    cases h
    refine precedes_of_chores_lt (Nat.le_trans (work_bury_le _ _ _) (by simp [Task.work])) (by simp)
      (by simp [Task.bucketsLeft]) (Nat.lt_of_le_of_lt (chores_bury_le _ _ _) ?_)
    simp only [chores_push, chores_adopt, Task.chores, List.length_cons]
    omega

theorem precedes_of_performDrop {s s' : Session K} {e : ElementId}
    (h : s.performDrop e = .ok s') : s'.Precedes (s.push (.drop e)) := by
  simp only [performDrop, Fault.bind_eq_ok_iff] at h
  obtain ⟨⟨result, _⟩, hact, h⟩ := h
  obtain ⟨store, -, rfl⟩ := act_eq_ok_iff.mp hact
  cases h
  refine precedes_of_chores_lt (Nat.le_trans (work_bury_le _ _ _) (by simp [Task.work])) (by simp)
    (by simp [Task.bucketsLeft]) (Nat.lt_of_le_of_lt (chores_bury_le _ _ _) ?_)
  simp only [chores_push, chores_adopt, Task.chores]
  omega

theorem precedes_of_performPut {s s' : Session K} {e : ElementId}
    (h : s.performPut e = .ok s') : s'.Precedes (s.push (.put e)) := by
  simp only [performPut, Fault.bind_eq_ok_iff] at h
  obtain ⟨⟨result, _⟩, hact, h⟩ := h
  obtain ⟨store, -, rfl⟩ := act_eq_ok_iff.mp hact
  cases h
  refine precedes_of_chores_lt (Nat.le_trans (work_bury_le _ _ _) (by simp [Task.work])) (by simp)
    (by simp [Task.bucketsLeft]) (Nat.lt_of_le_of_lt (chores_bury_le _ _ _) ?_)
  simp only [chores_push, chores_adopt, Task.chores]
  omega

theorem precedes_performKeep (s : Session K) (entries : List (String × ElementId)) :
    (s.performKeep entries).Precedes (s.push (.keep entries)) := by
  cases entries with
  | nil =>
    exact precedes_of_chores_lt (by simp [performKeep]) rfl
      (by simp [performKeep, Task.bucketsLeft]) (by simp [performKeep, Task.chores])
  | cons entry entries =>
    obtain ⟨name, e⟩ := entry
    have hsize := s.handles.size_insert name e
    have hchores : ∀ handles : Directory ElementId,
        { s with handles := handles }.chores + 4 * s.handles.size =
          s.chores + 4 * handles.size := by
      intro handles
      simp only [chores]
      omega
    rcases hinsert : s.handles.insert name e with ⟨replaced, handles⟩
    rw [hinsert] at hsize
    specialize hchores handles
    simp only [performKeep, hinsert]
    cases replaced with
    | none =>
      refine precedes_of_chores_lt (by simp [Task.work]) rfl (by simp [Task.bucketsLeft]; rfl) ?_
      simp only [Option.toList_none, List.length_nil] at hsize
      simp only [chores_push, Task.chores, List.length_cons]
      omega
    | some old =>
      refine precedes_of_chores_lt (by simp [Task.work]) rfl (by simp [Task.bucketsLeft]; rfl) ?_
      simp only [Option.toList_some, List.length_singleton] at hsize
      simp only [chores_push, Task.chores, List.length_cons]
      omega

theorem precedes_of_performFill {s s' : Session K} {t : TableId} {items : List (Item K)}
    {cut : Bool} {hook : List (Step K)} {results : List (Except Refusal Unit)}
    (h : s.performFill t items cut hook results = .ok s') :
    s'.Precedes (s.push (.fill t items cut hook results)) := by
  cases items with
  | nil =>
    cases h
    refine precedes_of_chores_lt (by simp) (by simp) (by simp [Task.bucketsLeft])
      (Nat.lt_of_le_of_lt (chores_reply_le _ _) ?_)
    simp only [chores_push, Task.chores]
    omega
  | cons item items =>
    simp only [performFill, Fault.bind_eq_ok_iff] at h
    obtain ⟨⟨result, _⟩, hact, h⟩ := h
    obtain ⟨store, -, rfl⟩ := act_eq_ok_iff.mp hact
    cases h
    left
    simp only [work_push, work_attach, work_adopt, Task.work, List.length_cons, Nat.add_mul]
    omega

theorem precedes_of_performTraverse {s s' : Session K} {t : TableId} {buckets : List Nat}
    {visited : Nat} {kept : List (String × ElementId)} {hold unhash : Selection K}
    {target : String}
    (h : s.performTraverse t buckets visited kept hold unhash target = .ok s') :
    s'.Precedes (s.push (.traverse t buckets visited kept hold unhash target)) := by
  cases buckets with
  | nil =>
    cases h
    refine precedes_of_chores_lt (by simp [Task.work]) rfl (by simp [Task.bucketsLeft]) ?_
    simp only [chores_push, Task.chores, List.length_reverse]
    omega
  | cons bucket buckets =>
    simp only [performTraverse, Fault.bind_eq_ok_iff] at h
    obtain ⟨⟨result, _⟩, hact, h⟩ := h
    obtain ⟨store, -, rfl⟩ := act_eq_ok_iff.mp hact
    cases h
    refine precedes_of_bucketsLeft_lt ?_ ?_ ?_
    · simp [Task.work,
        work_foldl_emit (fun visit : Visit (Item K) => .visited visit.value visit.hash)]
    · simp [tables_foldl_emit (fun visit : Visit (Item K) => .visited visit.value visit.hash)]
    · simp [Task.bucketsLeft,
        bucketsLeft_foldl_emit (fun visit : Visit (Item K) => .visited visit.value visit.hash)]

theorem precedes_of_performDrain {s s' : Session K} {t : TableId} {buckets : List Nat}
    {drained : Nat} (h : s.performDrain t buckets drained = .ok s') :
    s'.Precedes (s.push (.drain t buckets drained)) := by
  cases buckets with
  | nil =>
    cases h
    exact precedes_of_chores_lt (by simp) rfl (by simp [Task.bucketsLeft]) (by simp [Task.chores])
  | cons bucket buckets =>
    simp only [performDrain, Fault.bind_eq_ok_iff] at h
    obtain ⟨⟨result, _⟩, hact, h⟩ := h
    obtain ⟨store, -, rfl⟩ := act_eq_ok_iff.mp hact
    cases h
    exact precedes_of_bucketsLeft_lt (by simp [Task.work]) rfl (by simp [Task.bucketsLeft])

theorem precedes_of_performTeardown {s s' : Session K} (h : s.performTeardown = .ok s') :
    s'.Precedes (s.push .teardown) := by
  unfold performTeardown at h
  split at h
  next e handles htake =>
    have hsize := Directory.size_of_takeFirst? htake
    cases h
    refine precedes_of_chores_lt (by simp [Task.work]) rfl (by simp [Task.bucketsLeft]; rfl) ?_
    simp only [chores_push, Task.chores]
    simp only [chores]
    omega
  next =>
    split at h
    next t tables htake =>
      have hsize := Directory.size_of_takeFirst? htake
      right
      refine ⟨?_, .inl ?_⟩
      · rw [work_of_retire h]
        rfl
      · rw [tables_of_retire h]
        simp only [tables_push]
        omega
    next =>
      cases h
      exact precedes_of_chores_lt (by simp) rfl (by simp [Task.bucketsLeft])
        (by simp [Task.chores])

/-- Doing a bit of a task leads down. -/
theorem precedes_of_perform {s s' : Session K} {task : Task K} (h : s.perform task = .ok s') :
    s'.Precedes (s.push task) := by
  cases task with
  | hook label steps => exact precedes_of_performHook h
  | release elements => exact precedes_of_performRelease h
  | drop e => exact precedes_of_performDrop h
  | put e => exact precedes_of_performPut h
  | keep entries =>
    cases h
    exact precedes_performKeep s entries
  | fill t items cut hook results => exact precedes_of_performFill h
  | traverse t buckets visited kept hold unhash target => exact precedes_of_performTraverse h
  | drain t buckets drained => exact precedes_of_performDrain h
  | answer answer =>
    cases h
    refine precedes_of_chores_lt (by simp) rfl (by simp [Task.bucketsLeft])
      (Nat.lt_of_le_of_lt (chores_reply_le _ _) ?_)
    simp only [chores_push, Task.chores]
    omega
  | teardown => exact precedes_of_performTeardown h

end Session

end HashIndex.Script
