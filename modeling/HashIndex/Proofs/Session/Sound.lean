import HashIndex.Proofs.Call.Permitted
import HashIndex.Proofs.Session.Directory
import HashIndex.Script.Task

/-!
# Sound sessions

In a session every reference outside the tables is in somebody's custody: it is a handle that has a
name or that a task is busy with, or a reference that a table had and that a task is to put. A
session is sound if its store agrees with a ledger that counts exactly these references, and if
nothing refers to a table that is gone. A table that is being drained has no name, nobody else works
on it, and what is left of it is in the buckets that are still to be drained.

## Main definitions

* `Task.handles`, `Task.pending`: the references in the custody of a task.
* `Session.handleList`, `Session.pendingList`: those in the custody of a session.
* `Session.Sound`: the invariant.
* `Session.Ready`: what it takes to add a task.

## Main statements

* `Session.Ready.push`, `Session.Sound.pop`: tasks come and go.
* `Session.Sound.call`: a call on the store.
-/

namespace HashIndex.Script

variable {K : Type}

def Task.handles : Task K → List ElementId
  | .drop e | .put e => [e]
  | .keep entries => entries.map Prod.snd
  | .traverse _ _ _ kept _ _ _ => kept.map Prod.snd
  | _ => []

/-- The references that tables had to elements, and that a task is to put. -/
def Task.pending : Task K → List ElementId
  | .release elements => elements
  | _ => []

/-- The table that a task works on is there, and it has the buckets that the task is to work on. -/
def Task.Fits (l : Ledger (Item K) K) : Task K → Prop
  | .fill t _ _ _ _ => ∃ r, l.roster? t = some r
  | .traverse t buckets _ _ _ _ _ | .drain t buckets _ =>
    ∃ r, l.roster? t = some r ∧ ∀ i ∈ buckets, i < r.capacity.size
  | _ => True

theorem Task.Fits.of_effect {l l' : Ledger (Item K) K} {task : Task K} {c : Call (Item K) K}
    {reply : Reply (Item K)} (hfits : task.Fits l) (h : l.Effect c reply l')
    (hfree : ∀ t, c = .freeTable t → task.uses t = false) : task.Fits l' := by
  have hlasts : ∀ t r, l.roster? t = some r → task.uses t = true → ∃ r', l'.roster? t = some r' ∧
      r'.capacity = r.capacity := by
    intro t r hr huses
    obtain ⟨hfreed, -⟩ | ⟨r', hr', -, hcapacity, -⟩ := h.exists_roster hr
    · rw [hfree t hfreed] at huses
      cases huses
    · exact ⟨r', hr', hcapacity⟩
  cases task with
  | fill t =>
    obtain ⟨r, hr⟩ := hfits
    obtain ⟨r', hr', -⟩ := hlasts t r hr (by simp [Task.uses])
    exact ⟨r', hr'⟩
  | traverse t | drain t =>
    obtain ⟨r, hr, hbuckets⟩ := hfits
    obtain ⟨r', hr', hcapacity⟩ := hlasts t r hr (by simp [Task.uses])
    exact ⟨r', hr', fun i hi => hcapacity ▸ hbuckets i hi⟩
  | _ => trivial

namespace Session

variable {s s' : Session K} {l l' : Ledger (Item K) K} {task : Task K} {tasks : List (Task K)}
  {inHand rest : List ElementId} {t : TableId}

/-- The handles: those that have a name, and those that tasks are busy with. -/
def handleList (s : Session K) : List ElementId :=
  s.handles.values ++ s.tasks.flatMap Task.handles

/-- The references that tables had to elements, and that are still to be put. -/
def pendingList (s : Session K) : List ElementId := s.tasks.flatMap Task.pending

def Calm (s : Session K) (t : TableId) : Prop := ∀ buckets n, Task.drain t buckets n ∉ s.tasks

/-- A table can be drained: it has no name, and all its elements are in buckets to be drained. -/
structure Closed (s : Session K) (l : Ledger (Item K) K) (t : TableId) (buckets : List Nat) :
    Prop where
  unnamed : t ∉ s.tables.values
  covered : ∀ r, l.roster? t = some r → ∀ entry ∈ r.entries, r.slot entry.2 ∈ buckets

/-- Every reference is in custody, either of the session or of whoever is at work on it at the
moment, and nothing is used that is not there. -/
structure Sound (s : Session K) (l : Ledger (Item K) K) (inHand : List ElementId) : Prop where
  agrees : s.store.Agrees l
  idle : s.store.locks = []
  settled : s.store.journal = []
  kept : l.Kept
  custody : ∀ e, l.references e =
    s.handleList.count e + s.pendingList.count e + inHand.count e
  inOrder : s.handles.InOrder
  tablesInOrder : s.tables.InOrder
  named : ∀ t ∈ s.tables.values, ∃ r, l.roster? t = some r
  distinct : s.tables.values.Nodup
  fits : ∀ task ∈ s.tasks, task.Fits l
  drained : ∀ t buckets n, Task.drain t buckets n ∈ s.tasks →
    s.Closed l t buckets ∧ s.tasks.countP (Task.uses t) ≤ 1

theorem Sound.congr (hs : s.Sound l inHand) (hstore : s'.store = s.store)
    (hhandles : s'.handles = s.handles) (htables : s'.tables = s.tables)
    (htasks : s'.tasks = s.tasks) : s'.Sound l inHand := by
  have hhandleList : s'.handleList = s.handleList := by simp only [handleList, hhandles, htasks]
  have hpendingList : s'.pendingList = s.pendingList := by simp only [pendingList, htasks]
  refine ⟨hstore ▸ hs.agrees, hstore ▸ hs.idle, hstore ▸ hs.settled, hs.kept, ?_,
    hhandles ▸ hs.inOrder, htables ▸ hs.tablesInOrder, htables ▸ hs.named, htables ▸ hs.distinct,
    htasks ▸ hs.fits, ?_⟩
  · rw [hhandleList, hpendingList]
    exact hs.custody
  · rw [htasks]
    intro t buckets n hmem
    obtain ⟨⟨hunnamed, hcovered⟩, hcount⟩ := hs.drained t buckets n hmem
    exact ⟨⟨htables ▸ hunnamed, hcovered⟩, hcount⟩

theorem Sound.perm (hs : s.Sound l inHand) (hperm : inHand.Perm rest) : s.Sound l rest :=
  { hs with custody := fun e => by rw [hs.custody e, hperm.count_eq] }

theorem sound_initial : (initial : Session K).Sound Ledger.empty [] where
  agrees := Store.agrees_empty
  idle := rfl
  settled := rfl
  kept := by
    intro e a ha
    simp [Ledger.account?, Ledger.empty] at ha
  custody := fun _ => rfl
  inOrder := Directory.inOrder_empty
  tablesInOrder := Directory.inOrder_empty
  named := by simp [initial, Directory.empty, Directory.values]
  distinct := List.nodup_nil
  fits := by simp [initial]
  drained := by simp [initial]

/-! ## Tasks -/

/-- A task can be added: what is to be in its custody is at hand, and nobody else drains the table
that it works on. -/
structure Ready (s : Session K) (l : Ledger (Item K) K) (task : Task K)
    (inHand : List ElementId) : Prop where
  sound : s.Sound l (task.handles ++ task.pending ++ inHand)
  fits : task.Fits l
  calm : ∀ t, task.uses t = true → s.Calm t
  closed : ∀ t buckets n, task = .drain t buckets n →
    s.Closed l t buckets ∧ s.tasks.any (Task.uses t) = false

/-- A task takes over what is in hand. -/
theorem Ready.push (h : s.Ready l task inHand) : (s.push task).Sound l inHand := by
  have hs := h.sound
  refine ⟨hs.agrees, hs.idle, hs.settled, hs.kept, ?_, hs.inOrder, hs.tablesInOrder, hs.named,
    hs.distinct, ?_, ?_⟩
  · intro e
    have hcustody := hs.custody e
    simp only [handleList, pendingList, Session.push, List.flatMap_cons, List.count_append]
      at hcustody ⊢
    omega
  · intro task' hmem
    rcases List.mem_cons.mp hmem with rfl | hmem
    · exact h.fits
    · exact hs.fits task' hmem
  · intro t buckets n hmem
    rcases List.mem_cons.mp hmem with heq | hmem
    · obtain ⟨hclosed, hunused⟩ := h.closed t buckets n heq.symm
      refine ⟨⟨hclosed.unnamed, hclosed.covered⟩, ?_⟩
      have hnone : s.tasks.countP (Task.uses t) = 0 := by
        simpa [List.countP_eq_zero] using hunused
      rw [Session.push, List.countP_cons, hnone]
      split <;> omega
    · obtain ⟨hclosed, hcount⟩ := hs.drained t buckets n hmem
      refine ⟨⟨hclosed.unnamed, hclosed.covered⟩, ?_⟩
      have huses : task.uses t = false := by
        by_contra huses
        exact h.calm t (by simpa using huses) buckets n hmem
      rw [Session.push, List.countP_cons, if_neg (by simp [huses])]
      exact hcount

/-- A task that works on no table can always be added. -/
theorem Sound.push_plain (task : Task K)
    (hs : s.Sound l (task.handles ++ task.pending ++ inHand))
    (hplain : ∀ t, task.uses t = false) : (s.push task).Sound l inHand := by
  refine Ready.push ⟨hs, ?_, ?_, ?_⟩
  · cases task with
    | fill t | traverse t | drain t =>
      have huses := hplain t
      simp [Task.uses] at huses
    | _ => trivial
  · intro t huses
    rw [hplain t] at huses
    cases huses
  · rintro t buckets n rfl
    have huses := hplain t
    simp [Task.uses] at huses

/-- What was in the custody of a task is in hand when the task is worked on. -/
theorem Sound.pop (hs : s.Sound l inHand) (htasks : s.tasks = task :: tasks) :
    Ready { s with tasks := tasks } l task inHand := by
  have hsub : ∀ task' ∈ tasks, task' ∈ s.tasks := fun task' h => htasks ▸ List.mem_cons_of_mem _ h
  have huses : ∀ t buckets n, Task.drain t buckets n ∈ tasks → task.uses t = false ∧
      tasks.countP (Task.uses t) ≤ 1 := by
    intro t buckets n hmem
    have hcount := (hs.drained t buckets n (hsub _ hmem)).2
    have hone : 0 < tasks.countP (Task.uses t) :=
      List.countP_pos_iff.mpr ⟨_, hmem, by simp [Task.uses]⟩
    rw [htasks, List.countP_cons] at hcount
    split at hcount
    · omega
    next hfalse => exact ⟨by simpa using hfalse, hcount⟩
  refine ⟨⟨hs.agrees, hs.idle, hs.settled, hs.kept, ?_, hs.inOrder, hs.tablesInOrder, hs.named,
    hs.distinct, fun task' hmem => hs.fits task' (hsub task' hmem), ?_⟩,
    hs.fits task (by simp [htasks]), ?_, ?_⟩
  · intro e
    have hcustody := hs.custody e
    simp only [handleList, pendingList, htasks, List.flatMap_cons, List.count_append]
      at hcustody ⊢
    omega
  · intro t buckets n hmem
    obtain ⟨hclosed, -⟩ := hs.drained t buckets n (hsub _ hmem)
    exact ⟨⟨hclosed.unnamed, hclosed.covered⟩, (huses t buckets n hmem).2⟩
  · intro t htask buckets n hmem
    rw [(huses t buckets n hmem).1] at htask
    cases htask
  · rintro t buckets n rfl
    obtain ⟨hclosed, hcount⟩ := hs.drained t buckets n (by simp [htasks])
    refine ⟨⟨hclosed.unnamed, hclosed.covered⟩, ?_⟩
    rw [htasks, List.countP_cons, if_pos (by simp [Task.uses])] at hcount
    rw [List.any_eq_false]
    intro task' hmem huses'
    have hpos : 0 < tasks.countP (Task.uses t) := List.countP_pos_iff.mpr ⟨task', hmem, huses'⟩
    omega

/-! ## Names -/

theorem Sound.rename (hs : s.Sound l inHand) {handles : Directory ElementId}
    (hperm : (s.handles.values ++ inHand).Perm (handles.values ++ rest))
    (hinOrder : handles.InOrder) : Sound { s with handles := handles } l rest := by
  refine { hs with custody := fun e => ?_, inOrder := hinOrder, drained := fun t buckets n h => ?_ }
  · have hcustody := hs.custody e
    have hcount := hperm.count_eq e
    simp only [handleList, pendingList, List.count_append] at hcustody hcount ⊢
    omega
  · obtain ⟨hclosed, hcount⟩ := hs.drained t buckets n h
    exact ⟨⟨hclosed.unnamed, hclosed.covered⟩, hcount⟩

theorem Sound.renameTables (hs : s.Sound l inHand) {tables : Directory TableId}
    (hinOrder : tables.InOrder) (hdistinct : tables.values.Nodup)
    (hnamed : ∀ t ∈ tables.values, ∃ r, l.roster? t = some r)
    (hcalm : ∀ t ∈ tables.values, s.Calm t) : Sound { s with tables := tables } l inHand := by
  refine { hs with
    tablesInOrder := hinOrder
    named := hnamed
    distinct := hdistinct
    drained := fun t buckets n h => ?_ }
  obtain ⟨hclosed, hcount⟩ := hs.drained t buckets n h
  exact ⟨⟨fun hmem => hcalm t hmem buckets n h, hclosed.covered⟩, hcount⟩

theorem Sound.calm_of_named (hs : s.Sound l inHand) (ht : t ∈ s.tables.values) : s.Calm t :=
  fun buckets n hmem => (hs.drained t buckets n hmem).1.unnamed ht

/-! ## Calls -/

/-- A call on the store, with a reference that the caller has, and on a table that nobody drains. -/
theorem Sound.call (hs : s.Sound l inHand) {c : Call (Item K) K} {reply : Reply (Item K)}
    {store : Store (Item K) K} (rest : List ElementId) (hcall : l.call c = some (reply, l'))
    (hstore : s.store.call c = .ok (reply, store))
    (hperm : inHand.Perm (c.returned ++ rest)) (hfree : ∀ t, c ≠ .freeTable t)
    (hcalm : ∀ t e key, c = .hash t e key → s.Calm t) :
    Sound { s with store := store } l' (c.handed reply ++ rest) := by
  obtain ⟨store', hok, hagrees, hidle⟩ := hs.agrees.call hs.idle hcall
  obtain ⟨-, rfl⟩ := Prod.mk.inj (Except.ok.inj (hstore.symm.trans hok))
  have heffect := Ledger.effect_of_call hs.agrees.covered hcall
  refine ⟨hagrees, hidle, Store.journal_of_call hok, heffect.kept hs.kept, ?_, hs.inOrder,
    hs.tablesInOrder, ?_, hs.distinct, ?_, ?_⟩
  · intro e
    have hreferences := heffect.references e
    have hcustody := hs.custody e
    have hcount := hperm.count_eq e
    simp only [handleList, pendingList, List.count_append] at hcustody hcount ⊢
    omega
  · intro t ht
    obtain ⟨r, hr⟩ := hs.named t ht
    obtain ⟨hfreed, -⟩ | ⟨r', hr', -⟩ := heffect.exists_roster hr
    · exact absurd hfreed (hfree t)
    · exact ⟨r', hr'⟩
  · exact fun task hmem => (hs.fits task hmem).of_effect heffect fun t hfreed =>
      absurd hfreed (hfree t)
  · intro t buckets n hmem
    obtain ⟨hclosed, hcount⟩ := hs.drained t buckets n hmem
    refine ⟨⟨hclosed.unnamed, fun r' hr' entry hentry => ?_⟩, hcount⟩
    -- nothing comes to a table that is being drained
    obtain ⟨r, gone, hr, hthins, -⟩ | ⟨strategy, capacity, -, -, hnone, -⟩ |
      ⟨e, key, r, a, rfl, -⟩ := heffect.roster hr'
    · have hslot : r'.slot entry.2 = r.slot entry.2 := by
        simp only [Roster.slot, hthins.capacity]
      rw [hslot]
      exact hclosed.covered r hr entry (hthins.sublist.subset hentry)
    · obtain ⟨r, hr, -⟩ := hs.fits _ hmem
      rw [hnone] at hr
      cases hr
    · exact absurd hmem (hcalm t e key rfl buckets n)

/-- A call that is permitted has an answer. -/
theorem Sound.exists_call (hs : s.Sound l inHand) {c : Call (Item K) K} (rest : List ElementId)
    (hpermits : l.Permits c) (hperm : inHand.Perm (c.returned ++ rest))
    (hfree : ∀ t, c ≠ .freeTable t) (hcalm : ∀ t e key, c = .hash t e key → s.Calm t) :
    ∃ reply l' store, l.call c = some (reply, l') ∧ s.store.call c = .ok (reply, store) ∧
      Sound { s with store := store } l' (c.handed reply ++ rest) := by
  obtain ⟨reply, l', hcall⟩ := Ledger.exists_call hs.agrees.covered hpermits
  obtain ⟨store, hstore, -⟩ := hs.agrees.call hs.idle hcall
  exact ⟨reply, l', store, hcall, hstore, hs.call rest hcall hstore hperm hfree hcalm⟩

end Session

end HashIndex.Script
