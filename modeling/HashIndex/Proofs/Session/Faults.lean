import HashIndex.Proofs.Session.Bucket

/-!
# When a session faults

A table cannot be dropped while somebody works on it, and the only way to try is to let a hook do so
while an outer step is at work on the table. Nothing else goes wrong: every other step that is begun
has an outcome, and so has every bit of a task. Tasks therefore come to an end, unless it is a
conflict of this kind that they come to.

## Main definitions

* `Session.InUse`: a task works on a table.
* `Session.Drops`, `Session.DropsNext`: a step, or the next bit of a task, drops a table.
* `Session.Conflict`: the most urgent task is to drop a table that a task below works on.

## Main statements

* `Session.Reachable.begin_eq_error_iff`, `Session.Reachable.perform_eq_error_iff`: to fault is to
  drop a table that is in use.
* `Session.Reachable.ends_or_conflict`: tasks come to an end or to a conflict.
-/

namespace HashIndex.Script.Session

variable {K : Type} {s s' s₁ : Session K} {l : Ledger (Item K) K} {inHand : List ElementId}
  {c : Call (Item K) K} {e : ElementId} {t : TableId} {task : Task K} {tasks base : List (Task K)}
  {step : Step K} {calls : List (Call (Item K) K)} {fault : Fault}

def InUse (s : Session K) (t : TableId) : Prop := s.tasks.any (Task.uses t) = true

/-- A step drops a table: the one that it names, or the one whose name it gives to another. -/
def Drops (s : Session K) : Step K → TableId → Prop
  | .table name _ _, t | .dropTable name, t => s.tables.find? name = some t
  | _, _ => False

/-- The next bit of a task drops a table. -/
def DropsNext (s : Session K) : Task K → TableId → Prop
  | .hook _ (step :: _), t => s.answer = none ∧ s.Drops step t
  | .teardown, t => s.handles.takeFirst? = none ∧ ∃ tables, s.tables.takeFirst? = some (t, tables)
  | _, _ => False

/-- The most urgent task is to drop a table that a task below it works on. -/
def Conflict (s : Session K) : Prop :=
  ∃ task tasks t, s.tasks = task :: tasks ∧ s.DropsNext task t ∧ tasks.any (Task.uses t) = true

theorem drops_push : (s.push task).Drops step t ↔ s.Drops step t := by
  cases step <;> exact Iff.rfl

theorem dropsNext_pop : DropsNext { s with tasks := tasks } task t ↔ s.DropsNext task t := by
  rcases task with ⟨label, _ | ⟨step, steps⟩⟩ | _ | _ | _ | _ | _ | _ | _ | _ | _
  case hook.cons => cases step <;> exact Iff.rfl
  all_goals exact Iff.rfl

theorem inUse_push (hplain : task.uses t = false) : (s.push task).InUse t ↔ s.InUse t := by
  simp [InUse, push, hplain]

theorem retire_of_inUse (h : s.InUse t) : s.retire t = .error .tableInUse := by
  unfold InUse at h
  simp only [Session.retire, h, if_true]
  rfl

theorem retire_eq {table : Table (Item K) K} (h : ¬s.InUse t)
    (ht : s.store.table? t = some table) :
    s.retire t = .ok (s.push (.drain t (List.range table.buckets.size) 0)) := by
  unfold InUse at h
  simp only [Session.retire, h, Bool.false_eq_true, if_false, Store.bucketRange_eq ht,
    Fault.ok_bind, Fault.pure_eq_ok]

/-! ## Steps that have an outcome -/

theorem exists_withHandle {name : String} {next : ElementId → Except Fault (Session K)}
    (hnext : ∀ e, s.handles.find? name = some e → ∃ s', next e = .ok s') :
    ∃ s', s.withHandle name next = .ok s' := by
  unfold withHandle
  cases hfind : s.handles.find? name with
  | none => exact ⟨_, rfl⟩
  | some e => exact hnext e hfind

theorem exists_takeHandle {name : String}
    {next : ElementId → Session K → Except Fault (Session K)}
    (hnext : ∀ e handles, ∃ s', next e { s with handles := handles } = .ok s') :
    ∃ s', s.takeHandle name next = .ok s' := by
  unfold takeHandle
  cases s.handles.take? name with
  | none => exact ⟨_, rfl⟩
  | some taken => exact hnext taken.1 taken.2

theorem exists_withTable {name : String} {next : TableId → Except Fault (Session K)}
    (hnext : ∀ t, s.tables.find? name = some t → ∃ s', next t = .ok s') :
    ∃ s', s.withTable name next = .ok s' := by
  unfold withTable
  cases hfind : s.tables.find? name with
  | none => exact ⟨_, rfl⟩
  | some t => exact hnext t hfind

theorem exists_act {α : Type} {action : Store (Item K) K → Except Fault (α × Store (Item K) K)}
    {next : α × Session K → Except Fault (Session K)} (result : α) (store : Store (Item K) K)
    (haction : action s.store = .ok (result, store))
    (hnext : ∃ s', next (result, s.adopt store) = .ok s') :
    ∃ s', s.act action >>= next = .ok s' := by
  rw [act_eq result store haction, Fault.ok_bind]
  exact hnext

theorem Sound.exists_answer (hs : s.Sound l inHand) (hpermits : l.Permits c) :
    ∃ reply store, s.store.call c = .ok (reply, store) := by
  obtain ⟨reply, l', hcall⟩ := Ledger.exists_call hs.agrees.covered hpermits
  obtain ⟨store, hok, -⟩ := hs.agrees.call hs.idle hcall
  exact ⟨reply, store, hok⟩

theorem Sound.exists_table_of_find? (hs : s.Sound l inHand) {name : String}
    (hfind : s.tables.find? name = some t) : ∃ table, s.store.table? t = some table := by
  obtain ⟨-, r, hr⟩ := hs.named_of_find? hfind
  obtain ⟨table, ht, -⟩ := hs.agrees.exists_table hr
  exact ⟨table, ht⟩

theorem Sound.exists_element_of_find? (hs : s.Sound l inHand) {name : String}
    (hfind : s.handles.find? name = some e) : ∃ x, s.store.heap.get? e = some x := by
  obtain ⟨a, ha⟩ := hs.held_of_find? hfind
  exact hs.exists_element ha

theorem Sound.exists_beginTable (hs : s.Sound l []) (name : String)
    (strategy : Strategy (Item K) K) (capacity : Capacity)
    (hfree : ∀ t, s.tables.find? name = some t → ¬s.InUse t) :
    ∃ s', s.beginTable name strategy capacity = .ok s' := by
  obtain ⟨hname, hagrees, -⟩ := hs.agrees.createTable strategy capacity
  obtain ⟨hnone, hroster⟩ := l.roster?_createTable strategy capacity
  obtain ⟨table, htable, -⟩ := hagrees.exists_table ((hroster _).trans (if_pos rfl))
  refine exists_act ((l.createTable strategy capacity).1, ⟨table.buckets.size, table.entries⟩)
    (s.store.createTable strategy capacity).2 ?_ ?_
  · simp only [hname, statOf, Store.table_eq htable, Fault.ok_bind, Fault.pure_eq_ok]
  · have hreplaced := hs.tablesInOrder.fst_insert name (l.createTable strategy capacity).1
    dsimp only [Session.adopt]
    cases hfind : s.tables.find? name with
    | none =>
      rw [hreplaced, hfind]
      exact ⟨_, rfl⟩
    | some old =>
      rw [hreplaced, hfind]
      -- the table that is replaced was there before the new one
      obtain ⟨-, r, hr⟩ := hs.named_of_find? hfind
      have hne : old ≠ (l.createTable strategy capacity).1 := by
        rintro rfl
        rw [hnone] at hr
        cases hr
      obtain ⟨oldTable, hold, -⟩ :=
        hagrees.exists_table ((hroster old).trans ((if_neg hne).trans hr))
      exact ⟨_, retire_eq (by simpa [InUse, Task.uses, push] using hfree old hfind) hold⟩

theorem exists_beginCreate (name : String) (item : Item K) (hook : List (Step K)) :
    ∃ s', s.beginCreate name item hook = .ok s' := by
  have hfresh : (s.store.create item).2.heap.get? (s.store.create item).1 = some (.fresh item) :=
    Heap.get?_allocate_self s.store.heap item
  refine exists_act ((s.store.create item).1, ⟨item, 1, false⟩) (s.store.create item).2 ?_
    ⟨_, rfl⟩
  simp only [describe_eq hfresh, Fault.ok_bind, Fault.pure_eq_ok, Element.fresh, Element.isHashed]

theorem Sound.exists_beginHold (hs : s.Sound l []) (name target : String) :
    ∃ s', s.beginHold name target = .ok s' := by
  refine exists_withHandle fun e hfind => ?_
  obtain ⟨x, hx⟩ := hs.exists_element_of_find? hfind
  set y : Element (Item K) := { x with count := x.count + 1 } with hy
  set store : Store (Item K) K := { s.store with heap := s.store.heap.write e y } with hstore
  have hhold : s.store.hold e = .ok store := Store.updateElement_eq hx _
  have hget : store.heap.get? e = some y := (Heap.get?_write hx y e).trans (if_pos rfl)
  refine exists_act ⟨y.value, y.count, y.isHashed⟩ store ?_ ⟨_, rfl⟩
  simp only [hhold, describe_eq hget, Fault.ok_bind, Fault.pure_eq_ok]

theorem Sound.exists_beginHash (hs : s.Sound l []) (table name : String) (key : Option K) :
    ∃ s', s.beginHash table name key = .ok s' := by
  refine exists_withTable fun t ht => exists_withHandle fun e hfind => ?_
  obtain ⟨x, hx⟩ := hs.exists_element_of_find? hfind
  obtain ⟨reply, store, hcall⟩ := hs.exists_answer (c := .hash t e (key.getD x.value.key))
    ⟨(hs.named_of_find? ht).2, hs.held_of_find? hfind⟩
  obtain ⟨⟨result, store⟩, hok, -⟩ := Fault.bind_eq_ok_iff.mp hcall
  refine exists_act result store ?_ ⟨_, rfl⟩
  simp only [Heap.read_eq hx, hok, Fault.ok_bind]

theorem Sound.exists_beginUnhash (hs : s.Sound l []) (table name : String) :
    ∃ s', s.beginUnhash table name = .ok s' := by
  refine exists_withTable fun t ht => exists_withHandle fun e hfind => ?_
  obtain ⟨reply, store, hcall⟩ := hs.exists_answer (c := .unhash t e)
    ⟨(hs.named_of_find? ht).2, hs.held_of_find? hfind⟩
  obtain ⟨⟨result, store⟩, hok, -⟩ := Fault.bind_eq_ok_iff.mp hcall
  refine exists_act _ _ hok ?_
  cases result <;> exact ⟨_, rfl⟩

/-- A lookup has a result, and what it finds it hands over with a reference of its own. -/
theorem Sound.exists_lookup (hs : s.Sound l []) {name : String}
    (hfind : s.tables.find? name = some t) (key : K) :
    ∃ result store, s.store.lookup t key = .ok (result, store) ∧
      ∀ e, result = .ok e → ∃ l', (s.adopt store).Sound l' [e] := by
  obtain ⟨reply, l', store, -, hstore, hs₁⟩ := hs.exists_call (c := .lookup t key) []
    (hs.named_of_find? hfind).2 (.refl _) (by simp) (by simp)
  obtain ⟨⟨result, store⟩, hok, hstore⟩ := Fault.bind_eq_ok_iff.mp hstore
  obtain ⟨rfl, rfl⟩ := Prod.mk.inj (Fault.pure_eq_ok_iff.mp hstore)
  refine ⟨result, store, hok, ?_⟩
  rintro e rfl
  exact ⟨l', hs₁.adopt⟩

theorem Sound.exists_beginLookup (hs : s.Sound l []) (table : String) (key : K)
    (target : Option String) : ∃ s', s.beginLookup table key target = .ok s' := by
  refine exists_withTable fun t ht => ?_
  obtain ⟨result, store, hok, hfound⟩ := hs.exists_lookup ht key
  refine exists_act _ _ hok ?_
  cases result with
  | error => exact ⟨_, rfl⟩
  | ok e =>
    obtain ⟨l', hs₁⟩ := hfound e rfl
    obtain ⟨a, ha⟩ := hs₁.held (.inr (.inr (List.mem_singleton_self e)))
    obtain ⟨x, hx⟩ := hs₁.exists_element ha
    dsimp only
    rw [describe_eq hx, Fault.ok_bind]
    cases target <;> exact ⟨_, rfl⟩

theorem Sound.exists_beginRemove (hs : s.Sound l []) (table : String) (key : K) :
    ∃ s', s.beginRemove table key = .ok s' := by
  refine exists_withTable fun t ht => ?_
  obtain ⟨result, store, hok, hfound⟩ := hs.exists_lookup ht key
  refine exists_act _ _ hok ?_
  cases result with
  | error => exact ⟨_, rfl⟩
  | ok e =>
    obtain ⟨l', hs₁⟩ := hfound e rfl
    obtain ⟨a, ha⟩ := hs₁.held (.inr (.inr (List.mem_singleton_self e)))
    obtain ⟨reply, store', hcall⟩ := hs₁.exists_answer (c := .unhash t e)
      ⟨hs₁.named t (hs.named_of_find? ht).1, a, ha⟩
    obtain ⟨⟨result, store'⟩, hok', -⟩ := Fault.bind_eq_ok_iff.mp hcall
    refine exists_act _ _ hok' ?_
    cases result <;> exact ⟨_, rfl⟩

theorem Sound.exists_beginTraverse (hs : s.Sound l []) (table : String) (hold unhash : Selection K)
    (target : String) : ∃ s', s.beginTraverse table hold unhash target = .ok s' := by
  refine exists_withTable fun t ht => ?_
  obtain ⟨-, r, hr⟩ := hs.named_of_find? ht
  exact ⟨_, by rw [hs.agrees.bucketRange hr, Fault.ok_bind, Fault.pure_eq_ok]⟩

theorem Sound.exists_beginSurvey (hs : s.Sound l []) (table : String) (hold : Selection K)
    (target : String) : ∃ s', s.beginSurvey table hold target = .ok s' := by
  refine exists_withTable fun t ht => ?_
  obtain ⟨reply, store, hcall⟩ := hs.exists_answer (c := .survey t hold) (hs.named_of_find? ht).2
  obtain ⟨buckets, hbuckets, hcall⟩ := Fault.bind_eq_ok_iff.mp hcall
  obtain ⟨⟨visits, store⟩, hok, -⟩ := Fault.bind_eq_ok_iff.mp hcall
  rw [hbuckets, Fault.ok_bind]
  exact exists_act _ _ hok ⟨_, rfl⟩

theorem Sound.exists_beginChains (hs : s.Sound l []) (table : String) :
    ∃ s', s.beginChains table = .ok s' := by
  refine exists_withTable fun t ht => ?_
  obtain ⟨reply, l', store, hcall, hstore, hs₁⟩ := hs.exists_call (c := .lengths t) []
    (hs.named_of_find? ht).2 (.refl _) (by simp) (by simp)
  obtain ⟨buckets, hbuckets, hstore⟩ := Fault.bind_eq_ok_iff.mp hstore
  obtain ⟨⟨lengths, store⟩, hok, hstore⟩ := Fault.bind_eq_ok_iff.mp hstore
  obtain ⟨rfl, rfl⟩ := Prod.mk.inj (Fault.pure_eq_ok_iff.mp hstore)
  obtain ⟨reply, store', hcall'⟩ := hs₁.adopt.exists_answer (c := .survey t fun _ _ => false)
    (hs₁.named t (hs.named_of_find? ht).1)
  obtain ⟨buckets', hbuckets', hcall'⟩ := Fault.bind_eq_ok_iff.mp hcall'
  obtain ⟨⟨visits, store'⟩, hok', -⟩ := Fault.bind_eq_ok_iff.mp hcall'
  -- the survey goes over the buckets that were counted
  obtain rfl : buckets' = buckets := by
    obtain ⟨-, r, hr⟩ := hs.named_of_find? ht
    have hrange := (hs.agrees.bucketRange hr).symm.trans hbuckets
    have hrange' := (hs₁.adopt.agrees.bucketRange (Ledger.eq_of_lengths hcall ▸ hr)).symm.trans
      hbuckets'
    exact Except.ok.inj (hrange'.symm.trans hrange)
  rw [hbuckets, Fault.ok_bind]
  exact exists_act _ _ hok (exists_act _ _ hok' ⟨_, rfl⟩)

theorem Sound.exists_beginDropTable (hs : s.Sound l []) (name : String)
    (hfree : ∀ t, s.tables.find? name = some t → ¬s.InUse t) :
    ∃ s', s.beginDropTable name = .ok s' := by
  unfold Session.beginDropTable
  cases htake : s.tables.take? name with
  | none => exact ⟨s.complain .noSuchTable, rfl⟩
  | some taken =>
    obtain ⟨t, hfind, rfl⟩ := Option.map_eq_some_iff.mp htake
    obtain ⟨table, ht⟩ := hs.exists_table_of_find? hfind
    exact ⟨_, retire_eq (by simpa [InUse, Task.uses, push] using hfree t hfind) ht⟩

/-- A step has an outcome, unless it drops a table that is in use. -/
theorem Sound.exists_begin (hs : s.Sound l []) (hfree : ∀ t, s.Drops step t → ¬s.InUse t) :
    ∃ s', s.begin step = .ok s' := by
  cases step with
  | malformed needs complaint => exact ⟨_, rfl⟩
  | table name strategy capacity => exact hs.exists_beginTable name strategy capacity hfree
  | create name item hook => exact exists_beginCreate name item hook
  | hold name target => exact hs.exists_beginHold name target
  | put name | drop name =>
    simp only [Session.begin]
    exact exists_takeHandle fun e handles => ⟨_, rfl⟩
  | info name =>
    refine exists_withHandle fun e hfind => ?_
    obtain ⟨x, hx⟩ := hs.exists_element_of_find? hfind
    exact ⟨_, by rw [describe_eq hx, Fault.ok_bind, Fault.pure_eq_ok]⟩
  | same name other => exact exists_withHandle fun e _ => exists_withHandle fun f _ => ⟨_, rfl⟩
  | hash table name key => exact hs.exists_beginHash table name key
  | unhash table name => exact hs.exists_beginUnhash table name
  | lookup table key target => exact hs.exists_beginLookup table key target
  | remove table key => exact hs.exists_beginRemove table key
  | fill table items cut hook => exact exists_withTable fun t _ => ⟨_, rfl⟩
  | traverse table hold unhash target => exact hs.exists_beginTraverse table hold unhash target
  | survey table hold target => exact hs.exists_beginSurvey table hold target
  | chains table => exact hs.exists_beginChains table
  | stat table =>
    refine exists_withTable fun t ht => ?_
    obtain ⟨table, ht⟩ := hs.exists_table_of_find? ht
    exact ⟨_, by rw [statOf, Store.table_eq ht, Fault.ok_bind, Fault.pure_eq_ok, Fault.ok_bind,
      Fault.pure_eq_ok]⟩
  | showHandle name long =>
    refine exists_withHandle fun e hfind => ?_
    obtain ⟨x, hx⟩ := hs.exists_element_of_find? hfind
    exact ⟨_, by rw [showElement, Heap.read_eq hx, Fault.ok_bind, Fault.pure_eq_ok, Fault.ok_bind,
      Fault.pure_eq_ok]⟩
  | showTable table long =>
    refine exists_withTable fun t ht => ?_
    obtain ⟨table, ht⟩ := hs.exists_table_of_find? ht
    exact ⟨_, by rw [Store.table_eq ht, Fault.ok_bind, Fault.pure_eq_ok]⟩
  | dropTable name => exact hs.exists_beginDropTable name hfree

/-! ## Steps that have none -/

theorem not_inUse_of_retire (h : s.retire t = .ok s') : ¬s.InUse t := by
  intro hinUse
  rw [retire_of_inUse hinUse] at h
  cases h

/-- A step that has an outcome drops no table that is in use. -/
theorem not_inUse_of_begin (hinOrder : s.tables.InOrder) (hdrops : s.Drops step t)
    (h : s.begin step = .ok s') : ¬s.InUse t := by
  cases step with
  | table name strategy capacity =>
    obtain ⟨⟨⟨u, stat⟩, _⟩, hact, h⟩ := Fault.bind_eq_ok_iff.mp h
    obtain ⟨store, -, rfl⟩ := act_eq_ok_iff.mp hact
    have hreplaced : ((s.adopt store).tables.insert name u).1 = some t :=
      (hinOrder.fst_insert name u).trans hdrops
    dsimp only at h
    rw [hreplaced] at h
    have hunused := not_inUse_of_retire h
    simpa [InUse, Task.uses, push, adopt] using hunused
  | dropTable name =>
    have hfind : s.tables.find? name = some t := hdrops
    simp only [Session.begin, Session.beginDropTable, Directory.take?, hfind, Option.map_some] at h
    have hunused := not_inUse_of_retire h
    simpa [InUse, Task.uses, push] using hunused
  | _ => cases hdrops

/-- A step faults just if it drops a table that is in use. -/
theorem Reachable.begin_eq_error_iff (h : Reachable calls s) :
    s.begin step = .error fault ↔ fault = .tableInUse ∧ ∃ t, s.Drops step t ∧ s.InUse t := by
  obtain ⟨-, l, -, -, hs⟩ := h.sound
  constructor
  · intro hbegin
    refine ⟨h.safe.begin step fault hbegin, ?_⟩
    by_contra hnone
    obtain ⟨s', hok⟩ := hs.exists_begin fun t hdrops hinUse => hnone ⟨t, hdrops, hinUse⟩
    rw [hok] at hbegin
    cases hbegin
  · rintro ⟨rfl, t, hdrops, hinUse⟩
    cases hbegin : s.begin step with
    | ok s' => exact absurd hinUse (not_inUse_of_begin hs.tablesInOrder hdrops hbegin)
    | error fault => rw [h.safe.begin step fault hbegin]

/-! ## Bits of tasks -/

theorem Sound.exists_performHook (hs : s.Sound l []) {label : String} {steps : List (Step K)}
    (hfree : ∀ t, s.DropsNext (.hook label steps) t → ¬s.InUse t) :
    ∃ s', s.performHook label steps = .ok s' := by
  unfold Session.performHook
  cases hanswer : s.answer with
  | some answer => exact ⟨_, rfl⟩
  | none =>
    cases steps with
    | nil => exact ⟨_, rfl⟩
    | cons step steps =>
      have hs' : (s.push (.hook label steps)).Sound l [] := Sound.push_plain _ hs fun _ => rfl
      exact hs'.exists_begin fun t hdrops hinUse =>
        hfree t ⟨hanswer, drops_push.mp hdrops⟩ ((inUse_push rfl).mp hinUse)

theorem Sound.exists_performFill {items : List (Item K)} {cut : Bool} {hook : List (Step K)}
    {results : List (Except Refusal Unit)} (h : s.Ready l (.fill t items cut hook results) []) :
    ∃ s', s.performFill t items cut hook results = .ok s' := by
  have hs : s.Sound l [] := h.sound
  cases items with
  | nil => exact ⟨_, rfl⟩
  | cons item items =>
    obtain ⟨hname, hagrees⟩ := hs.agrees.create item
    have ha := (l.account?_create item (l.create item).1).trans (if_pos rfl)
    obtain ⟨r, hr⟩ := h.fits
    obtain ⟨reply, l', hcall⟩ := Ledger.exists_call hagrees.covered
      (c := .hash t (s.store.create item).1 item.key)
      ⟨⟨r, hr⟩, _, Ledger.held?_eq_some_iff.mpr ⟨hname ▸ ha, Nat.one_pos⟩⟩
    obtain ⟨store, hstore, -⟩ := hagrees.call hs.idle hcall
    obtain ⟨⟨result, store⟩, hok, -⟩ := Fault.bind_eq_ok_iff.mp hstore
    unfold Session.performFill
    refine exists_act ((s.store.create item).1, result) store ?_ ⟨_, rfl⟩
    simp only [hok, Fault.ok_bind, Fault.pure_eq_ok]

theorem Sound.exists_performTeardown (hs : s.Sound l [])
    (hfree : ∀ t, s.DropsNext .teardown t → ¬s.InUse t) : ∃ s', s.performTeardown = .ok s' := by
  unfold Session.performTeardown
  cases hhandles : s.handles.takeFirst? with
  | some => exact ⟨_, rfl⟩
  | none =>
    cases htables : s.tables.takeFirst? with
    | none => exact ⟨_, rfl⟩
    | some taken =>
      obtain ⟨t, tables⟩ := taken
      obtain ⟨hperm, -⟩ := Directory.perm_of_takeFirst? hs.tablesInOrder htables
      obtain ⟨r, hr⟩ := hs.named t (hperm.symm.subset List.mem_cons_self)
      obtain ⟨table, ht, -⟩ := hs.agrees.exists_table hr
      have hunused := hfree t ⟨hhandles, tables, htables⟩
      exact ⟨_, retire_eq (by simpa [InUse, push, Task.uses] using hunused) ht⟩

/-- A bit of a task has an outcome, unless it drops a table that another task works on. -/
theorem Reachable.exists_perform (h : Reachable calls s) (htasks : s.tasks = task :: tasks)
    (hfree : ∀ t, s.DropsNext task t → ¬tasks.any (Task.uses t) = true) :
    ∃ s', { s with tasks := tasks }.perform task = .ok s' := by
  obtain ⟨-, l, -, -, hs⟩ := h.sound
  have hready := hs.pop htasks
  cases task with
  | hook label steps =>
    exact Sound.exists_performHook hready.sound fun t hdrops => hfree t (dropsNext_pop.mp hdrops)
  | release elements =>
    cases elements with
    | nil => exact ⟨_, rfl⟩
    | cons e elements => exact (h.puts htasks rfl).imp fun _ hputs => hputs.1
  | drop e | put e => exact (h.puts htasks rfl).imp fun _ hputs => hputs.1
  | keep | answer => exact ⟨_, rfl⟩
  | fill => exact Sound.exists_performFill hready
  | traverse t buckets =>
    cases buckets with
    | nil => exact ⟨_, rfl⟩
    | cons i buckets =>
      obtain ⟨visits, store, -, -, hok⟩ := h.walk htasks
      exact ⟨_, hok⟩
  | drain t buckets =>
    cases buckets with
    | nil =>
      obtain ⟨-, -, hok⟩ := h.drain_nil htasks
      exact ⟨_, hok⟩
    | cons i buckets =>
      obtain ⟨released, store, -, -, -, hok⟩ := h.drain htasks
      exact ⟨_, hok⟩
  | teardown => exact Sound.exists_performTeardown hready.sound hfree

/-- A table that was dropped was not in use. -/
theorem not_inUse_of_perform (hinOrder : s.tables.InOrder) (hdrops : s.DropsNext task t)
    (h : s.perform task = .ok s') : ¬s.InUse t := by
  cases task with
  | hook label steps =>
    cases steps with
    | nil => cases hdrops
    | cons step steps =>
      obtain ⟨hanswer, hdrops⟩ := hdrops
      simp only [Session.perform, performHook, hanswer] at h
      exact fun hinUse => not_inUse_of_begin (s := s.push (.hook label steps)) hinOrder
        (drops_push.mpr hdrops) h ((inUse_push rfl).mpr hinUse)
  | teardown =>
    obtain ⟨hhandles, tables, htables⟩ := hdrops
    simp only [Session.perform, Session.performTeardown, hhandles, htables] at h
    have hunused := not_inUse_of_retire h
    simpa [InUse, Task.uses, push] using hunused
  | _ => cases hdrops

/-- A bit of a task faults just if it drops a table that another task works on. -/
theorem Reachable.perform_eq_error_iff (h : Reachable calls s) (htasks : s.tasks = task :: tasks) :
    { s with tasks := tasks }.perform task = .error fault ↔
      fault = .tableInUse ∧ s.Conflict := by
  constructor
  · intro hperform
    refine ⟨h.safe.perform task tasks fault htasks hperform, ?_⟩
    by_contra hnone
    obtain ⟨s', hok⟩ := h.exists_perform htasks fun t hdrops hinUse =>
      hnone ⟨task, tasks, t, htasks, hdrops, hinUse⟩
    rw [hok] at hperform
    cases hperform
  · rintro ⟨rfl, task', tasks', t, htasks', hdrops, hinUse⟩
    obtain ⟨rfl, rfl⟩ := List.cons.inj (htasks.symm.trans htasks')
    cases hperform : { s with tasks := tasks }.perform task with
    | ok s' =>
      have hinOrder : Session.tables { s with tasks := tasks } |>.InOrder := h.tablesInOrder
      exact absurd hinUse (not_inUse_of_perform hinOrder (dropsNext_pop.mpr hdrops) hperform)
    | error fault => rw [h.safe.perform task tasks fault htasks hperform]

/-! ## Doing all tasks -/

/-- Tasks come to an end, or to the drop of a table that is in use. -/
theorem Reachable.ends_or_conflict (h : Reachable calls s) (hbase : base <:+ s.tasks) :
    (∃ s', Advances base s s' ∧ s'.tasks = base) ∨ ∃ s', Advances base s s' ∧ s'.Conflict := by
  induction s using wellFounded_precedes.induction generalizing calls with
  | _ s ih =>
    obtain ⟨top, htop⟩ := hbase
    cases top with
    | nil => exact .inl ⟨s, .refl, htop.symm⟩
    | cons task top =>
      have htasks : s.tasks = task :: (top ++ base) := htop.symm
      have hbase : base <:+ top ++ base := List.suffix_append _ _
      cases hperform : { s with tasks := top ++ base }.perform task with
      | error fault => exact .inr ⟨s, .refl, ((h.perform_eq_error_iff htasks).mp hperform).2⟩
      | ok s₁ =>
        have hfirst : Advances base s s₁ := .single ⟨task, _, hbase, htasks, hperform⟩
        have hprecedes := precedes_of_perform hperform
        rw [push, ← htasks] at hprecedes
        have hsuffix := (Moves.perform task _ hbase htasks hperform).suffix h
        rcases ih s₁ hprecedes (h.perform htasks hperform) hsuffix with
          ⟨s', hadvances, hdone⟩ | ⟨s', hadvances, hconflict⟩
        · exact .inl ⟨s', hfirst.trans hadvances, hdone⟩
        · exact .inr ⟨s', hfirst.trans hadvances, hconflict⟩

/-- So they do whatever has been done above the tasks that wait. -/
theorem Above.ends_or_conflict (habove : Above base s s₁) (h : Reachable calls s)
    (hbase : base <:+ s.tasks) :
    (∃ s', Advances base s₁ s' ∧ Above base s s' ∧ s'.tasks = base) ∨
      ∃ s', Advances base s₁ s' ∧ s'.Conflict := by
  obtain ⟨calls₁, h₁⟩ := habove.reachable h
  refine (h₁.ends_or_conflict (habove.suffix h hbase)).imp_left ?_
  rintro ⟨s', hadvances, hdone⟩
  exact ⟨s', hadvances, habove.trans hadvances.above, hdone⟩

theorem Advances.run_eq_run (h : Advances [] s s') : s.run = s'.run := by
  induction h using Relation.ReflTransGen.head_induction_on with
  | refl => rfl
  | head hnext _ ih =>
    obtain ⟨task, tasks, -, htasks, hperform⟩ := hnext
    rw [run_eq, htasks]
    simp only [hperform, Except.bind]
    exact ih

theorem Advances.run_eq_ok (h : Advances [] s s') (hdone : s'.tasks = []) : s.run = .ok s' := by
  rw [h.run_eq_run, run_eq, hdone]

/-- Tasks come to one end only. -/
theorem Advances.eq_of_done (h : Advances [] s s₁) (hdone : s₁.tasks = [])
    (h' : Advances [] s s') (hdone' : s'.tasks = []) : s₁ = s' :=
  Except.ok.inj ((h.run_eq_ok hdone).symm.trans (h'.run_eq_ok hdone'))

/-- To come to the drop of a table that is in use is to fault. -/
theorem Reachable.run_of_conflict (h : Reachable calls s) (hadvances : Advances [] s s')
    (hconflict : s'.Conflict) : s.run = .error .tableInUse := by
  obtain ⟨calls', h'⟩ := hadvances.above.reachable h
  obtain ⟨task, tasks, -, htasks, -⟩ := id hconflict
  rw [hadvances.run_eq_run, run_eq, htasks]
  simp only [(h'.perform_eq_error_iff htasks).mpr ⟨rfl, hconflict⟩, Except.bind]

/-- Tasks that come to an end do not come to a conflict. -/
theorem Reachable.not_conflict_of_done (h : Reachable calls s) (hadvances : Advances [] s s')
    (hdone : s'.tasks = []) (hother : Advances [] s s₁) : ¬s₁.Conflict := fun hconflict => by
  cases (h.run_of_conflict hother hconflict).symm.trans (hadvances.run_eq_ok hdone)

end HashIndex.Script.Session
