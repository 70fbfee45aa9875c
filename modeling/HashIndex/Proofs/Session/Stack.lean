import HashIndex.Proofs.Session.Reachable

/-!
# The stack of tasks

What is begun goes on top of the tasks that wait, and only the top is worked on. So a task is at
rest until everything above it is done, whatever happens there, and what happens between two bits of
work on it is just what happens above it.

## Main definitions

* `Session.Claims`: a table has a name, or somebody drains it.
* `Session.Extends`: tasks have been put on top of others, and no table has got lost.
* `Session.Moves`, `Session.Above`: what can happen while some tasks wait.
* `Session.Advances`: what happens if no step is begun but those of hooks.

## Main statements

* `Session.Above.exists_resume`: work on a waiting task is resumed before anything below it.
-/

namespace HashIndex.Script.Session

variable {K : Type} {s s' s₁ s₂ : Session K} {t : TableId} {task frame : Task K}
  {tasks base : List (Task K)} {calls : List (Call (Item K) K)}

/-- A table has a name, or somebody drains it. -/
def Claims (s : Session K) (t : TableId) : Prop :=
  t ∈ s.tables.values ∨ ∃ buckets n, Task.drain t buckets n ∈ s.tasks

/-- Tasks have been put on top of others, and no table has got lost. -/
structure Extends (s s' : Session K) : Prop where
  tasks : s.tasks <:+ s'.tasks
  claims : ∀ t, s.Claims t → s'.Claims t

theorem Extends.trans (h : s.Extends s₁) (h' : s₁.Extends s₂) : s.Extends s₂ :=
  ⟨h.tasks.trans h'.tasks, fun t ht => h'.claims t (h.claims t ht)⟩

theorem extends_of_tables (htasks : s.tasks <:+ s'.tasks) (htables : s'.tables = s.tables) :
    s.Extends s' := by
  refine ⟨htasks, fun t ht => ?_⟩
  unfold Claims at ht ⊢
  rw [htables]
  exact ht.imp_right fun ⟨buckets, n, hmem⟩ => ⟨buckets, n, htasks.subset hmem⟩

theorem extends_push (s : Session K) (task : Task K) : s.Extends (s.push task) :=
  extends_of_tables (List.suffix_cons _ _) rfl

theorem extends_adopt (s : Session K) (store : Store (Item K) K) : s.Extends (s.adopt store) :=
  extends_of_tables (List.suffix_refl _) rfl

theorem extends_reply (s : Session K) (answer : Answer K) : s.Extends (s.reply answer) :=
  extends_of_tables (List.suffix_refl _) rfl

theorem extends_handles (s : Session K) (handles : Directory ElementId) :
    s.Extends { s with handles := handles } :=
  extends_of_tables (List.suffix_refl _) rfl

/-- To drop a table is to leave the task to drain all its buckets. -/
theorem exists_of_retire (h : s.retire t = .ok s') :
    ∃ table, s.store.table? t = some table ∧
      s' = s.push (.drain t (List.range table.buckets.size) 0) := by
  unfold retire at h
  split at h
  · cases h
  · obtain ⟨buckets, hbuckets, h⟩ := Fault.bind_eq_ok_iff.mp h
    obtain ⟨table, ht, hrange⟩ := Fault.bind_eq_ok_iff.mp hbuckets
    cases hrange
    cases h
    unfold Store.table at ht
    split at ht
    next htable =>
      cases ht
      exact ⟨table, htable, rfl⟩
    next => cases ht

/-- A table whose name is taken away is drained. -/
theorem extends_of_retire (htasks : s.tasks <:+ s₁.tasks)
    (htables : ∀ u ∈ s.tables.values, u = t ∨ u ∈ s₁.tables.values)
    (h : s₁.retire t = .ok s') : s.Extends s' := by
  obtain ⟨table, -, rfl⟩ := exists_of_retire h
  refine ⟨htasks.trans (List.suffix_cons _ _), fun u hu => ?_⟩
  obtain hu | ⟨buckets, n, hmem⟩ := hu
  · obtain rfl | hu := htables u hu
    · exact .inr ⟨_, 0, List.mem_cons_self⟩
    · exact .inl hu
  · exact .inr ⟨buckets, n, List.mem_cons_of_mem _ (htasks.subset hmem)⟩

theorem extends_beginMalformed (s : Session K) (complaint : Complaint) (needs : List Need) :
    s.Extends (s.beginMalformed complaint needs) := by
  induction needs with
  | nil => exact extends_reply _ _
  | cons need needs ih =>
    cases need <;> unfold beginMalformed <;> split <;> first | exact extends_reply _ _ | exact ih

theorem extends_of_withHandle {name : String} {next : ElementId → Except Fault (Session K)}
    (hnext : ∀ e, next e = .ok s' → s.Extends s') (h : s.withHandle name next = .ok s') :
    s.Extends s' := by
  unfold withHandle at h
  split at h
  · cases h
    exact extends_reply _ _
  · exact hnext _ h

theorem extends_of_takeHandle {name : String}
    {next : ElementId → Session K → Except Fault (Session K)}
    (hnext : ∀ e handles, next e { s with handles := handles } = .ok s' →
      Extends { s with handles := handles } s')
    (h : s.takeHandle name next = .ok s') : s.Extends s' := by
  unfold takeHandle at h
  split at h
  · cases h
    exact extends_reply _ _
  · exact (extends_handles _ _).trans (hnext _ _ h)

theorem extends_of_withTable {name : String} {next : TableId → Except Fault (Session K)}
    (hnext : ∀ t, next t = .ok s' → s.Extends s') (h : s.withTable name next = .ok s') :
    s.Extends s' := by
  unfold withTable at h
  split at h
  · cases h
    exact extends_reply _ _
  · exact hnext _ h

/-- Whoever acts on the store and goes on with the tasks and the tables as they were extends. -/
theorem extends_of_act {α : Type} {action : Store (Item K) K → Except Fault (α × Store (Item K) K)}
    {next : α × Session K → Except Fault (Session K)}
    (hnext : ∀ result store, next (result, s.adopt store) = .ok s' → (s.adopt store).Extends s')
    (h : s.act action >>= next = .ok s') : s.Extends s' := by
  obtain ⟨⟨result, _⟩, hact, h⟩ := Fault.bind_eq_ok_iff.mp h
  obtain ⟨store, -, rfl⟩ := act_eq_ok_iff.mp hact
  exact (extends_adopt _ _).trans (hnext result store h)

/-- Making a table loses none: one that it takes the name from is drained. -/
theorem extends_of_beginTable {name : String} {strategy : Strategy (Item K) K}
    {capacity : Capacity} (h : s.beginTable name strategy capacity = .ok s') : s.Extends s' := by
  refine extends_of_act (fun ⟨t, stat⟩ store h => ?_) h
  have hperm := s.tables.perm_insert name t
  rcases hinsert : s.tables.insert name t with ⟨replaced, tables⟩
  rw [hinsert] at hperm
  simp only [adopt, hinsert] at h
  -- what had a name has it still, or was replaced
  have hkept : ∀ u ∈ s.tables.values, u ∈ replaced.toList ∨ u ∈ tables.values := fun u hu =>
    List.mem_append.mp (hperm.symm.subset (List.mem_cons_of_mem _ hu))
  cases replaced with
  | none =>
    cases h
    refine ⟨List.suffix_cons _ _, fun u hu => hu.imp (fun hu => ?_) ?_⟩
    · exact (hkept u hu).resolve_left (by simp)
    · exact fun ⟨buckets, n, hmem⟩ => ⟨buckets, n, List.mem_cons_of_mem _ hmem⟩
  | some old =>
    refine extends_of_retire (List.suffix_cons _ _) (fun u hu => ?_) h
    exact (hkept u hu).imp_left fun hu => by simpa using hu

theorem extends_of_beginDropTable {name : String} (hinOrder : s.tables.InOrder)
    (h : s.beginDropTable name = .ok s') : s.Extends s' := by
  unfold beginDropTable at h
  split at h
  · cases h
    exact extends_reply _ _
  next t tables htake =>
    exact extends_of_retire (List.suffix_cons _ _)
      (fun u hu => List.mem_cons.mp ((hinOrder.perm_of_take? htake).1.subset hu)) h

/-- What a step leaves to be done goes on top. -/
theorem extends_of_begin {step : Step K} (hinOrder : s.tables.InOrder)
    (h : s.begin step = .ok s') : s.Extends s' := by
  cases step with
  | malformed needs complaint =>
    cases h
    exact extends_beginMalformed _ _ _
  | table name strategy capacity => exact extends_of_beginTable h
  | create name item hook =>
    refine extends_of_act (fun result store h => ?_) h
    cases h
    exact extends_of_tables ⟨[_, _], rfl⟩ rfl
  | hold name target =>
    refine extends_of_withHandle (fun e h => extends_of_act (fun result store h => ?_) h) h
    cases h
    exact extends_of_tables ⟨[_, _], rfl⟩ rfl
  | put name =>
    simp only [Session.begin] at h
    refine extends_of_takeHandle (fun e handles h => ?_) h
    cases h
    exact extends_push _ _
  | drop name =>
    simp only [Session.begin] at h
    refine extends_of_takeHandle (fun e handles h => ?_) h
    cases h
    exact extends_of_tables ⟨[_, _], rfl⟩ rfl
  | info name =>
    refine extends_of_withHandle (fun e h => ?_) h
    obtain ⟨info, -, h⟩ := Fault.bind_eq_ok_iff.mp h
    cases h
    exact extends_reply _ _
  | same name other =>
    refine extends_of_withHandle (fun e h => extends_of_withHandle (fun f h => ?_) h) h
    cases h
    exact extends_reply _ _
  | hash table name key =>
    refine extends_of_withTable (fun t h => extends_of_withHandle (fun e h =>
      extends_of_act (fun result store h => ?_) h) h) h
    cases h
    exact extends_reply _ _
  | unhash table name =>
    refine extends_of_withTable (fun t h => extends_of_withHandle (fun e h =>
      extends_of_act (fun result store h => ?_) h) h) h
    cases result with
    | error =>
      cases h
      exact extends_reply _ _
    | ok =>
      cases h
      exact extends_of_tables ⟨[_, _], rfl⟩ rfl
  | lookup table key target =>
    refine extends_of_withTable (fun t h => extends_of_act (fun result store h => ?_) h) h
    cases result with
    | error =>
      cases h
      exact extends_reply _ _
    | ok e =>
      obtain ⟨info, -, h⟩ := Fault.bind_eq_ok_iff.mp h
      cases target <;> cases h <;> exact extends_of_tables ⟨[_, _], rfl⟩ rfl
  | remove table key =>
    refine extends_of_withTable (fun t h => extends_of_act (fun result store h => ?_) h) h
    cases result with
    | error =>
      cases h
      exact extends_reply _ _
    | ok e =>
      refine extends_of_act (fun result store h => ?_) h
      cases result <;> cases h <;> exact extends_of_tables ⟨[_, _], rfl⟩ rfl
  | fill table items cut hook =>
    refine extends_of_withTable (fun t h => ?_) h
    cases h
    exact extends_push _ _
  | traverse table hold unhash target =>
    refine extends_of_withTable (fun t h => ?_) h
    obtain ⟨buckets, -, h⟩ := Fault.bind_eq_ok_iff.mp h
    cases h
    exact extends_push _ _
  | survey table hold target =>
    refine extends_of_withTable (fun t h => ?_) h
    obtain ⟨buckets, -, h⟩ := Fault.bind_eq_ok_iff.mp h
    refine extends_of_act (fun visits store h => ?_) h
    dsimp only at h
    rw [foldl_emit fun visit : Visit (Item K) => .read visit.value visit.hash] at h
    cases h
    exact extends_of_tables ⟨[_, _], rfl⟩ rfl
  | chains table =>
    refine extends_of_withTable (fun t h => ?_) h
    obtain ⟨buckets, -, h⟩ := Fault.bind_eq_ok_iff.mp h
    refine extends_of_act (fun lengths store h => extends_of_act (fun visits store h => ?_) h) h
    cases h
    exact extends_reply _ _
  | stat table =>
    refine extends_of_withTable (fun t h => ?_) h
    obtain ⟨stat, -, h⟩ := Fault.bind_eq_ok_iff.mp h
    cases h
    exact extends_reply _ _
  | showHandle name long =>
    refine extends_of_withHandle (fun e h => ?_) h
    obtain ⟨shown, -, h⟩ := Fault.bind_eq_ok_iff.mp h
    cases h
    exact extends_reply _ _
  | showTable table long =>
    refine extends_of_withTable (fun t h => ?_) h
    obtain ⟨table, -, h⟩ := Fault.bind_eq_ok_iff.mp h
    cases h
    exact extends_reply _ _
  | dropTable name => exact extends_of_beginDropTable hinOrder h

theorem extends_bury (s : Session K) (e : ElementId) (destroyed : Option (Element (Item K))) :
    s.Extends (s.bury e destroyed) := by
  unfold bury
  cases destroyed with
  | none => exact extends_of_tables (List.suffix_refl _) rfl
  | some x =>
    dsimp only
    cases x.release with
    | drop => exact extends_of_tables (List.suffix_refl _) rfl
    | announce strategy => exact extends_of_tables (List.suffix_cons _ _) rfl

theorem extends_performKeep (s : Session K) (entries : List (String × ElementId)) :
    s.Extends (s.performKeep entries) := by
  cases entries with
  | nil => exact extends_of_tables (List.suffix_refl _) rfl
  | cons entry entries =>
    unfold performKeep
    dsimp only
    split
    · exact extends_of_tables ⟨[_], rfl⟩ rfl
    · exact extends_of_tables ⟨[_, _], rfl⟩ rfl

theorem extends_of_performTeardown (hinOrder : s.tables.InOrder)
    (h : s.performTeardown = .ok s') : s.Extends s' := by
  unfold performTeardown at h
  split at h
  · cases h
    exact extends_of_tables ⟨[_, _], rfl⟩ rfl
  · split at h
    next t tables htake =>
      have hperm := (Directory.perm_of_takeFirst? hinOrder htake).1
      exact extends_of_retire (List.suffix_cons _ _)
        (fun u hu => List.mem_cons.mp (hperm.subset hu)) h
    next =>
      cases h
      exact extends_of_tables (List.suffix_refl _) rfl

/-- What is left of a task, and what it leads to, goes on top of the other tasks. -/
theorem extends_of_perform (hinOrder : s.tables.InOrder) (h : s.perform task = .ok s') :
    s.Extends s' := by
  cases task with
  | hook label steps =>
    simp only [perform, performHook] at h
    split at h
    · cases h
      exact extends_of_tables ⟨[_], rfl⟩ rfl
    · cases steps with
      | nil =>
        cases h
        exact extends_of_tables (List.suffix_refl _) rfl
      | cons step steps =>
        have hpush := extends_push s (.hook label steps)
        exact hpush.trans (extends_of_begin (s := s.push (.hook label steps)) hinOrder h)
  | release elements =>
    cases elements with
    | nil =>
      cases h
      exact extends_of_tables (List.suffix_refl _) rfl
    | cons e elements =>
      refine extends_of_act (fun destroyed store h => ?_) h
      cases h
      exact (extends_push _ _).trans (extends_bury _ _ _)
  | drop e =>
    refine extends_of_act (fun destroyed store h => ?_) h
    cases h
    exact extends_bury _ _ _
  | put e =>
    refine extends_of_act (fun destroyed store h => ?_) h
    cases h
    exact (extends_push _ _).trans (extends_bury _ _ _)
  | keep entries =>
    cases h
    exact extends_performKeep _ _
  | fill t items cut hook results =>
    cases items with
    | nil =>
      cases h
      exact extends_reply _ _
    | cons item items =>
      refine extends_of_act (fun result store h => ?_) h
      cases h
      exact extends_of_tables ⟨[_, _], rfl⟩ rfl
  | traverse t buckets visited kept hold unhash target =>
    cases buckets with
    | nil =>
      cases h
      exact extends_of_tables ⟨[_, _], rfl⟩ rfl
    | cons bucket buckets =>
      refine extends_of_act (fun result store h => ?_) h
      dsimp only at h
      rw [foldl_emit fun visit : Visit (Item K) => .visited visit.value visit.hash] at h
      cases h
      exact extends_of_tables ⟨[_, _], rfl⟩ rfl
  | drain t buckets drained =>
    cases buckets with
    | nil =>
      cases h
      exact extends_adopt _ _
    | cons bucket buckets =>
      refine extends_of_act (fun released store h => ?_) h
      cases h
      exact extends_of_tables ⟨[_, _], rfl⟩ rfl
  | answer answer =>
    cases h
    exact extends_reply _ _
  | teardown => exact extends_of_performTeardown hinOrder h

/-! ## What happens while tasks wait -/

/-- What can happen next while the tasks `base` wait: a step is begun, or a bit of a task above them
is done. -/
inductive Moves (base : List (Task K)) (s s' : Session K) : Prop
  | begin (step : Step K) (hbase : base <:+ s.tasks) (hbegin : s.begin step = .ok s')
  | perform (task : Task K) (tasks : List (Task K)) (hbase : base <:+ tasks)
    (htasks : s.tasks = task :: tasks) (hperform : { s with tasks := tasks }.perform task = .ok s')

/-- What can happen while the tasks `base` wait. Whoever has the chance to do something may begin
any step at any time. -/
def Above (base : List (Task K)) : Session K → Session K → Prop :=
  Relation.ReflTransGen (Moves base)

/-- A bit of a task above the tasks `base` is done. -/
def Advances (base : List (Task K)) : Session K → Session K → Prop :=
  Relation.ReflTransGen fun s s' => ∃ task tasks, base <:+ tasks ∧ s.tasks = task :: tasks ∧
    { s with tasks := tasks }.perform task = .ok s'

theorem Reachable.tablesInOrder (h : Reachable calls s) : s.tables.InOrder := by
  obtain ⟨-, l, -, -, hs⟩ := h.sound
  exact hs.tablesInOrder

theorem Moves.reachable (hmoves : Moves base s s') (h : Reachable calls s) :
    ∃ calls', Reachable calls' s' := by
  cases hmoves with
  | begin step _ hbegin => exact ⟨_, h.begin step hbegin⟩
  | perform task tasks _ htasks hperform => exact ⟨_, h.perform htasks hperform⟩

theorem Above.reachable (habove : Above base s s') (h : Reachable calls s) :
    ∃ calls', Reachable calls' s' := by
  induction habove with
  | refl => exact ⟨calls, h⟩
  | tail _ hmoves ih =>
    obtain ⟨calls₁, h₁⟩ := ih
    exact hmoves.reachable h₁

theorem Moves.mono {base' : List (Task K)} (hbase : base' <:+ base) (h : Moves base s s') :
    Moves base' s s' := by
  cases h with
  | begin step hsuffix hbegin => exact .begin step (hbase.trans hsuffix) hbegin
  | perform task tasks hsuffix htasks hperform =>
    exact .perform task tasks (hbase.trans hsuffix) htasks hperform

theorem Above.mono {base' : List (Task K)} (hbase : base' <:+ base) (h : Above base s s') :
    Above base' s s' :=
  Relation.ReflTransGen.mono (fun _ _ => Moves.mono hbase) _ _ h

/-- A task that waited is worked on again. -/
theorem Above.resume (habove : Above (frame :: base) s s₁) (htasks : s₁.tasks = frame :: base)
    (hperform : { s₁ with tasks := base }.perform frame = .ok s') : Above base s s' :=
  (habove.mono (List.suffix_cons _ _)).tail
    (.perform frame base (List.suffix_refl _) htasks hperform)

theorem Advances.mono {base' : List (Task K)} (hbase : base' <:+ base) (h : Advances base s s') :
    Advances base' s s' :=
  Relation.ReflTransGen.mono (fun _ _ ⟨task, tasks, hsuffix, hperform⟩ =>
    ⟨task, tasks, hbase.trans hsuffix, hperform⟩) _ _ h

theorem Advances.above (h : Advances base s s') : Above base s s' :=
  Relation.ReflTransGen.mono (fun _ _ ⟨task, tasks, hbase, htasks, hperform⟩ =>
    .perform task tasks hbase htasks hperform) _ _ h

theorem advances_of_advance {n : Nat} (h : advance n s = .ok s') : Advances [] s s' := by
  induction n generalizing s s' with
  | zero =>
    unfold advance at h
    split at h
    next =>
      cases h
      exact .refl
    next task tasks htasks => exact .single ⟨task, tasks, List.nil_suffix, htasks, h⟩
  | succ n ih =>
    obtain ⟨s₁, hfirst, hrest⟩ := Fault.bind_eq_ok_iff.mp h
    exact (ih hfirst).trans (ih hrest)

/-- The tasks that wait are not touched. -/
theorem Moves.suffix (hmoves : Moves base s s') (h : Reachable calls s) : base <:+ s'.tasks := by
  cases hmoves with
  | begin step hbase hbegin => exact hbase.trans (extends_of_begin h.tablesInOrder hbegin).tasks
  | perform task tasks hbase _ hperform =>
    have hinOrder : Session.tables { s with tasks := tasks } |>.InOrder := h.tablesInOrder
    exact hbase.trans (extends_of_perform hinOrder hperform).tasks

theorem Above.suffix (habove : Above base s s') (h : Reachable calls s)
    (hbase : base <:+ s.tasks) : base <:+ s'.tasks := by
  induction habove with
  | refl => exact hbase
  | tail habove hmoves _ =>
    obtain ⟨calls₁, h₁⟩ := Above.reachable habove h
    exact hmoves.suffix h₁

/-- Before a task that waits is done with, there is a time when it is the most urgent one, and a bit
of it is done. What happens until then happens above it. -/
theorem Above.exists_resume (habove : Above base s s') (h : Reachable calls s)
    (hframe : frame :: base <:+ s.tasks) (hdone : s'.tasks = base) :
    ∃ s₁ s₂, Above (frame :: base) s s₁ ∧ s₁.tasks = frame :: base ∧
      { s₁ with tasks := base }.perform frame = .ok s₂ ∧ Above base s₂ s' := by
  induction habove using Relation.ReflTransGen.head_induction_on generalizing calls with
  | refl =>
    have hlength := hframe.length_le
    rw [hdone, List.length_cons] at hlength
    omega
  | @head s s₀ hmoves hrest ih =>
    -- the step goes on top of the task, or is a bit of one above it, or a bit of the task itself
    have hcases : Moves (frame :: base) s s₀ ∨ s.tasks = frame :: base ∧
        { s with tasks := base }.perform frame = .ok s₀ := by
      cases hmoves with
      | begin step _ hbegin => exact .inl (.begin step hframe hbegin)
      | perform task tasks hbase htasks hperform =>
        rw [htasks] at hframe
        obtain heq | hsuffix := List.suffix_cons_iff.mp hframe
        · obtain ⟨rfl, rfl⟩ := List.cons.inj heq
          exact .inr ⟨htasks, hperform⟩
        · exact .inl (.perform task tasks hsuffix htasks hperform)
    obtain hmoves | ⟨htasks, hperform⟩ := hcases
    · obtain ⟨calls₀, h₀⟩ := hmoves.reachable h
      obtain ⟨s₁, s₂, habove, htasks, hperform, hrest⟩ := ih h₀ (hmoves.suffix h)
      exact ⟨s₁, s₂, .head hmoves habove, htasks, hperform, hrest⟩
    · exact ⟨s, s₀, .refl, htasks, hperform, hrest⟩

end HashIndex.Script.Session
