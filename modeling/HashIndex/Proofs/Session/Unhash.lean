import HashIndex.Proofs.Call.Unhash
import HashIndex.Proofs.Session.Farewell
import HashIndex.Proofs.Session.Termination

/-!
# Who destroys elements

A step that takes an element out of a table leaves the reference of the table to be put, which is
done before anything else is. The element has a handle all that time, so that this never destroys
it. All other references of tables that are put come from traversals and from drops of tables. So
an element is destroyed by putting or dropping a handle, by a traversal, or by the drop of a table,
and by nothing else that a script can do.

## Main definitions

* `Task.sweeps`: traversals and drops of tables.
* `Session.Swept`, `Session.Orderly`: whose references wait to be put.

## Main statements

* `Session.orderly_begin`, `Session.Reachable.orderly_perform`: steps and tasks keep order.
* `Session.PassesThrough.unhash_destroys_nothing`: elements are taken out, but not destroyed, by
  taking them out.
-/

namespace HashIndex.Script

variable {K : Type}

def Task.isRelease : Task K → Bool
  | .release _ => true
  | _ => false

def Task.sweeps : Task K → Bool
  | .traverse .. | .drain .. => true
  | _ => false

namespace Session

variable {s s' s₁ : Session K} {e : ElementId} {task : Task K} {new tasks : List (Task K)}
  {step : Step K} {steps : List (Step K)} {calls : List (Call (Item K) K)}

/-- References that wait to be put are those that traversals and drops of tables took over. -/
def Swept : List (Task K) → Prop
  | [] => True
  | .release elements :: tasks =>
    (elements = [] ∨ ∃ frame rest, tasks = frame :: rest ∧ frame.sweeps = true) ∧ Swept tasks
  | _ :: tasks => Swept tasks

/-- There may also be the reference that a table had to an element that was just taken out, and to
which there is another reference. -/
def Orderly (s : Session K) : Prop :=
  Swept s.tasks ∨ ∃ e tasks, s.tasks = .release [e] :: tasks ∧ Swept tasks ∧ ¬s.LastReference e

theorem swept_cons (htask : task.isRelease = false) : Swept (task :: tasks) ↔ Swept tasks := by
  cases task <;> first | exact Iff.rfl | cases htask

theorem swept_append (hnew : ∀ task ∈ new, task.isRelease = false) :
    Swept (new ++ tasks) ↔ Swept tasks := by
  induction new with
  | nil => exact Iff.rfl
  | cons task new ih =>
    rw [List.cons_append, swept_cons (hnew task List.mem_cons_self)]
    exact ih fun other hother => hnew other (List.mem_cons_of_mem _ hother)

theorem Swept.of_cons (h : Swept (task :: tasks)) : Swept tasks := by
  cases task <;> first | exact h | exact h.2

/-- Tasks are put on top of others, none of which is to put references. -/
def Adds (s s' : Session K) : Prop :=
  ∃ new, s'.tasks = new ++ s.tasks ∧ ∀ task ∈ new, task.isRelease = false

theorem Adds.swept (h : s.Adds s') (hswept : Swept s.tasks) : Swept s'.tasks := by
  obtain ⟨new, htasks, hnew⟩ := h
  rw [htasks]
  exact (swept_append hnew).mpr hswept

/-! ## Beginning a step -/

/-- A step leaves no references of tables to be put, except that taking an element out leaves that
of its table, while there is another reference to the element. -/
inductive Leaves (s s' : Session K) : Prop
  | adds (h : s.Adds s')
  | unhashed (e : ElementId) (frame : Task K)
    (htasks : s'.tasks = .release [e] :: frame :: s.tasks) (hframe : frame.isRelease = false)
    (hmore : ¬s'.LastReference e)

theorem leaves_of_tasks (new : List (Task K)) (htasks : s'.tasks = new ++ s.tasks)
    (hnew : ∀ task ∈ new, task.isRelease = false) : s.Leaves s' := .adds ⟨new, htasks, hnew⟩

theorem leaves_reply (s : Session K) (answer : Answer K) : s.Leaves (s.reply answer) :=
  leaves_of_tasks [] rfl (by simp)

theorem leaves_of_withHandle {name : String} {next : ElementId → Except Fault (Session K)}
    (hnext : ∀ e, s.handles.find? name = some e → next e = .ok s' → s.Leaves s')
    (h : s.withHandle name next = .ok s') : s.Leaves s' := by
  unfold withHandle at h
  split at h
  · cases h
    exact leaves_reply _ _
  next e hfind => exact hnext e hfind h

theorem leaves_of_takeHandle {name : String}
    {next : ElementId → Session K → Except Fault (Session K)}
    (hnext : ∀ e handles, next e { s with handles := handles } = .ok s' → s.Leaves s')
    (h : s.takeHandle name next = .ok s') : s.Leaves s' := by
  unfold takeHandle at h
  split at h
  · cases h
    exact leaves_reply _ _
  · exact hnext _ _ h

theorem leaves_of_withTable {name : String} {next : TableId → Except Fault (Session K)}
    (hnext : ∀ t, next t = .ok s' → s.Leaves s') (h : s.withTable name next = .ok s') :
    s.Leaves s' := by
  unfold withTable at h
  split at h
  · cases h
    exact leaves_reply _ _
  · exact hnext _ h

theorem leaves_of_act {α : Type} {action : Store (Item K) K → Except Fault (α × Store (Item K) K)}
    {next : α × Session K → Except Fault (Session K)}
    (hnext : ∀ result store, next (result, s.adopt store) = .ok s' → s.Leaves s')
    (h : s.act action >>= next = .ok s') : s.Leaves s' := by
  obtain ⟨⟨result, _⟩, hact, h⟩ := Fault.bind_eq_ok_iff.mp h
  obtain ⟨store, -, rfl⟩ := act_eq_ok_iff.mp hact
  exact hnext result store h

theorem leaves_of_retire {t : TableId} (hadds : s.Adds s₁) (h : s₁.retire t = .ok s') :
    s.Leaves s' := by
  obtain ⟨table, -, rfl⟩ := exists_of_retire h
  obtain ⟨new, htasks, hnew⟩ := hadds
  refine leaves_of_tasks (_ :: new) (by rw [push, htasks, List.cons_append]) ?_
  simpa [Task.isRelease] using hnew

theorem leaves_beginMalformed (s : Session K) (complaint : Complaint) (needs : List Need) :
    s.Leaves (s.beginMalformed complaint needs) := by
  induction needs with
  | nil => exact leaves_reply _ _
  | cons need needs ih =>
    cases need <;> unfold beginMalformed <;> split <;> first | exact leaves_reply _ _ | exact ih

/-- A reference that a table had is not the last one as long as there is a handle. -/
theorem not_lastReference_of_release (htasks : s.tasks = .release [e] :: tasks)
    (he : e ∈ s.handleList) : ¬s.LastReference e := by
  have hhandle := List.count_pos_iff.mpr he
  have hpending : 0 < s.pendingList.count e :=
    List.count_pos_iff.mpr (by simp [pendingList, htasks, Task.pending])
  rintro ⟨-, hone⟩
  omega

theorem leaves_of_beginUnhash {table name : String} (h : s.beginUnhash table name = .ok s') :
    s.Leaves s' := by
  refine leaves_of_withTable (fun t h => leaves_of_withHandle (fun e hfind h =>
    leaves_of_act (fun result store h => ?_) h) h) h
  cases result with
  | error =>
    cases h
    exact leaves_of_tasks [] rfl (by simp)
  | ok =>
    cases h
    refine .unhashed e (.answer .done) rfl rfl (not_lastReference_of_release rfl ?_)
    exact List.mem_append_left _ (Directory.mem_values_of_find? hfind)

theorem leaves_of_beginRemove {table : String} {key : K} (h : s.beginRemove table key = .ok s') :
    s.Leaves s' := by
  refine leaves_of_withTable (fun t h => leaves_of_act (fun found store h => ?_) h) h
  cases found with
  | error =>
    cases h
    exact leaves_of_tasks [] rfl (by simp)
  | ok e =>
    obtain ⟨⟨result, _⟩, hact, h⟩ := Fault.bind_eq_ok_iff.mp h
    obtain ⟨store', -, rfl⟩ := act_eq_ok_iff.mp hact
    cases result with
    | error refusal =>
      cases h
      exact leaves_of_tasks [.drop e, .answer (.refused refusal)] rfl (by simp [Task.isRelease])
    | ok =>
      -- the reference that was found is put afterwards
      cases h
      refine .unhashed e (.put e) rfl rfl (not_lastReference_of_release rfl ?_)
      exact List.mem_append_right _ (by simp [push, Task.handles])

/-- Of all steps, only those that take an element out leave the reference of a table to be put. -/
theorem leaves_of_begin (h : s.begin step = .ok s') : s.Leaves s' := by
  cases step with
  | malformed needs complaint =>
    cases h
    exact leaves_beginMalformed _ _ _
  | table name strategy capacity =>
    refine leaves_of_act (fun ⟨t, stat⟩ store h => ?_) h
    have hadds : s.Adds { s.adopt store with
        tables := (s.tables.insert name t).2
        tasks := .answer (.stat stat) :: s.tasks } :=
      ⟨[.answer (.stat stat)], rfl, by simp [Task.isRelease]⟩
    dsimp only at h
    split at h
    · cases h
      exact .adds hadds
    · exact leaves_of_retire hadds h
  | create name item hook =>
    refine leaves_of_act (fun ⟨e, info⟩ store h => ?_) h
    cases h
    exact leaves_of_tasks [.keep [(name, e)], .answer (.info info)] rfl (by simp [Task.isRelease])
  | hold name target =>
    refine leaves_of_withHandle (fun e _ h => leaves_of_act (fun info store h => ?_) h) h
    cases h
    exact leaves_of_tasks [.keep [(target, e)], .answer (.count info.count)] rfl
      (by simp [Task.isRelease])
  | put name =>
    simp only [Session.begin] at h
    refine leaves_of_takeHandle (fun e handles h => ?_) h
    cases h
    exact leaves_of_tasks [.put e] rfl (by simp [Task.isRelease])
  | drop name =>
    simp only [Session.begin] at h
    refine leaves_of_takeHandle (fun e handles h => ?_) h
    cases h
    exact leaves_of_tasks [.drop e, .answer .nothing] rfl (by simp [Task.isRelease])
  | info name | showHandle name long =>
    refine leaves_of_withHandle (fun e _ h => ?_) h
    obtain ⟨info, -, h⟩ := Fault.bind_eq_ok_iff.mp h
    cases h
    exact leaves_reply _ _
  | same name other =>
    refine leaves_of_withHandle (fun e _ h => leaves_of_withHandle (fun f _ h => ?_) h) h
    cases h
    exact leaves_reply _ _
  | hash table name key =>
    refine leaves_of_withTable (fun t h => leaves_of_withHandle (fun e _ h =>
      leaves_of_act (fun result store h => ?_) h) h) h
    cases h
    exact leaves_of_tasks [] rfl (by simp)
  | unhash table name => exact leaves_of_beginUnhash h
  | lookup table key target =>
    refine leaves_of_withTable (fun t h => leaves_of_act (fun found store h => ?_) h) h
    cases found with
    | error =>
      cases h
      exact leaves_of_tasks [] rfl (by simp)
    | ok e =>
      obtain ⟨info, -, h⟩ := Fault.bind_eq_ok_iff.mp h
      cases target with
      | none =>
        cases h
        exact leaves_of_tasks [.drop e, .answer (.info info)] rfl (by simp [Task.isRelease])
      | some target =>
        cases h
        exact leaves_of_tasks [.keep [(target, e)], .answer (.info info)] rfl
          (by simp [Task.isRelease])
  | remove table key => exact leaves_of_beginRemove h
  | fill table items cut hook =>
    refine leaves_of_withTable (fun t h => ?_) h
    cases h
    exact leaves_of_tasks [.fill t items cut hook []] rfl (by simp [Task.isRelease])
  | traverse table hold unhash target =>
    refine leaves_of_withTable (fun t h => ?_) h
    obtain ⟨buckets, -, h⟩ := Fault.bind_eq_ok_iff.mp h
    cases h
    exact leaves_of_tasks [.traverse t buckets 0 [] hold unhash target] rfl
      (by simp [Task.isRelease])
  | survey table hold target =>
    refine leaves_of_withTable (fun t h => ?_) h
    obtain ⟨buckets, -, h⟩ := Fault.bind_eq_ok_iff.mp h
    refine leaves_of_act (fun visits store h => ?_) h
    dsimp only at h
    rw [foldl_emit fun visit : Visit (Item K) => .read visit.value visit.hash] at h
    cases h
    exact leaves_of_tasks [.keep (keptBy target visits.flatten),
      .answer (.count visits.flatten.length)] rfl (by simp [Task.isRelease])
  | chains table =>
    refine leaves_of_withTable (fun t h => ?_) h
    obtain ⟨buckets, -, h⟩ := Fault.bind_eq_ok_iff.mp h
    obtain ⟨⟨lengths, _⟩, hact, h⟩ := Fault.bind_eq_ok_iff.mp h
    obtain ⟨store, -, rfl⟩ := act_eq_ok_iff.mp hact
    obtain ⟨⟨visits, _⟩, hact, h⟩ := Fault.bind_eq_ok_iff.mp h
    obtain ⟨store', -, rfl⟩ := act_eq_ok_iff.mp hact
    cases h
    exact leaves_of_tasks [] rfl (by simp)
  | stat table | showTable table long =>
    refine leaves_of_withTable (fun t h => ?_) h
    obtain ⟨stat, -, h⟩ := Fault.bind_eq_ok_iff.mp h
    cases h
    exact leaves_reply _ _
  | dropTable name =>
    simp only [Session.begin, beginDropTable] at h
    split at h
    · cases h
      exact leaves_reply _ _
    · exact leaves_of_retire ⟨[.answer .nothing], rfl, by simp [Task.isRelease]⟩ h

theorem Leaves.orderly (h : s.Leaves s') (hswept : Swept s.tasks) : s'.Orderly := by
  cases h with
  | adds h => exact .inl (h.swept hswept)
  | unhashed e frame htasks hframe hmore =>
    exact .inr ⟨e, _, htasks, (swept_cons hframe).mpr hswept, hmore⟩

/-- Steps keep order, if no reference of an element that was taken out waits to be put. -/
theorem orderly_begin (hswept : Swept s.tasks) (h : s.begin step = .ok s') : s'.Orderly :=
  (leaves_of_begin h).orderly hswept

/-! ## Doing a bit of a task -/

theorem adds_performKeep (s : Session K) (entries : List (String × ElementId)) :
    s.Adds (s.performKeep entries) := by
  cases entries with
  | nil => exact ⟨[], rfl, by simp⟩
  | cons entry entries =>
    unfold performKeep
    dsimp only
    split
    · exact ⟨[_], rfl, by simp [Task.isRelease]⟩
    · exact ⟨[_, _], rfl, by simp [Task.isRelease]⟩

theorem leaves_of_performTeardown (h : s.performTeardown = .ok s') : s.Leaves s' := by
  unfold performTeardown at h
  split at h
  next e handles _ =>
    cases h
    exact leaves_of_tasks [.drop e, .teardown] rfl (by simp [Task.isRelease])
  next =>
    split at h
    · exact leaves_of_retire ⟨[.teardown], rfl, by simp [Task.isRelease]⟩ h
    · cases h
      exact leaves_of_tasks [] rfl (by simp)

theorem orderly_of_performHook {label : String} {steps : List (Step K)} (hswept : Swept s.tasks)
    (h : s.performHook label steps = .ok s') : s'.Orderly := by
  unfold performHook at h
  split at h
  · cases h
    exact .inl ((swept_cons rfl).mpr hswept)
  · cases steps with
    | nil =>
      cases h
      exact .inl hswept
    | cons step steps => exact orderly_begin ((swept_cons rfl).mpr hswept) h

/-- Traversals and drops of tables, and nothing else, leave more references of tables to be put. -/
theorem orderly_of_perform (hputs : task.puts? = none) (hswept : Swept s.tasks)
    (h : s.perform task = .ok s') : s'.Orderly := by
  cases task with
  | hook label steps => exact orderly_of_performHook hswept h
  | release elements =>
    cases elements with
    | nil =>
      cases h
      exact .inl hswept
    | cons => cases hputs
  | drop | put => cases hputs
  | keep entries =>
    cases h
    exact .inl ((adds_performKeep s entries).swept hswept)
  | fill t items cut hook results =>
    cases items with
    | nil =>
      cases h
      exact .inl hswept
    | cons item items =>
      refine Leaves.orderly (leaves_of_act (fun ⟨e, result⟩ store h => ?_) h) hswept
      cases h
      exact leaves_of_tasks [.drop e, .fill t items cut hook (result :: results)] rfl
        (by simp [Task.isRelease])
  | traverse t buckets visited kept hold unhash target =>
    cases buckets with
    | nil =>
      cases h
      exact .inl hswept
    | cons bucket buckets =>
      obtain ⟨⟨⟨visits, released⟩, _⟩, hact, h⟩ := Fault.bind_eq_ok_iff.mp h
      obtain ⟨store, -, rfl⟩ := act_eq_ok_iff.mp hact
      dsimp only at h
      rw [foldl_emit fun visit : Visit (Item K) => .visited visit.value visit.hash] at h
      cases h
      exact .inl ⟨.inr ⟨_, _, rfl, rfl⟩, hswept⟩
  | drain t buckets drained =>
    cases buckets with
    | nil =>
      cases h
      exact .inl hswept
    | cons bucket buckets =>
      obtain ⟨⟨released, _⟩, hact, h⟩ := Fault.bind_eq_ok_iff.mp h
      obtain ⟨store, -, rfl⟩ := act_eq_ok_iff.mp hact
      cases h
      exact .inl ⟨.inr ⟨_, _, rfl, rfl⟩, hswept⟩
  | answer answer =>
    cases h
    exact .inl hswept
  | teardown => exact (leaves_of_performTeardown h).orderly hswept

/-- What is left of a task that has put a reference leaves the rest in order. -/
theorem swept_afterPut (hputs : task.puts? = some e) (hswept : Swept (task :: tasks))
    (last : Bool) : Swept (task.afterPut last ++ tasks) := by
  cases task with
  | release elements =>
    cases elements with
    | nil => cases hputs
    | cons e elements => exact ⟨.inr (hswept.1.resolve_left (by simp)), hswept.2⟩
  | drop | put => exact hswept
  | _ => cases hputs

theorem Puts.swept {rest : Bool → List (Task K)} (h : s.Puts e rest s')
    (hrest : ∀ last, Swept (rest last)) : Swept s'.tasks := by
  cases h with
  | @last x hx hlast =>
    refine (swept_append fun task htask => ?_).mpr (hrest true)
    unfold afterFarewell at htask
    split at htask
    · cases htask
    · rw [List.mem_singleton.mp htask]
      rfl
  | more => exact hrest false

/-- A bit of a task keeps the references of tables in order. -/
theorem Reachable.orderly_perform (h : Reachable calls s) (horderly : s.Orderly)
    (htasks : s.tasks = task :: tasks)
    (hperform : { s with tasks := tasks }.perform task = .ok s') : s'.Orderly := by
  obtain hswept | ⟨e, rest, hrelease, hswept, hmore⟩ := horderly
  · rw [htasks] at hswept
    cases hputs : task.puts? with
    | none =>
      exact orderly_of_perform (s := { s with tasks := tasks }) hputs hswept.of_cons hperform
    | some e =>
      obtain ⟨_, hok, hput⟩ := h.puts htasks hputs
      obtain rfl := Except.ok.inj (hperform.symm.trans hok)
      exact .inl (hput.swept (swept_afterPut hputs hswept))
  · obtain ⟨rfl, rfl⟩ := List.cons.inj (htasks.symm.trans hrelease)
    obtain ⟨_, hok, hput⟩ := h.puts htasks rfl
    obtain rfl := Except.ok.inj (hperform.symm.trans hok)
    cases hput with
    | last _ hlast => exact absurd hlast hmore
    | more => exact .inl ⟨.inl rfl, hswept⟩

theorem Advances.orderly (hadvances : Advances [] s s') (h : Reachable calls s)
    (horderly : s.Orderly) : s'.Orderly := by
  induction hadvances with
  | refl => exact horderly
  | tail hbefore hnext ih =>
    obtain ⟨calls₁, h₁⟩ := (Advances.above hbefore).reachable h
    obtain ⟨task, tasks, -, htasks, hperform⟩ := hnext
    exact h₁.orderly_perform ih htasks hperform

/-! ## Scripts -/

theorem passesThrough_append {rest : List (Step K)} {outcomes : List (Outcome K)}
    (htake : s.takeAll steps = .ok (outcomes, s₁)) (hrest : PassesThrough rest s₁ s') :
    PassesThrough (steps ++ rest) s s' := by
  induction steps generalizing s outcomes with
  | nil =>
    cases htake
    exact hrest
  | cons step steps ih =>
    obtain ⟨⟨outcome, s₂⟩, hstep, htake⟩ := Fault.bind_eq_ok_iff.mp htake
    obtain ⟨⟨others, s₃⟩, hsteps, htake⟩ := Fault.bind_eq_ok_iff.mp htake
    cases htake
    exact .later hstep (ih hsteps)

/-- What a script comes through is reachable and in order. -/
theorem PassesThrough.exists_reachable (hpasses : PassesThrough steps s s')
    (h : Reachable calls s) (htasks : s.tasks = []) :
    ∃ calls', Reachable calls' s' ∧ s'.Orderly := by
  have hswept : Swept s.tasks := by rw [htasks]; trivial
  induction hpasses generalizing calls with
  | ending hadvances =>
    obtain ⟨calls', h'⟩ := hadvances.above.reachable h.teardown
    exact ⟨calls', h', hadvances.orderly h.teardown (.inl hswept)⟩
  | @here step steps s s₁ s' hbegin hadvances =>
    have h₁ := h.begin step hbegin
    obtain ⟨calls', h'⟩ := hadvances.above.reachable h₁
    exact ⟨calls', h', hadvances.orderly h₁ (orderly_begin hswept hbegin)⟩
  | @later step steps s s₁ s' outcome htake _ ih =>
    obtain hfault | ⟨calls₁, _, _, hok, h₁⟩ := h.take step
    · cases htake.symm.trans hfault
    · obtain ⟨-, rfl⟩ := Prod.mk.inj (Except.ok.inj (htake.symm.trans hok))
      have hone : s.takeAll [step] = .ok ([outcome], s₁) := by
        simp only [Session.takeAll, htake, Fault.ok_bind, Fault.pure_eq_ok]
      have hdone := tasks_of_takeAll htasks hone
      exact ih h₁ hdone (by rw [hdone]; trivial)

/-- An element is about to be destroyed: a handle is put or dropped, or a traversal or the drop of a
table puts the reference that the table had. -/
inductive Destroys (e : ElementId) : List (Task K) → Prop
  | put (tasks : List (Task K)) : Destroys e (.put e :: tasks)
  | drop (tasks : List (Task K)) : Destroys e (.drop e :: tasks)
  | sweep (elements : List ElementId) {frame : Task K} (tasks : List (Task K))
    (hframe : frame.sweeps = true) : Destroys e (.release (e :: elements) :: frame :: tasks)

/-- Whatever destroys an element is one of the ways in which this is meant to happen. -/
theorem Orderly.destroys (horderly : s.Orderly) (htasks : s.tasks = task :: tasks)
    (hputs : task.puts? = some e) (hlast : s.LastReference e) : Destroys e s.tasks := by
  obtain hswept | ⟨f, rest, hrelease, -, hmore⟩ := horderly
  · rw [htasks] at hswept ⊢
    cases task with
    | put f | drop f =>
      obtain rfl := Option.some.inj hputs
      constructor
    | release elements =>
      cases elements with
      | nil => cases hputs
      | cons f elements =>
        obtain rfl := Option.some.inj hputs
        obtain ⟨frame, rest, rfl, hframe⟩ := hswept.1.resolve_left (by simp)
        exact .sweep elements rest hframe
    | _ => cases hputs
  · obtain ⟨rfl, rfl⟩ := List.cons.inj (htasks.symm.trans hrelease)
    obtain rfl := Option.some.inj hputs
    exact absurd hlast hmore

/-- After any run, taking an element out of a table is successful just for the elements of the
table, in the first round, and the reference of the table is not the last one; no other call than
putting a reference destroys an element. In a script, that is done by putting or dropping a handle,
by a traversal, or by the drop of a table. -/
theorem PassesThrough.unhash_destroys_nothing {V : Type} {trace : List (Call V K × Reply V)}
    {store : Store V K} (hruns : Store.Runs trace store)
    (hpasses : PassesThrough steps .initial s) :
    (∀ t e, (∃ table, store.table? t = some table) → 0 < store.references e →
      store.TakesOut t e) ∧
    (∀ c reply store', store.Permits c → store.call c = .ok (reply, store') →
      (∀ e, c ≠ .put e) → (∀ gone, reply ≠ .destroyed gone) ∧
        ∀ e x, store.heap.get? e = some x →
          ∃ y, store'.heap.get? e = some y ∧ y.value = x.value) ∧
    ∀ s', Moves [] s s' →
      (s'.frees = s.frees ∧
        ∀ e x, s.store.heap.get? e = some x → ∃ y, s'.store.heap.get? e = some y) ∨
      ∃ e x, Destroys e s.tasks ∧ s.LastReference e ∧ s.store.heap.get? e = some x ∧
        s'.store.heap = s.store.heap.free e ∧ s'.events = farewell x :: s.events := by
  refine ⟨fun t e ht hheld => ?_, fun c reply store' hpermits hcall hput =>
    hruns.exists_of_call hpermits hcall hput, fun s' hmoves => ?_⟩
  · obtain ⟨l, -, hs, hidle⟩ := hruns.exists_ledger
    obtain ⟨r, hr⟩ := hs.exists_table_iff.mp ht
    obtain ⟨a, ha⟩ := hs.references_pos_iff.mp hheld
    exact hs.takesOut hidle hr ha
  · obtain ⟨calls, h, horderly⟩ := hpasses.exists_reachable .initial rfl
    refine (h.frees_cases hmoves).imp_right ?_
    rintro ⟨task, tasks, e, x, htasks, hputs, hlast, hx, hfree, hevents, -⟩
    exact ⟨e, x, horderly.destroys htasks hputs hlast, hlast, hx, hfree, hevents⟩

/-- The element that a script has linked is taken out of its table, and is there afterwards. -/
theorem PassesThrough.unhash_destroys_nothing_of_linking :
    ∃ (s : Session Nat) (trace : List (Call (Item Nat) Nat × Reply (Item Nat)))
      (store : Store (Item Nat) Nat), Store.Runs trace s.store ∧
        PassesThrough linkingScript .initial s ∧ s.store.TakesOut 0 0 ∧ s.store.InTable 0 0 ∧
        s.store.unhash 0 0 = .ok (.ok (), store) ∧ ∃ x store', store.put 0 = .ok (none, store') ∧
          store'.heap.get? 0 = some x := by
  obtain ⟨-, outcomes, s, ⟨result, store⟩, -, htake, -, hok, htable, hheld, hresult⟩ :=
    exists_reachable_of_play 3 linkingScript (fun s => s.store.unhash 0 0)
      (fun s a => (s.store.table? 0).isSome ∧ s.store.references 0 = 1 ∧
        a.1 = .ok ()) (by decide +kernel)
  obtain rfl : result = .ok () := hresult
  have hpasses : PassesThrough linkingScript initial (s.push .teardown) := by
    simpa using passesThrough_append htake (.ending .refl)
  obtain ⟨calls, h, -⟩ := hpasses.exists_reachable .initial rfl
  obtain ⟨replies, hruns⟩ := h.runs
  obtain ⟨htakesOut, -⟩ := PassesThrough.unhash_destroys_nothing hruns hpasses
  have htakes := htakesOut 0 0 (Option.isSome_iff_exists.mp htable) (hheld ▸ Nat.one_pos)
  obtain ⟨y, hy, -, hput⟩ := htakes.put store hok
  exact ⟨_, _, store, hruns, hpasses, htakes, htakes.ok_iff.mp ⟨store, hok⟩, hok, _, _, hput,
    (Heap.get?_write hy _ 0).trans (if_pos rfl)⟩

end Session

end HashIndex.Script
