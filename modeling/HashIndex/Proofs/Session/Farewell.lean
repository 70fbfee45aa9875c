import HashIndex.Proofs.Call.Decided
import HashIndex.Proofs.Session.Lifetime

/-!
# Which strategy is told of a value

When the last reference to an element is put, its value goes to the release that the last call that
linked the element left with it. No strategy is told of a value at any other time, and no other
strategy is told of that value, whatever tables have refused the element or have gone meanwhile.

## Main definitions

* `Session.frees`: the values that strategies were told of.

## Main statements

* `Session.frees_of_begin`, `Session.frees_of_perform`: strategies are told of nothing when no
  reference is put.
* `Session.Reachable.release_decided`: the last call that linked an element decides on its release.
-/

namespace HashIndex.Script

variable {K : Type}

/-- What a strategy is told by an event: its name, and which value is about to be dropped. -/
def Event.free? : Event K → Option (String × String)
  | .freed strategy label => some (strategy, label)
  | _ => none

namespace Session

def frees (s : Session K) : List (String × String) := s.events.filterMap Event.free?

variable {s s' : Session K} {l : Ledger (Item K) K} {e : ElementId} {x : Element (Item K)}
  {task : Task K} {tasks : List (Task K)} {step : Step K} {calls : List (Call (Item K) K)}

/-! ## When strategies are told of nothing -/

@[simp] theorem frees_push (s : Session K) (task : Task K) : (s.push task).frees = s.frees := rfl

theorem frees_events {events : List (Event K)} (h : ∀ event ∈ events, event.free? = none) :
    { s with events := events ++ s.events }.frees = s.frees := by
  simp [frees, List.filterMap_append, List.filterMap_eq_nil_iff.mpr h]

@[simp] theorem frees_adopt (s : Session K) (store : Store (Item K) K) :
    (s.adopt store).frees = s.frees :=
  frees_events (s := { s with store := { store with journal := [] } })
    fun event hevent => by
      obtain ⟨note, -, rfl⟩ := List.mem_map.mp hevent
      rfl

theorem frees_foldl_emit {α : Type} (event : α → Event K)
    (hevent : ∀ item, (event item).free? = none) (items : List α) (s : Session K) :
    (items.foldl (fun s item => s.emit (event item)) s).frees = s.frees := by
  rw [foldl_emit]
  refine frees_events fun other hother => ?_
  obtain ⟨item, -, rfl⟩ := List.mem_map.mp (List.mem_reverse.mp hother)
  exact hevent item

theorem frees_of_retire {t : TableId} (h : s.retire t = .ok s') : s'.frees = s.frees := by
  obtain ⟨table, -, rfl⟩ := exists_of_retire h
  rfl

theorem frees_beginMalformed (s : Session K) (complaint : Complaint) (needs : List Need) :
    (s.beginMalformed complaint needs).frees = s.frees := by
  induction needs with
  | nil => rfl
  | cons need needs ih =>
    cases need <;> unfold beginMalformed <;> split <;> first | rfl | exact ih

theorem frees_of_withHandle {name : String} {next : ElementId → Except Fault (Session K)}
    (hnext : ∀ e, next e = .ok s' → s'.frees = s.frees) (h : s.withHandle name next = .ok s') :
    s'.frees = s.frees := by
  unfold withHandle at h
  split at h
  · cases h
    rfl
  · exact hnext _ h

theorem frees_of_takeHandle {name : String}
    {next : ElementId → Session K → Except Fault (Session K)}
    (hnext : ∀ e handles, next e { s with handles := handles } = .ok s' → s'.frees = s.frees)
    (h : s.takeHandle name next = .ok s') : s'.frees = s.frees := by
  unfold takeHandle at h
  split at h
  · cases h
    rfl
  · exact hnext _ _ h

theorem frees_of_withTable {name : String} {next : TableId → Except Fault (Session K)}
    (hnext : ∀ t, next t = .ok s' → s'.frees = s.frees) (h : s.withTable name next = .ok s') :
    s'.frees = s.frees := by
  unfold withTable at h
  split at h
  · cases h
    rfl
  · exact hnext _ h

theorem frees_of_act {α : Type} {action : Store (Item K) K → Except Fault (α × Store (Item K) K)}
    {next : α × Session K → Except Fault (Session K)}
    (hnext : ∀ result store, next (result, s.adopt store) = .ok s' →
      s'.frees = (s.adopt store).frees)
    (h : s.act action >>= next = .ok s') : s'.frees = s.frees := by
  obtain ⟨⟨result, _⟩, hact, h⟩ := Fault.bind_eq_ok_iff.mp h
  obtain ⟨store, -, rfl⟩ := act_eq_ok_iff.mp hact
  exact (hnext result store h).trans (frees_adopt s store)

theorem frees_of_beginTable {name : String} {strategy : Strategy (Item K) K} {capacity : Capacity}
    (h : s.beginTable name strategy capacity = .ok s') : s'.frees = s.frees := by
  refine frees_of_act (fun ⟨t, stat⟩ store h => ?_) h
  dsimp only at h
  split at h
  · cases h
    rfl
  · exact (frees_of_retire h).trans rfl

theorem frees_of_beginDropTable {name : String} (h : s.beginDropTable name = .ok s') :
    s'.frees = s.frees := by
  unfold beginDropTable at h
  split at h
  · cases h
    rfl
  · exact (frees_of_retire h).trans rfl

/-- No strategy is told of anything when a step is begun. -/
theorem frees_of_begin (h : s.begin step = .ok s') : s'.frees = s.frees := by
  cases step with
  | malformed needs complaint =>
    cases h
    exact frees_beginMalformed _ _ _
  | table name strategy capacity => exact frees_of_beginTable h
  | create name item hook =>
    refine frees_of_act (fun result store h => ?_) h
    cases h
    rfl
  | hold name target =>
    refine frees_of_withHandle (fun e h => frees_of_act (fun result store h => ?_) h) h
    cases h
    rfl
  | put name | drop name =>
    simp only [Session.begin] at h
    refine frees_of_takeHandle (fun e handles h => ?_) h
    cases h
    rfl
  | info name | showHandle name long =>
    refine frees_of_withHandle (fun e h => ?_) h
    obtain ⟨info, -, h⟩ := Fault.bind_eq_ok_iff.mp h
    cases h
    rfl
  | same name other =>
    refine frees_of_withHandle (fun e h => frees_of_withHandle (fun f h => ?_) h) h
    cases h
    rfl
  | hash table name key =>
    refine frees_of_withTable (fun t h => frees_of_withHandle (fun e h =>
      frees_of_act (fun result store h => ?_) h) h) h
    cases h
    rfl
  | unhash table name =>
    refine frees_of_withTable (fun t h => frees_of_withHandle (fun e h =>
      frees_of_act (fun result store h => ?_) h) h) h
    cases result <;> cases h <;> rfl
  | lookup table key target =>
    refine frees_of_withTable (fun t h => frees_of_act (fun result store h => ?_) h) h
    cases result with
    | error =>
      cases h
      rfl
    | ok e =>
      obtain ⟨info, -, h⟩ := Fault.bind_eq_ok_iff.mp h
      cases target <;> cases h <;> rfl
  | remove table key =>
    refine frees_of_withTable (fun t h => frees_of_act (fun result store h => ?_) h) h
    cases result with
    | error =>
      cases h
      rfl
    | ok e =>
      refine frees_of_act (fun result store h => ?_) h
      cases result <;> cases h <;> rfl
  | fill table items cut hook =>
    refine frees_of_withTable (fun t h => ?_) h
    cases h
    rfl
  | traverse table hold unhash target =>
    refine frees_of_withTable (fun t h => ?_) h
    obtain ⟨buckets, -, h⟩ := Fault.bind_eq_ok_iff.mp h
    cases h
    rfl
  | survey table hold target =>
    refine frees_of_withTable (fun t h => ?_) h
    obtain ⟨buckets, -, h⟩ := Fault.bind_eq_ok_iff.mp h
    refine frees_of_act (fun visits store h => ?_) h
    cases h
    exact frees_foldl_emit (fun visit : Visit (Item K) => .read visit.value visit.hash)
      (fun _ => rfl) _ _
  | chains table =>
    refine frees_of_withTable (fun t h => ?_) h
    obtain ⟨buckets, -, h⟩ := Fault.bind_eq_ok_iff.mp h
    refine frees_of_act (fun lengths store h => frees_of_act (fun visits store h => ?_) h) h
    cases h
    rfl
  | stat table | showTable table long =>
    refine frees_of_withTable (fun t h => ?_) h
    obtain ⟨stat, -, h⟩ := Fault.bind_eq_ok_iff.mp h
    cases h
    rfl
  | dropTable name => exact frees_of_beginDropTable h

theorem frees_performKeep (s : Session K) (entries : List (String × ElementId)) :
    (s.performKeep entries).frees = s.frees := by
  cases entries with
  | nil => rfl
  | cons entry entries =>
    unfold performKeep
    dsimp only
    split <;> rfl

theorem frees_of_performTeardown (h : s.performTeardown = .ok s') : s'.frees = s.frees := by
  unfold performTeardown at h
  split at h
  · cases h
    rfl
  · split at h
    · exact (frees_of_retire h).trans rfl
    · cases h
      rfl

/-- No strategy is told of anything by a task that puts no reference. -/
theorem frees_of_perform (hputs : task.puts? = none) (h : s.perform task = .ok s') :
    s'.frees = s.frees := by
  cases task with
  | hook label steps =>
    simp only [perform, performHook] at h
    split at h
    · cases h
      rfl
    · cases steps with
      | nil =>
        cases h
        rfl
      | cons step steps => exact (frees_of_begin h).trans (frees_push _ _)
  | release elements =>
    cases elements with
    | nil =>
      cases h
      rfl
    | cons => cases hputs
  | drop | put => cases hputs
  | keep entries =>
    cases h
    exact frees_performKeep _ _
  | fill t items cut hook results =>
    cases items with
    | nil =>
      cases h
      rfl
    | cons item items =>
      refine frees_of_act (fun result store h => ?_) h
      cases h
      rfl
  | traverse t buckets visited kept hold unhash target =>
    cases buckets with
    | nil =>
      cases h
      rfl
    | cons bucket buckets =>
      refine frees_of_act (fun result store h => ?_) h
      cases h
      exact frees_foldl_emit (fun visit : Visit (Item K) => .visited visit.value visit.hash)
        (fun _ => rfl) _ _
  | drain t buckets drained =>
    cases buckets with
    | nil =>
      cases h
      exact frees_adopt _ _
    | cons bucket buckets =>
      refine frees_of_act (fun released store h => ?_) h
      cases h
      rfl
  | answer answer =>
    cases h
    rfl
  | teardown => exact frees_of_performTeardown h

/-! ## What becomes of values -/

/-- Whatever happens next, either no element goes and no strategy is told of a value, or the last
reference to an element is put, and its value goes to its release. -/
theorem Reachable.frees_cases (h : Reachable calls s) (hmoves : Moves [] s s') :
    (s'.frees = s.frees ∧
      ∀ e x, s.store.heap.get? e = some x → ∃ y, s'.store.heap.get? e = some y) ∨
      ∃ task tasks e x, s.tasks = task :: tasks ∧ task.puts? = some e ∧ s.LastReference e ∧
        s.store.heap.get? e = some x ∧ s'.store.heap = s.store.heap.free e ∧
        s'.events = farewell x :: s.events ∧
        s'.tasks = s.afterFarewell e x ++ (task.afterPut true ++ tasks) := by
  by_cases hgone : ∃ e x, s.store.heap.get? e = some x ∧ s'.store.heap.get? e = none
  · obtain ⟨e, x, hx, hnone⟩ := hgone
    obtain ⟨y, hy, -⟩ | ⟨-, hlast, task, tasks, htasks, hputs, hperform⟩ := h.lasts hx hmoves
    · rw [hnone] at hy
      cases hy
    · obtain ⟨_, hok, hput⟩ := h.puts htasks hputs
      obtain rfl := Except.ok.inj (hperform.symm.trans hok)
      cases hput with
      | last hx' => exact .inr ⟨task, tasks, e, _, htasks, hputs, hlast, hx', rfl, rfl, rfl⟩
      | more _ hmore => exact absurd hlast hmore
  · have hlasts : ∀ e x, s.store.heap.get? e = some x → ∃ y, s'.store.heap.get? e = some y := by
      intro e x hx
      rw [← Option.isSome_iff_exists, Option.isSome_iff_ne_none]
      exact fun hnone => hgone ⟨e, x, hx, hnone⟩
    refine .inl ⟨?_, hlasts⟩
    cases hmoves with
    | begin step _ hbegin => exact frees_of_begin hbegin
    | perform task tasks _ htasks hperform =>
      cases hputs : task.puts? with
      | none => exact frees_of_perform (s := { s with tasks := tasks }) hputs hperform
      | some e =>
        obtain ⟨_, hok, hput⟩ := h.puts htasks hputs
        obtain rfl := Except.ok.inj (hperform.symm.trans hok)
        cases hput with
        | last hx =>
          obtain ⟨y, hy⟩ := hlasts e _ hx
          rw [Heap.get?_free_self] at hy
          cases hy
        | more => rfl

/-- The calls of a trace decide on what becomes of the values of all elements. Calls that link
nothing change no release, and an element that every table refused is just dropped. -/
structure Obeys (s : Session K) (trace : List (Call (Item K) K × Reply (Item K))) : Prop where
  release : ∀ e x, s.store.heap.get? e = some x → ∀ release,
    Decides trace e release ↔ release = x.release
  kept : ∀ c reply store, s.store.Permits c → s.store.call c = .ok (reply, store) →
    ∀ e x y, link? e (c, reply) = none → s.store.heap.get? e = some x →
      store.heap.get? e = some y → y.release = x.release
  linked : ∀ t e key store y, s.store.Permits (.hash t e key) →
    s.store.call (.hash t e key) = .ok (.result (.ok ()), store) → store.heap.get? e = some y →
    ∃ table, s.store.table? t = some table ∧ y.release = table.strategy.release
  destroyed : ∀ before e v release after,
    trace = before ++ (.put e, .destroyed (some (v, release))) :: after → Decides before e release
  refused : ∀ e x, s.store.heap.get? e = some x → (∀ event ∈ trace, link? e event = none) →
    farewell x = .dropped x.value.label ∧ s.afterFarewell e x = []
  told : ∀ s', Moves [] s s' →
    (s'.frees = s.frees ∧
      ∀ e x, s.store.heap.get? e = some x → ∃ y, s'.store.heap.get? e = some y) ∨
      ∃ task tasks e x, s.tasks = task :: tasks ∧ task.puts? = some e ∧ s.LastReference e ∧
        s.store.heap.get? e = some x ∧ s'.store.heap = s.store.heap.free e ∧
        s'.events = farewell x :: s.events ∧
        s'.tasks = s.afterFarewell e x ++ (task.afterPut true ++ tasks)

/-- The last call that linked an element decides on its release, and nothing else does. -/
theorem Reachable.release_decided (h : Reachable calls s) :
    ∃ replies, Store.empty.callAll calls = .ok (replies, s.store) ∧
      s.Obeys (calls.zip replies) := by
  obtain ⟨replies, l, hcalls, hstores, -⟩ := h.sound
  obtain ⟨store, hstores', hruns⟩ := Store.runs_of_callAll hcalls
  obtain ⟨-, rfl⟩ := Prod.mk.inj (Except.ok.inj (hstores.symm.trans hstores'))
  refine ⟨replies, hstores, fun e x hx release => hruns.decides_iff hx,
    fun c reply store hpermits hcall e x y hlink hx hy =>
      hruns.release_eq hpermits hcall hlink hx hy,
    fun t e key store y hpermits hcall hy => hruns.release_of_link hpermits hcall hy,
    fun before e v release after htrace => (htrace ▸ hruns).decides_of_destroyed,
    fun e x hx hrefused => ?_, fun s' hmoves => h.frees_cases hmoves⟩
  have hdrop : .drop = x.release := (hruns.decides_iff hx).mp (.never hrefused)
  simp only [farewell, afterFarewell, ← hdrop, and_self]

/-- A script that links an element, takes it out again and drops the table. -/
def retiringScript : List (Step Nat) :=
  [.table "t" (.usual Item.key UInt32.ofNat (.announce "bell") (.plain "")) .least,
    .create "a" ⟨"a", 7, 0⟩ [], .hash "t" "a" none, .unhash "t" "a", .dropTable "t"]

/-- The table is gone, and its strategy is still to be told of the value. -/
theorem Reachable.release_decided_of_retiring :
    ∃ (calls : List (Call (Item Nat) Nat)) (s : Session Nat) (replies : List (Reply (Item Nat))),
      Reachable calls s ∧ Store.empty.callAll calls = .ok (replies, s.store) ∧
        s.store.table? 0 = none ∧ Decides (calls.zip replies) 0 (.announce "bell") := by
  obtain ⟨calls, -, s, -, h, -, -, -, htable, hx⟩ := exists_reachable_of_play 7 retiringScript .ok
    (fun s _ => (s.store.table? 0).isNone ∧
      (s.store.heap.get? 0).map Element.release = some (.announce "bell")) (by decide +kernel)
  obtain ⟨x, hx, hrelease⟩ := Option.map_eq_some_iff.mp hx
  obtain ⟨replies, hstores, hobeys⟩ := Reachable.release_decided h
  exact ⟨calls, s, replies, h, hstores, Option.isNone_iff_eq_none.mp htable,
    (hobeys.release 0 x hx _).mpr hrelease.symm⟩

end Session

end HashIndex.Script
