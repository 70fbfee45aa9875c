import HashIndex.Proofs.Call.Run
import HashIndex.Proofs.Session.Task
import HashIndex.Script.Run

/-!
# Reachable sessions

A session is reachable if it can come about by beginning steps and doing bits of tasks, in any order
in which the most urgent task comes first. This takes in every state that a hook can see, however
deeply it is nested, and also states that no hook of a script leads to, since a step may be begun at
any time. The calls that were made on the store on the way are kept in their order.

## Main definitions

* `Session.Reachable`: reachable sessions, each with the calls that were made.
* `Session.Safe`: sessions in which nothing can go wrong.
* `Session.advance`, `Session.play`: bits of tasks and steps of scripts, done so that they can be
  evaluated in proofs.

## Main statements

* `Session.Reachable.sound`: reachable sessions are sound.
* `Session.Reachable.runs`: their stores come about by runs of calls.
* `Session.Reachable.run`: a session that is run comes through reachable sessions only.
* `Session.exists_reachable_of_play`: so does a script, and what comes of it can be decided.
* `fault_eq_of_report`: it faults only if it drops a table that is in use.
-/

namespace HashIndex.Script

variable {K : Type}

namespace Session

/-- Sessions that can come about, with the calls that were made on the store. -/
inductive Reachable : List (Call (Item K) K) → Session K → Prop
  | initial : Reachable [] initial
  | begin {calls : List (Call (Item K) K)} {s s' : Session K} (h : Reachable calls s)
    (step : Step K) (hbegin : s.begin step = .ok s') : Reachable (calls ++ s.callsOf step) s'
  | perform {calls : List (Call (Item K) K)} {s s' : Session K} (h : Reachable calls s)
    {task : Task K} {tasks : List (Task K)} (htasks : s.tasks = task :: tasks)
    (hperform : { s with tasks := tasks }.perform task = .ok s') :
    Reachable (calls ++ callsOfTask { s with tasks := tasks } task) s'
  | teardown {calls : List (Call (Item K) K)} {s : Session K} (h : Reachable calls s) :
    Reachable calls (s.push .teardown)
  | acknowledge {calls : List (Call (Item K) K)} {s : Session K} (h : Reachable calls s) :
    Reachable calls { s with answer := none, events := [] }

variable {s s' : Session K} {l : Ledger (Item K) K} {calls calls' : List (Call (Item K) K)}

theorem Leads.exists_of_ok {store : Store (Item K) K} (h : Leads store l calls (.ok s')) :
    ∃ replies l', l.callAll calls = some (replies, l') ∧
      store.callAll calls = .ok (replies, s'.store) ∧ s'.Sound l' [] := by
  rcases h with h | ⟨s'', replies, l', hok, hcalls, hstore, hs⟩
  · cases h
  · cases hok
    exact ⟨replies, l', hcalls, hstore, hs⟩

theorem Leads.fault_eq {store : Store (Item K) K} {fault : Fault}
    (h : Leads store l calls (.error fault)) : fault = .tableInUse := by
  rcases h with h | ⟨s'', _, _, hok, -⟩
  · exact Except.error.inj h
  · cases hok

/-- In a reachable session the store is what the calls have made of an empty one, every call was
permitted and answered as it is meant to be, and every reference is in custody. -/
theorem Reachable.sound (h : Reachable calls s) :
    ∃ replies l, Ledger.empty.callAll calls = some (replies, l) ∧
      Store.empty.callAll calls = .ok (replies, s.store) ∧ s.Sound l [] := by
  induction h with
  | initial => exact ⟨[], .empty, rfl, rfl, sound_initial⟩
  | begin _ step hbegin ih =>
    obtain ⟨replies, l, hcalls, hstores, hs⟩ := ih
    obtain ⟨replies', l', hcalls', hstores', hs'⟩ := (hbegin ▸ hs.begin step).exists_of_ok
    exact ⟨replies ++ replies', l', Ledger.callAll_append hcalls hcalls',
      Store.callAll_append hstores hstores', hs'⟩
  | perform _ htasks hperform ih =>
    obtain ⟨replies, l, hcalls, hstores, hs⟩ := ih
    obtain ⟨replies', l', hcalls', hstores', hs'⟩ :=
      (hperform ▸ hs.perform htasks).exists_of_ok
    exact ⟨replies ++ replies', l', Ledger.callAll_append hcalls hcalls',
      Store.callAll_append hstores hstores', hs'⟩
  | teardown _ ih =>
    obtain ⟨replies, l, hcalls, hstores, hs⟩ := ih
    exact ⟨replies, l, hcalls, hstores, Sound.push_plain _ hs fun _ => rfl⟩
  | acknowledge _ ih =>
    obtain ⟨replies, l, hcalls, hstores, hs⟩ := ih
    exact ⟨replies, l, hcalls, hstores, hs.congr rfl rfl rfl rfl⟩

/-- What hooks see are stores after runs. -/
theorem Reachable.runs (h : Reachable calls s) :
    ∃ replies, Store.Runs (calls.zip replies) s.store := by
  obtain ⟨replies, l, hcalls, hstores, -⟩ := h.sound
  obtain ⟨store, hstores', hruns⟩ := Store.runs_of_callAll hcalls
  obtain ⟨-, rfl⟩ := Prod.mk.inj (Except.ok.inj (hstores.symm.trans hstores'))
  exact ⟨replies, hruns⟩

/-- Whatever is done next, nothing goes wrong, except that a table is not dropped that is in use. -/
structure Safe (s : Session K) : Prop where
  begin : ∀ step fault, s.begin step = .error fault → fault = .tableInUse
  perform : ∀ task tasks fault, s.tasks = task :: tasks →
    { s with tasks := tasks }.perform task = .error fault → fault = .tableInUse

theorem Reachable.safe (h : Reachable calls s) : s.Safe := by
  obtain ⟨_, l, -, -, hs⟩ := h.sound
  exact ⟨fun step fault hbegin => (hbegin ▸ hs.begin step).fault_eq,
    fun task tasks fault htasks hperform => (hperform ▸ hs.perform htasks).fault_eq⟩

/-! ## Runs of scripts -/

theorem run_eq (s : Session K) : s.run =
    match s.tasks with
    | [] => .ok s
    | task :: tasks => ({ s with tasks := tasks }.perform task).bind run := by
  rw [Session.run]
  split
  next htasks => simp only [htasks]
  next task tasks htasks =>
    simp only [htasks]
    split
    next hperform => rw [hperform, Except.bind]
    next hperform => rw [hperform, Except.bind]

/-- A reachable session is run to one that has no tasks left. -/
theorem Reachable.run (h : Reachable calls s) :
    s.run = .error .tableInUse ∨
      ∃ calls' s', s.run = .ok s' ∧ Reachable calls' s' ∧ s'.tasks = [] := by
  induction s using Session.run.induct generalizing calls with
  | case1 s htasks =>
    refine .inr ⟨calls, s, ?_, h, htasks⟩
    rw [run_eq, htasks]
  | case2 s task tasks htasks fault hperform =>
    left
    rw [run_eq, htasks]
    simp only [hperform, Except.bind, h.safe.perform _ _ _ htasks hperform]
  | case3 s task tasks htasks s₁ hperform ih =>
    rw [run_eq, htasks]
    simp only [hperform, Except.bind]
    exact ih (h.perform htasks hperform)

/-- What no task breaks holds when all of them are done. -/
theorem run_keeps {motive : Session K → Prop} (hrun : s.run = .ok s') (h : motive s)
    (hkeeps : ∀ s task tasks s₁, motive s → s.tasks = task :: tasks →
      { s with tasks := tasks }.perform task = .ok s₁ → motive s₁) :
    motive s' ∧ s'.tasks = [] := by
  induction s using Session.run.induct with
  | case1 s htasks =>
    rw [run_eq, htasks] at hrun
    cases hrun
    exact ⟨h, htasks⟩
  | case2 s task tasks htasks fault hperform =>
    rw [run_eq, htasks] at hrun
    simp only [hperform, Except.bind] at hrun
    cases hrun
  | case3 s task tasks htasks s₁ hperform ih =>
    rw [run_eq, htasks] at hrun
    simp only [hperform, Except.bind] at hrun
    exact ih hrun (hkeeps s task tasks s₁ h htasks hperform)

theorem exists_bind {α β : Type} {action : Except Fault α} {next : α → Except Fault β}
    (haction : ∃ value, action = .ok value) (hnext : ∀ value, ∃ result, next value = .ok result) :
    ∃ result, action >>= next = .ok result := by
  obtain ⟨value, rfl⟩ := haction
  exact hnext value

theorem exists_mapM {α β : Type} (f : α → Except Fault β) (items : List α)
    (h : ∀ item ∈ items, ∃ value, f item = .ok value) : ∃ values, items.mapM f = .ok values := by
  induction items with
  | nil => exact ⟨[], rfl⟩
  | cons item items ih =>
    obtain ⟨value, hvalue⟩ := h item (by simp)
    obtain ⟨values, hvalues⟩ := ih fun item hitem => h item (List.mem_cons_of_mem _ hitem)
    exact ⟨value :: values, by
      simp only [List.mapM_cons, hvalue, hvalues, Fault.ok_bind, Fault.pure_eq_ok]⟩

/-- All that names refer to is there to be looked at. -/
theorem Reachable.snapshot (h : Reachable calls s) : ∃ snapshot, s.snapshot = .ok snapshot := by
  obtain ⟨-, l, -, -, hs⟩ := h.sound
  have htable : ∀ entry ∈ s.tables.entries, ∃ table, s.store.table entry.2 = .ok table := by
    intro entry hentry
    obtain ⟨r, hr⟩ := hs.named entry.2 (List.mem_map_of_mem hentry)
    obtain ⟨table, htable, -⟩ := hs.agrees.exists_table hr
    exact ⟨table, Store.table_eq htable⟩
  have helement : ∀ entry ∈ s.handles.entries, ∃ x, s.store.heap.read entry.2 = .ok x := by
    intro entry hentry
    obtain ⟨a, ha⟩ := hs.held (.inl (List.mem_append_left _ (List.mem_map_of_mem hentry)))
    obtain ⟨x, hx⟩ := hs.exists_element ha
    exact ⟨x, Heap.read_eq hx⟩
  unfold Session.snapshot
  refine exists_bind (exists_mapM _ _ fun entry hentry => ?_) fun tables =>
    exists_bind (exists_mapM _ _ fun entry hentry => ?_) fun handles => ⟨_, rfl⟩
  · exact exists_bind (htable entry hentry) fun table => ⟨_, rfl⟩
  · exact exists_bind (helement entry hentry) fun x => ⟨_, rfl⟩

theorem Reachable.take (h : Reachable calls s) (step : Step K) :
    s.take step = .error .tableInUse ∨
      ∃ calls' outcome s', s.take step = .ok (outcome, s') ∧ Reachable calls' s' := by
  unfold Session.take
  cases hbegin : s.begin step with
  | error fault => exact .inl (by rw [h.safe.begin _ _ hbegin]; rfl)
  | ok s₁ =>
    rcases (h.begin step hbegin).run with hrun | ⟨calls₂, s₂, hrun, h₂, -⟩
    · exact .inl (by simp only [hrun, Fault.ok_bind, Fault.error_bind])
    · obtain ⟨snapshot, hsnapshot⟩ := h₂.snapshot
      refine .inr ⟨calls₂, ⟨s₂.answer.getD .nothing, s₂.events.reverse, snapshot⟩, _, ?_,
        h₂.acknowledge⟩
      simp only [hrun, hsnapshot, Fault.ok_bind, Fault.pure_eq_ok]

theorem Reachable.takeAll (h : Reachable calls s) (steps : List (Step K)) :
    s.takeAll steps = .error .tableInUse ∨
      ∃ calls' outcomes s', s.takeAll steps = .ok (outcomes, s') ∧ Reachable calls' s' := by
  induction steps generalizing calls s with
  | nil => exact .inr ⟨calls, [], s, rfl, h⟩
  | cons step steps ih =>
    simp only [Session.takeAll]
    rcases h.take step with htake | ⟨calls₁, outcome, s₁, htake, h₁⟩
    · exact .inl (by rw [htake, Fault.error_bind])
    · rcases ih h₁ with hrest | ⟨calls₂, outcomes, s₂, hrest, h₂⟩
      · exact .inl (by simp only [htake, hrest, Fault.ok_bind, Fault.error_bind])
      · refine .inr ⟨calls₂, outcome :: outcomes, s₂, ?_, h₂⟩
        simp only [htake, hrest, Fault.ok_bind, Fault.pure_eq_ok]

theorem Reachable.finish (h : Reachable calls s) :
    s.finish = .error .tableInUse ∨
      ∃ calls' s', s.finish = .ok s' ∧ Reachable calls' s' ∧ s'.tasks = [] :=
  h.teardown.run

/-- Between two steps of a script no task waits. -/
theorem tasks_of_takeAll {steps : List (Step K)} {outcomes : List (Outcome K)}
    (htasks : s.tasks = []) (h : s.takeAll steps = .ok (outcomes, s')) : s'.tasks = [] := by
  induction steps generalizing s outcomes with
  | nil =>
    cases h
    exact htasks
  | cons step steps ih =>
    obtain ⟨⟨outcome, s₁⟩, htake, h⟩ := Fault.bind_eq_ok_iff.mp h
    obtain ⟨⟨rest, s₂⟩, hrest, h⟩ := Fault.bind_eq_ok_iff.mp h
    cases h
    obtain ⟨s₃, -, htake⟩ := Fault.bind_eq_ok_iff.mp htake
    obtain ⟨s₄, hrun, htake⟩ := Fault.bind_eq_ok_iff.mp htake
    obtain ⟨snapshot, -, htake⟩ := Fault.bind_eq_ok_iff.mp htake
    cases htake
    have hdone : s₄.tasks = [] :=
      (run_keeps (motive := fun _ => True) hrun trivial fun _ _ _ _ _ _ _ => trivial).2
    exact ih (s := { s₄ with answer := none, events := [] }) hdone hrest

/-! ## Playing a script -/

deriving instance DecidableEq for Info, Stat, Census, Answer, Event

/-- So many bits of tasks, one after the other, as the power of two with this exponent, or all that
are left. -/
def advance : Nat → Session K → Except Fault (Session K)
  | 0, s =>
    match s.tasks with
    | [] => .ok s
    | task :: tasks => { s with tasks := tasks }.perform task
  | n + 1, s => do
    let s ← advance n s
    advance n s

/-- Take steps in order, each with so many bits of tasks as `advance` does, which have to be enough.
This is done by recursion on lists and numbers alone, and so it can be evaluated in proofs. -/
def play (n : Nat) : List (Step K) → Session K → Option (Session K)
  | [], s => some s
  | step :: steps, s =>
    match s.begin step >>= advance n with
    | .error _ => none
    | .ok s => if s.tasks = [] then play n steps { s with answer := none, events := [] } else none

/-- What is left to do after some bits of tasks comes to the same end. -/
theorem run_of_advance {n : Nat} (h : advance n s = .ok s') : s.run = s'.run := by
  induction n generalizing s s' with
  | zero =>
    unfold advance at h
    split at h
    next =>
      cases h
      rfl
    next task tasks htasks =>
      rw [run_eq, htasks]
      simp only [h, Except.bind]
  | succ n ih =>
    obtain ⟨s₁, hfirst, hrest⟩ := Fault.bind_eq_ok_iff.mp h
    exact (ih hfirst).trans (ih hrest)

/-- To play steps is to take them. -/
theorem Reachable.takeAll_of_play {n : Nat} {steps : List (Step K)} (h : Reachable calls s)
    (hplay : play n steps s = some s') :
    ∃ calls' outcomes, s.takeAll steps = .ok (outcomes, s') ∧ Reachable calls' s' := by
  induction steps generalizing calls s with
  | nil =>
    cases hplay
    exact ⟨calls, [], rfl, h⟩
  | cons step steps ih =>
    unfold play at hplay
    split at hplay
    next => cases hplay
    next s₂ hstep =>
      obtain ⟨s₁, hbegin, hadvance⟩ := Fault.bind_eq_ok_iff.mp hstep
      split at hplay
      next hdone =>
        have hrun : s₁.run = .ok s₂ := by rw [run_of_advance hadvance, run_eq, hdone]
        obtain hfault | ⟨calls₂, _, hok, h₂, -⟩ := (h.begin step hbegin).run
        · cases hfault.symm.trans hrun
        obtain rfl := Except.ok.inj (hrun.symm.trans hok)
        obtain ⟨snapshot, hsnapshot⟩ := h₂.snapshot
        obtain ⟨calls', outcomes, htakeAll, h'⟩ := ih h₂.acknowledge hplay
        refine ⟨calls', ⟨s₂.answer.getD .nothing, s₂.events.reverse, snapshot⟩ :: outcomes, ?_, h'⟩
        simp only [Session.takeAll, Session.take, hbegin, hrun, hsnapshot, htakeAll, Fault.ok_bind,
          Fault.pure_eq_ok]
      next => cases hplay

/-- What comes of a script comes of a reachable session, and can be found out by playing it. -/
theorem exists_reachable_of_play {α : Type} (n : Nat) (steps : List (Step K))
    (next : Session K → Except Fault α) (p : Session K → α → Prop) [∀ s a, Decidable (p s a)]
    (h : (match play n steps initial with
      | none => false
      | some s => match next s with
        | .error _ => false
        | .ok a => decide (p s a)) = true) :
    ∃ calls outcomes s a, Reachable calls s ∧ initial.takeAll steps = .ok (outcomes, s) ∧
      s.tasks = [] ∧ next s = .ok a ∧ p s a := by
  split at h
  next => cases h
  next s hplay =>
    split at h
    next => cases h
    next a hnext =>
      obtain ⟨calls, outcomes, htake, hs⟩ := Reachable.initial.takeAll_of_play hplay
      exact ⟨calls, outcomes, s, a, hs, htake, tasks_of_takeAll rfl htake, hnext,
        of_decide_eq_true h⟩

/-- A script that makes a table and an element and links the element. -/
def linkingScript : List (Step Nat) :=
  [.table "t" (.usual Item.key UInt32.ofNat .drop (.plain "")) .least, .create "a" ⟨"a", 7, 0⟩ [],
    .hash "t" "a" none]

theorem exists_reachable_linking : ∃ (calls : List (Call (Item Nat) Nat)) (s : Session Nat),
    Reachable calls s ∧ s.tasks = [] ∧ s.handleList = [0] ∧ s.tables.find? "t" = some 0 ∧
      (s.store.heap.get? 0).map Element.isHashed = some true := by
  obtain ⟨calls, -, s, -, h, -, htasks, -, hlinked⟩ := exists_reachable_of_play 3 linkingScript .ok
    (fun s _ => s.handleList = [0] ∧ s.tables.find? "t" = some 0 ∧
      (s.store.heap.get? 0).map Element.isHashed = some true) (by decide +kernel)
  exact ⟨calls, s, h, htasks, hlinked⟩

/-- A script that links three elements into one bucket. Nobody else refers to the last one, and its
hook links another one of them into a second table, and there also an element that it makes and
destroys again. The hook of that element makes one more and links it into the first table. -/
def movingScript : List (Step Nat) :=
  [.table "t" (.usual Item.key UInt32.ofNat (.announce "t") (.plain "")) .least,
    .table "u" (.usual Item.key UInt32.ofNat (.announce "u") (.plain "")) .least,
    .create "a" ⟨"a", 7, 0⟩ [], .hash "t" "a" none, .create "b" ⟨"b", 39, 0⟩ [],
    .hash "t" "b" none,
    .create "c" ⟨"c", 71, 0⟩
      [.hash "u" "b" none,
        .create "d" ⟨"d", 40, 0⟩ [.create "e" ⟨"e", 9, 0⟩ [], .hash "t" "e" none],
        .hash "u" "d" none, .drop "d", .remove "u" 40],
    .hash "t" "c" none, .drop "c"]

theorem exists_reachable_linked : ∃ (calls : List (Call (Item Nat) Nat)) (s : Session Nat)
    (x : Element (Item Nat)), Reachable calls s ∧ s.tasks = [] ∧ s.handleList = [0] ∧
      s.store.heap.get? 0 = some x ∧ x.isHashed = true := by
  obtain ⟨calls, s, h, htasks, hhandles, -, hlinked⟩ := exists_reachable_linking
  obtain ⟨x, hx, hhashed⟩ := Option.map_eq_some_iff.mp hlinked
  exact ⟨calls, s, x, h, htasks, hhandles, hx, hhashed⟩

end Session

/-- All that can go wrong with a script is that it drops a table that is in use. -/
theorem fault_eq_of_report {steps : List (Step K)} {fault : Fault}
    (hreport : report steps = .error fault) : fault = .tableInUse := by
  rcases Session.Reachable.initial.takeAll steps with htake | ⟨calls, outcomes, s, htake, h⟩
  · simp only [report, htake, Fault.error_bind] at hreport
    exact (Except.error.inj hreport).symm
  · rcases h.finish with hfinish | ⟨_, s', hfinish, -⟩
    · simp only [report, htake, hfinish, Fault.ok_bind, Fault.error_bind] at hreport
      exact (Except.error.inj hreport).symm
    · simp only [report, htake, hfinish, Fault.ok_bind, Fault.pure_eq_ok] at hreport
      cases hreport

end HashIndex.Script
