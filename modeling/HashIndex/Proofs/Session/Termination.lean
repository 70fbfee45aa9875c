import HashIndex.Proofs.Call.Retry
import HashIndex.Proofs.Session.Faults
import HashIndex.Proofs.Session.Lifetime
import Mathlib.Order.WellFounded

/-!
# Everything comes to an end

Hooks may make elements that have hooks, put these where a traversal has yet to come, make tables
and begin traversals of their own. All the same every step of a script comes to an end, and so does
dropping everything afterwards: what is done leads down in the order of sessions by how much there
is to do. Only a script whose hooks drop a table from under an outer step does not get that far.

## Main definitions

* `Session.Next`: a bit of the most urgent task leads from one session to the next.
* `Session.PassesThrough`: the sessions that a script comes through.

## Main statements

* `Session.exists_not_next`: bits of tasks are not done for ever.
* `report_eq_error_iff`: a script faults just if it comes to drop a table that is in use.
* `Session.Reachable.terminates`: every call comes back, every task is done in the end, and every
  script ends with nothing left.
-/

namespace HashIndex.Script

variable {K : Type}

namespace Session

variable {s s' : Session K} {base : List (Task K)} {steps : List (Step K)}
  {calls : List (Call (Item K) K)}

def Next (s s' : Session K) : Prop :=
  ∃ task tasks, s.tasks = task :: tasks ∧ { s with tasks := tasks }.perform task = .ok s'

theorem precedes_of_next (h : s.Next s') : s'.Precedes s := by
  obtain ⟨task, tasks, htasks, hperform⟩ := h
  have hprecedes := precedes_of_perform hperform
  rwa [push, ← htasks] at hprecedes

/-- Bits of tasks are not done for ever, whatever the session is. -/
theorem exists_not_next (f : ℕ → Session K) : ∃ n, ¬(f n).Next (f (n + 1)) := by
  have hwf : IsWellFounded (Session K) Precedes := ⟨wellFounded_precedes⟩
  obtain ⟨n, hn⟩ := WellFounded.not_rel_apply_succ (r := Precedes) f
  exact ⟨n, fun hnext => hn (precedes_of_next hnext)⟩

/-! ## Scripts -/

/-- The sessions that come about when the steps of a script are taken and everything is dropped
afterwards. -/
inductive PassesThrough : List (Step K) → Session K → Session K → Prop
  | ending {s s' : Session K} (h : Advances [] (s.push .teardown) s') : PassesThrough [] s s'
  | here {step : Step K} {steps : List (Step K)} {s s₁ s' : Session K}
    (hbegin : s.begin step = .ok s₁) (h : Advances [] s₁ s') : PassesThrough (step :: steps) s s'
  | later {step : Step K} {steps : List (Step K)} {s s₁ s' : Session K} {outcome : Outcome K}
    (htake : s.take step = .ok (outcome, s₁)) (h : PassesThrough steps s₁ s') :
    PassesThrough (step :: steps) s s'

/-- When no task waits, no table is in use. -/
theorem Reachable.exists_begin_of_tasks (h : Reachable calls s) (htasks : s.tasks = [])
    (step : Step K) : ∃ s', s.begin step = .ok s' := by
  cases hbegin : s.begin step with
  | ok s' => exact ⟨s', rfl⟩
  | error fault =>
    obtain ⟨-, t, -, hinUse⟩ := h.begin_eq_error_iff.mp hbegin
    simp [InUse, htasks] at hinUse

theorem Reachable.exists_take (h : Reachable calls s) (htasks : s.tasks = []) (step : Step K) :
    (∃ s₁ s', s.begin step = .ok s₁ ∧ Advances [] s₁ s' ∧ s'.Conflict) ∨
      ∃ calls' outcome s', s.take step = .ok (outcome, s') ∧ Reachable calls' s' ∧
        s'.tasks = [] := by
  obtain ⟨s₁, hbegin⟩ := h.exists_begin_of_tasks htasks step
  have h₁ := h.begin step hbegin
  rcases h₁.ends_or_conflict List.nil_suffix with ⟨s₂, hadvances, hdone⟩ | ⟨s', hconflict⟩
  · obtain ⟨calls₂, h₂⟩ := hadvances.above.reachable h₁
    obtain ⟨snapshot, hsnapshot⟩ := h₂.snapshot
    refine .inr ⟨calls₂, ⟨s₂.answer.getD .nothing, s₂.events.reverse, snapshot⟩, _, ?_,
      h₂.acknowledge, hdone⟩
    simp only [Session.take, hbegin, hadvances.run_eq_ok hdone, hsnapshot, Fault.ok_bind,
      Fault.pure_eq_ok]
  · exact .inl ⟨s₁, s', hbegin, hconflict⟩

/-- Unless a script comes to drop a table that is in use, all its steps are taken, and it ends with
nothing left. -/
theorem Reachable.exists_finish (h : Reachable calls s) (htasks : s.tasks = [])
    (steps : List (Step K)) :
    (∃ s', PassesThrough steps s s' ∧ s'.Conflict) ∨
      ∃ outcomes s₀ s' calls', s.takeAll steps = .ok (outcomes, s₀) ∧ s₀.finish = .ok s' ∧
        Reachable calls' s' ∧
        s'.tasks = [] ∧ s'.handles.values = [] ∧ s'.tables.values = [] ∧ s'.Dropped := by
  induction steps generalizing s calls with
  | nil =>
    have h₁ := h.teardown
    rcases h₁.ends_or_conflict List.nil_suffix with ⟨s', hadvances, hdone⟩ |
      ⟨s', hadvances, hconflict⟩
    · obtain ⟨calls', h'⟩ := hadvances.above.reachable h₁
      have hfinish : s.finish = .ok s' := hadvances.run_eq_ok hdone
      obtain ⟨hdropped, hhandles, htables⟩ := h.dropped_of_finish htasks hfinish h' hdone
      exact .inr ⟨[], s, s', calls', rfl, hfinish, h', hdone, hhandles, htables, hdropped⟩
    · exact .inl ⟨s', .ending hadvances, hconflict⟩
  | cons step steps ih =>
    rcases h.exists_take htasks step with ⟨s₁, s', hbegin, hadvances, hconflict⟩ |
      ⟨calls₁, outcome, s₁, htake, h₁, hdone⟩
    · exact .inl ⟨s', .here hbegin hadvances, hconflict⟩
    · rcases ih h₁ hdone with ⟨s', hpasses, hconflict⟩ | ⟨outcomes, s₀, s', calls', hrest, hfinish⟩
      · exact .inl ⟨s', .later htake hpasses, hconflict⟩
      · refine .inr ⟨outcome :: outcomes, s₀, s', calls', ?_, hfinish⟩
        simp only [Session.takeAll, htake, hrest, Fault.ok_bind, Fault.pure_eq_ok]

/-- A script that comes to drop a table that is in use does not get any further. -/
theorem PassesThrough.takeAll_finish (hpasses : PassesThrough steps s s') (h : Reachable calls s)
    (hconflict : s'.Conflict) :
    (s.takeAll steps >>= fun (_, s) => s.finish) = .error .tableInUse := by
  induction hpasses generalizing calls with
  | ending hadvances => exact h.teardown.run_of_conflict hadvances hconflict
  | here hbegin hadvances =>
    have hrun := (h.begin _ hbegin).run_of_conflict hadvances hconflict
    simp only [Session.takeAll, Session.take, hbegin, hrun, Fault.ok_bind, Fault.error_bind]
  | @later step steps s s₁ s' outcome htake _ ih =>
    obtain ⟨calls₁, h₁⟩ : ∃ calls₁, Reachable calls₁ s₁ := by
      rcases h.take step with hfault | ⟨calls₁, _, _, hok, h₁⟩
      · rw [htake] at hfault
        cases hfault
      · obtain ⟨-, rfl⟩ := Prod.mk.inj (Except.ok.inj (htake.symm.trans hok))
        exact ⟨calls₁, h₁⟩
    have hrest := ih h₁ hconflict
    cases htakeAll : s₁.takeAll steps with
    | error fault =>
      rw [htakeAll, Fault.error_bind] at hrest
      simp only [Session.takeAll, htake, htakeAll, Fault.ok_bind, Fault.error_bind]
      exact hrest
    | ok result =>
      rw [htakeAll, Fault.ok_bind] at hrest
      simp only [Session.takeAll, htake, htakeAll, Fault.ok_bind, Fault.pure_eq_ok]
      exact hrest

end Session

/-- A script faults just if it comes to drop a table that is in use. -/
theorem report_eq_error_iff {steps : List (Step K)} {fault : Fault} :
    report steps = .error fault ↔
      fault = .tableInUse ∧ ∃ s, Session.PassesThrough steps .initial s ∧ s.Conflict := by
  have hreachable : Session.Reachable [] (Session.initial : Session K) := .initial
  constructor
  · intro hreport
    refine ⟨fault_eq_of_report hreport, (hreachable.exists_finish rfl steps).resolve_right ?_⟩
    rintro ⟨outcomes, s₀, s', -, htake, hfinish, -⟩
    simp only [report, htake, hfinish, Fault.ok_bind, Fault.pure_eq_ok] at hreport
    cases hreport
  · rintro ⟨rfl, s, hpasses, hconflict⟩
    have hfault := hpasses.takeAll_finish hreachable hconflict
    unfold report
    cases htake : Session.initial.takeAll steps with
    | error fault =>
      rw [htake, Fault.error_bind] at hfault
      cases hfault
      rfl
    | ok result =>
      obtain ⟨outcomes, s₀⟩ := result
      rw [htake, Fault.ok_bind] at hfault
      simp only [hfault, Fault.ok_bind, Fault.error_bind]

namespace Session

/-- Every call that is permitted comes back, and to take an element out needs one round only. A step
that is begun has an outcome, and the tasks that it leads to, which are putting references,
traversals and drops of tables, are done in the end, unless a hook drops a table that is in use. A
script, if no hook of it does so, ends with no handle and no table left. -/
theorem Reachable.terminates (h : Reachable calls s) :
    (∀ c, s.store.Permits c → ∃ reply store, s.store.call c = .ok (reply, store)) ∧
    (∀ rounds t e, s.store.unhashLoop (rounds + 1) t e = s.store.unhash t e) ∧
    (∀ step, (∃ s', s.begin step = .ok s') ∨ ∃ t, s.Drops step t ∧ s.InUse t) ∧
    (∀ base, base <:+ s.tasks →
      (∃ s', Advances base s s' ∧ s'.tasks = base) ∨ ∃ s', Advances base s s' ∧ s'.Conflict) ∧
    (¬∃ f : ℕ → Session K, f 0 = s ∧ ∀ n, (f n).Next (f (n + 1))) ∧
    (s.tasks = [] → ∀ steps : List (Step K),
      (∃ s', PassesThrough steps s s' ∧ s'.Conflict) ∨
        ∃ outcomes s₀ s', s.takeAll steps = .ok (outcomes, s₀) ∧ s₀.finish = .ok s' ∧
          s'.tasks = [] ∧ s'.handles.values = [] ∧ s'.tables.values = [] ∧ s'.Dropped) ∧
    ∀ steps : List (Step K), (∀ s', PassesThrough steps .initial s' → ¬s'.Conflict) →
      ∃ outcomes s₀ s', Session.initial.takeAll steps = .ok (outcomes, s₀) ∧ s₀.finish = .ok s' ∧
        report steps = .ok ⟨outcomes, s'.events.reverse⟩ ∧
        s'.tasks = [] ∧ s'.handles.values = [] ∧ s'.tables.values = [] ∧ s'.Dropped := by
  refine ⟨fun c hpermits => ?_, fun rounds t e => Store.unhashLoop_eq rounds _ t e, fun step => ?_,
    fun base hbase => h.ends_or_conflict hbase, ?_,
    fun htasks steps => (h.exists_finish htasks steps).imp_right ?_, fun steps hpeace => ?_⟩
  · obtain ⟨replies, hruns⟩ := h.runs
    obtain ⟨reply, store, hcall, -⟩ := hruns.exists_call hpermits
    exact ⟨reply, store, hcall⟩
  · cases hbegin : s.begin step with
    | ok s' => exact .inl ⟨s', rfl⟩
    | error fault => exact .inr (h.begin_eq_error_iff.mp hbegin).2
  · rintro ⟨f, -, hnext⟩
    obtain ⟨n, hn⟩ := exists_not_next f
    exact hn (hnext n)
  · rintro ⟨outcomes, s₀, s', -, htake, hfinish, -, hleft⟩
    exact ⟨outcomes, s₀, s', htake, hfinish, hleft⟩
  · have hinitial : Reachable [] (Session.initial : Session K) := .initial
    obtain ⟨outcomes, s₀, s', -, htake, hfinish, -, hleft⟩ :=
      (hinitial.exists_finish rfl steps).resolve_left fun ⟨s', hpasses, hconflict⟩ =>
        hpeace s' hpasses hconflict
    refine ⟨outcomes, s₀, s', htake, hfinish, ?_, hleft⟩
    simp only [report, htake, hfinish, Fault.ok_bind, Fault.pure_eq_ok]

def buried (s : Session Nat) : List String :=
  s.events.reverse.filterMap fun
    | .dropped label => some label
    | _ => none

theorem exists_finish_moving : ∃ (outcomes : List (Outcome Nat)) (s₀ s : Session Nat),
    Session.initial.takeAll movingScript = .ok (outcomes, s₀) ∧ s₀.finish = .ok s ∧
      s.buried = ["d", "c", "b", "a", "e"] ∧ s.store.heap.size = 5 := by
  obtain ⟨-, outcomes, s₀, s, -, htake, -, hadvance, hdone, hburied, hsize⟩ :=
    exists_reachable_of_play 6 movingScript (fun s => advance 8 (s.push .teardown))
      (fun _ s => s.tasks = [] ∧ s.buried = ["d", "c", "b", "a", "e"] ∧ s.store.heap.size = 5)
      (by decide +kernel)
  exact ⟨outcomes, s₀, s, htake, (advances_of_advance hadvance).run_eq_ok hdone, hburied, hsize⟩

/-- The drop of a table with three elements comes to an end, though it leads to a hook that makes
and destroys an element which has a hook itself, and so does the script that made them. -/
theorem Reachable.terminates_of_moving :
    ∃ (calls : List (Call (Item Nat) Nat)) (s s₁ s₂ : Session Nat), Reachable calls s ∧
      s.tasks = [] ∧ s.store.unhashLoop 2 0 0 = s.store.unhash 0 0 ∧
      s.begin (.dropTable "t") = .ok s₁ ∧ Advances [] s₁ s₂ ∧ s₂.tasks = [] ∧
      s₂.buried = ["d", "c"] ∧
      ∃ outcomes s₀ s', Session.initial.takeAll movingScript = .ok (outcomes, s₀) ∧
        s₀.finish = .ok s' ∧ s'.handles.values = [] ∧ s'.tables.values = [] ∧ s'.Dropped := by
  obtain ⟨calls, -, s, s₂, h, -, htasks, hnext, hdone, hburied⟩ :=
    exists_reachable_of_play 6 movingScript (fun s => s.begin (.dropTable "t") >>= advance 7)
      (fun _ s => s.tasks = [] ∧ s.buried = ["d", "c"]) (by decide +kernel)
  obtain ⟨s₁, hbegin, hadvance⟩ := Fault.bind_eq_ok_iff.mp hnext
  have hadvances := advances_of_advance hadvance
  have h₁ := h.begin _ hbegin
  obtain ⟨-, hloop, -, -, -, -, hscripts⟩ := Reachable.terminates h
  obtain ⟨-, -, -, hends, -⟩ := Reachable.terminates h₁
  obtain ⟨s₃, hadvances₃, hdone₃⟩ | ⟨s₃, hadvances₃, hconflict⟩ := hends [] List.nil_suffix
  · obtain rfl := hadvances₃.eq_of_done hdone₃ hadvances hdone
    obtain ⟨outcomes, s₀, s', htake, hfinish, -⟩ := exists_finish_moving
    obtain ⟨outcomes, s₀, s', htake, hfinish, -, -, hhandles, htables, hdropped⟩ :=
      hscripts movingScript fun s' hpasses hconflict => by
        have hfault := report_eq_error_iff.mpr ⟨rfl, s', hpasses, hconflict⟩
        simp only [report, htake, hfinish, Fault.ok_bind, Fault.pure_eq_ok] at hfault
        cases hfault
    exact ⟨calls, s, s₁, s₃, h, htasks, hloop 1 0 0, hbegin, hadvances, hdone₃, hburied,
      outcomes, s₀, s', htake, hfinish, hhandles, htables, hdropped⟩
  · exact absurd hconflict (h₁.not_conflict_of_done hadvances hdone hadvances₃)

end Session

end HashIndex.Script
